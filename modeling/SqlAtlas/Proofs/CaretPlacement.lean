import SqlAtlas.Proofs.Cutoff
import SqlAtlas.Proofs.WordList

namespace SqlAtlas

namespace Caret

variable {script : String} {offset : Nat}

def begun (script : String) (offset : Nat) : List Word :=
  (Word.split script).filter fun word => !word.isFinish && word.start ≤ offset

theorem isFinish_of_closed {word : Word}
    (h : word ∈ (script.toList.foldl Word.Scan.step .begin).closed) : word.isFinish = false :=
  (Word.Scan.closed_run script.toList .begin (by simp [Word.Scan.closed, Word.Scan.begin]) word h).1

theorem begun_eq (script : String) (offset : Nat) : begun script offset =
    (script.toList.foldl Word.Scan.step .begin).closed.reverse.filter (·.start ≤ offset) := by
  obtain ⟨last, hlast, hsplit⟩ := Word.split_eq script
  rw [begun, hsplit, List.filter_append, List.filter_cons_of_neg (by simp [hlast]), List.filter_nil,
    List.append_nil]
  exact List.filter_congr fun word hword => by simp [isFinish_of_closed (List.mem_reverse.1 hword)]

theorem split_eq_begun (script : String) (offset : Nat) : ∃ later last, last.isFinish = true ∧
    Word.split script = begun script offset ++ (later ++ [last]) ∧
    (∀ word ∈ begun script offset, word.isFinish = false ∧ word.start ≤ offset) ∧
    ∀ word ∈ later, word.isFinish = false ∧ offset < word.start := by
  obtain ⟨last, hlast, hsplit⟩ := Word.split_eq script
  have hsorted := Word.split_pairwise script
  rw [hsplit] at hsorted
  refine ⟨(script.toList.foldl Word.Scan.step .begin).closed.reverse.filter
    fun word => !decide (word.start ≤ offset), last, hlast, ?_, fun word hword => ?_,
    fun word hword => ?_⟩
  · rw [begun_eq, ← List.append_assoc, filter_append_filter_not, hsplit]
    refine (List.pairwise_append.1 hsorted).1.imp fun hlt hle => ?_
    simp only [decide_eq_true_eq] at hle ⊢
    omega
  · simpa using (List.mem_filter.1 hword).2
  · obtain ⟨hmem, hlater⟩ := List.mem_filter.1 hword
    exact ⟨isFinish_of_closed (List.mem_reverse.1 hmem), by simpa using hlater⟩

theorem word?_of_blank (hblank : Text.endsBlank script.toList = true)
    (h : ∀ word ∈ Word.split script, word.isFinish = false → word.start ≤ offset) :
    ∃ last, word? script offset = some last := by
  obtain ⟨later, last, hlast, hsplit, hbegun, hlater⟩ := split_eq_begun script offset
  have hnone : later = [] := by
    refine List.eq_nil_iff_forall_not_mem.2 fun word hword => ?_
    have hle := h word (by simp [hsplit, hword]) (hlater word hword).1
    exact absurd (hlater word hword).2 (Nat.not_lt.2 hle)
  rw [hnone, List.nil_append] at hsplit
  exact ⟨last, by rw [word?_of_last hsplit hlast hbegun, if_pos hblank]⟩

theorem word?_eq_begun
    (h : (∃ word ∈ Word.split script, word.isFinish = false ∧ offset < word.start) ∨
      Text.endsBlank script.toList = false) :
      word? script offset = (begun script offset).getLast? := by
  obtain ⟨later, last, hlast, hsplit, hbegun, hlater⟩ := split_eq_begun script offset
  cases later with
  | nil =>
      have hsolid : Text.endsBlank script.toList = false := by
        refine h.resolve_left ?_
        rintro ⟨word, hword, hfinish, hlt⟩
        rw [hsplit, List.nil_append, List.mem_append, List.mem_singleton] at hword
        rcases hword with hword | rfl
        · exact absurd (hbegun word hword).2 (Nat.not_le.2 hlt)
        · rw [hlast] at hfinish
          cases hfinish
      rw [List.nil_append] at hsplit
      rw [word?_of_last hsplit hlast hbegun, hsolid]
      rfl
  | cons next more => exact word?_of_next hsplit (hlater next List.mem_cons_self) hbegun

end Caret

namespace Word.Scan

theorem foldl_of_blank {blanks : List Char} (h : ∀ c ∈ blanks, Text.isBlank c = true) {scan : Scan}
    (hclosed : scan.closed = []) (hquoted : scan.quoted = false) :
    (blanks.foldl step scan).closed = [] := by
  induction blanks generalizing scan with
  | nil => exact hclosed
  | cons c blanks ih =>
      obtain ⟨hc, hblanks⟩ := List.forall_mem_cons.1 h
      have hne : c ≠ '\'' ∧ c ≠ ';' := by
        constructor <;> (rintro rfl; exact absurd hc (by decide))
      have hsame : (scan.step c).quoted = false := by
        rw [quoted_step, quotedAfter, if_neg (by simp [hne.1]), hquoted]
      have hout : inWord (scan.step c).quoted c = false := by simp [hsame, inWord, hc]
      obtain ⟨hfound, hopen⟩ := step_of_out hout
      refine ih hblanks ?_ hsame
      rw [closed_of_none hopen, hfound, parted, if_neg hne.2, hclosed]

theorem closed_trail (cs : List Char) : ∀ word words, (cs.foldl step begin).closed = word :: words →
    ∃ front gap, cs = front ++ gap ∧ Text.allBlank gap = true ∧
      Text.bytes front = word.stop + 1 := by
  refine foldl_keeps (fun cs scan => ∀ word words, scan.closed = word :: words → ∃ front gap,
    cs = front ++ gap ∧ Text.allBlank gap = true ∧ Text.bytes front = word.stop + 1) ?_ ?_ cs
  · intro word words h
    cases h
  · intro cs c ih word words h
    have hoffset : (cs.foldl step begin).offset = Text.bytes cs := (tells cs).offset
    have hpassed : ((cs.foldl step begin).step c).offset = Text.bytes (cs ++ [c]) := by
      rw [offset_step, hoffset, Text.bytes_append]
      rfl
    have hpos := c.utf8Size_pos
    rcases step_cases (cs.foldl step begin) c with ⟨-, hopen⟩ | ⟨hc, hfound, hopen⟩
    · obtain ⟨under, hunder⟩ : ∃ under, ((cs.foldl step begin).step c).open? = some under := by
        rw [hopen]
        cases (cs.foldl step begin).open? <;> exact ⟨_, rfl⟩
      rw [closed_of_some hunder] at h
      refine ⟨cs ++ [c], [], by simp, rfl, ?_⟩
      rw [← (List.cons.inj h).1, ← hpassed, offset_step]
      dsimp only
      omega
    · rw [closed_of_none hopen, hfound, parted] at h
      split at h
      · next hsemicolon =>
          refine ⟨cs ++ [c], [], by simp, rfl, ?_⟩
          rw [← (List.cons.inj h).1, Text.bytes_append, hoffset, hsemicolon]
          rfl
      · next hsemicolon =>
          obtain ⟨front, gap, hcs, hgap, hstop⟩ := ih word words h
          refine ⟨front, gap ++ [c], by rw [hcs, List.append_assoc], ?_, hstop⟩
          simpa [Text.allBlank, hc.resolve_right hsemicolon] using hgap

theorem closed_step_of_solid {scan : Scan} (hclosed : scan.closed = []) {c : Char}
    (hc : Text.isBlank c = false) : ∃ word, (scan.step c).closed = [word] ∧
      word.start = scan.offset := by
  have hopen : scan.open? = none := by
    cases hopen : scan.open? with
    | none => rfl
    | some under => simp [closed_of_some hopen] at hclosed
  rw [closed_of_none hopen] at hclosed
  rcases step_cases scan c with ⟨hfound, hunder⟩ | ⟨hblank | hsemicolon, hfound, hunder⟩
  · rw [hopen, Option.none_or] at hunder
    exact ⟨_, by rw [closed_of_some hunder, hfound, hclosed], rfl⟩
  · rw [hc] at hblank
    cases hblank
  · rw [parted, if_pos hsemicolon, closed_of_none hopen, hclosed] at hfound
    exact ⟨_, (closed_of_none hunder).trans hfound, rfl⟩

end Word.Scan

namespace Caret

variable {script : String} {offset : Nat} {front rest : List Char} {c : Char}

theorem split_of_blank (hblank : ∀ b ∈ script.toList, Text.isBlank b = true) :
    ∀ word ∈ Word.split script, word.isFinish = true := by
  obtain ⟨last, hlast, hsplit⟩ := Word.split_eq script
  rw [hsplit, Word.Scan.foldl_of_blank hblank rfl rfl]
  exact List.forall_mem_singleton.2 hlast

theorem split_of_solid (hscript : script.toList = front ++ c :: rest)
    (hblank : ∀ b ∈ front, Text.isBlank b = true) (hc : Text.isBlank c = false) :
    ∃ word more, Word.split script = word :: more ∧ word.isFinish = false ∧
      word.start = Text.bytes front := by
  have hclosed : (front.foldl Word.Scan.step .begin).closed = [] :=
    Word.Scan.foldl_of_blank hblank rfl rfl
  obtain ⟨word, word', before, after, hstep, hall, hstart, hfinish, -⟩ :=
    Word.Scan.closed_of_solid (front.foldl Word.Scan.step .begin) hc rest
  obtain ⟨first, hfirst, hoffset⟩ := Word.Scan.closed_step_of_solid hclosed hc
  obtain ⟨rfl, rfl⟩ := List.cons.inj (hstep.symm.trans hfirst)
  obtain ⟨last, -, hsplit⟩ := Word.split_eq script
  rw [hscript, List.foldl_append, List.foldl_cons, hall, List.reverse_append] at hsplit
  refine ⟨word', after.reverse ++ [last], hsplit.trans (by simp), ?_, ?_⟩
  · rw [hfinish]
    exact (Word.Scan.closed_through front c (by simp [hstep])).1
  · rw [hstart, hoffset, (Word.Scan.tells front).offset]

theorem word?_of_solid (hscript : script.toList = front ++ c :: rest)
    (hblank : ∀ b ∈ front, Text.isBlank b = true) (hc : Text.isBlank c = false) :
    word? script offset = none ↔ offset < Text.bytes front := by
  obtain ⟨word, more, hsplit, hfinish, hstart⟩ := split_of_solid hscript hblank hc
  have hsorted := Word.split_pairwise script
  rw [hsplit] at hsorted
  rw [← hstart]
  rcases Nat.lt_or_ge offset word.start with hlt | hge
  · have hnone : begun script offset = [] := by
      rw [begun, hsplit]
      refine List.filter_eq_nil_iff.2 (List.forall_mem_cons.2 ⟨by simp [hlt], fun next hnext => ?_⟩)
      have hafter := Nat.lt_trans hlt ((List.pairwise_cons.1 hsorted).1 next hnext)
      simp [hafter]
    rw [word?_eq_begun (.inl ⟨word, by simp [hsplit], hfinish, hlt⟩), hnone]
    simp [hlt]
  · have hmem : word ∈ begun script offset := by simp [begun, hsplit, hfinish, hge]
    have hsome : ∃ found, word? script offset = some found := by
      by_cases hlater : (∃ word ∈ Word.split script, word.isFinish = false ∧ offset < word.start) ∨
          Text.endsBlank script.toList = false
      · rw [word?_eq_begun hlater]
        exact ⟨_, List.getLast?_eq_some_getLast (List.ne_nil_of_mem hmem)⟩
      · rw [not_or, Bool.not_eq_false] at hlater
        refine word?_of_blank hlater.2 fun word hword hfinish => Nat.le_of_not_lt fun hlt => ?_
        exact hlater.1 ⟨word, hword, hfinish, hlt⟩
    obtain ⟨found, hfound⟩ := hsome
    simpa [hfound] using hge

theorem word?_eq_none_iff : word? script offset = none ↔
    script = "" ∨ (∃ c ∈ script.toList, Text.isBlank c = false) ∧
      offset < Text.bytes (script.toList.takeWhile Text.isBlank) := by
  have hfront : ∀ b ∈ script.toList.takeWhile Text.isBlank, Text.isBlank b = true :=
    List.all_eq_true.1 List.all_takeWhile
  cases hrest : script.toList.dropWhile Text.isBlank with
  | nil =>
      have hall : ∀ b ∈ script.toList, Text.isBlank b = true := by
        have hwhole := List.takeWhile_append_dropWhile (p := Text.isBlank) (l := script.toList)
        rw [hrest, List.append_nil] at hwhole
        rwa [hwhole] at hfront
      have hsolid : ¬ ∃ c ∈ script.toList, Text.isBlank c = false := by
        rintro ⟨c, hc, hsolid⟩
        simp [hall c hc] at hsolid
      rw [or_iff_left fun h => hsolid h.1]
      have hfinish := split_of_blank hall
      rcases List.eq_nil_or_concat script.toList with hnil | ⟨front, c, hconcat⟩
      · have hnone : begun script offset = [] :=
          List.filter_eq_nil_iff.2 fun word hword => by simp [hfinish word hword]
        rw [word?_eq_begun (.inr (by simp [Text.endsBlank, hnil])), hnone]
        simpa using hnil
      · have hc := hall c (by simp [hconcat])
        obtain ⟨last, hsome⟩ : ∃ last, word? script offset = some last := by
          refine word?_of_blank (by simp [Text.endsBlank, hconcat, hc]) fun word hword hnot => ?_
          simp [hfinish word hword] at hnot
        rw [hsome]
        simp only [reduceCtorEq, false_iff]
        rintro rfl
        simp at hconcat
  | cons c rest =>
      have hscript : script.toList = script.toList.takeWhile Text.isBlank ++ c :: rest := by
        rw [← hrest, List.takeWhile_append_dropWhile]
      have hc : Text.isBlank c = false := by
        have hhead := List.head?_dropWhile_not Text.isBlank script.toList
        simpa [hrest] using hhead
      have hmem : ∃ c ∈ script.toList, Text.isBlank c = false := ⟨c, by rw [hscript]; simp, hc⟩
      have hne : script ≠ "" := by
        rintro rfl
        simp at hmem
      rw [word?_of_solid hscript hfront hc, or_iff_right hne, and_iff_right hmem]

theorem begun_getLast? (script : String) (offset : Nat) : (begun script offset).getLast? =
    (script.toList.foldl Word.Scan.step .begin).closed.find? (·.start ≤ offset) := by
  rw [begun_eq, List.filter_reverse, List.getLast?_reverse, List.head?_filter]

theorem reach_of_closed (front : List Char) (c : Char) {word : Word} {words : List Word}
    (hclosed : ((front.foldl Word.Scan.step .begin).step c).closed = word :: words) :
    Text.bytes front ≤ word.stop + 1 ∨ ∃ before gap, front = before ++ gap ∧
      Text.allBlank gap = true ∧ Text.bytes before = word.stop + 1 := by
  obtain ⟨before, gap, hsplit, hgap, hstop⟩ := Word.Scan.closed_trail (front ++ [c]) word words
    (by rw [List.foldl_append]; exact hclosed)
  rcases Nat.lt_or_ge (word.stop + 1) (Text.bytes front) with hlt | hge
  · have hbefore : before <+: front ++ [c] := hsplit ▸ List.prefix_append _ _
    obtain ⟨between, rfl⟩ := Text.prefix_of_bytes_le hbefore (List.prefix_append _ _) (by omega)
    rw [List.append_assoc, List.append_cancel_left_eq] at hsplit
    rw [← hsplit, Text.allBlank, List.all_append, Bool.and_eq_true] at hgap
    exact .inr ⟨before, between, rfl, hgap.1, hstop⟩
  · exact .inl hge

theorem reach_of_begun (hscript : script.toList = front ++ rest) {word : Word}
    (hword : (begun script (Text.bytes front)).getLast? = some word) :
    Text.bytes front ≤ word.stop + 1 ∨ ∃ before gap, front = before ++ gap ∧
      Text.allBlank gap = true ∧ Text.bytes before = word.stop + 1 := by
  rw [begun_getLast?, hscript, List.foldl_append] at hword
  cases rest with
  | nil =>
      have hordered := Word.Scan.ordered_begin.foldl front
      have htells := Word.Scan.tells front
      rw [List.foldl_nil] at hword
      cases hclosed : (front.foldl Word.Scan.step .begin).closed with
      | nil => simp [hclosed] at hword
      | cons first words =>
          have hbegun := hordered.begun first (by simp [hclosed])
          rw [htells.offset] at hbegun
          rw [hclosed, List.find?_cons_of_pos (by simpa using Nat.le_of_lt hbegun),
            Option.some.injEq] at hword
          exact .inr (Word.Scan.closed_trail front word words (hword ▸ hclosed))
  | cons c rest =>
      obtain ⟨more, hmore, hnone, hsome⟩ :=
        Word.Scan.closed_foldl ((front.foldl Word.Scan.step .begin).step c) rest
      have hpos := c.utf8Size_pos
      rw [Word.Scan.offset_through] at hmore hsome
      have hlater : more.find? (·.start ≤ Text.bytes front) = none := by
        refine List.find?_eq_none.2 fun next hnext => ?_
        have hafter := (hmore next hnext).2
        simp only [decide_eq_true_eq]
        omega
      have hbegun (first : Word)
          (h : first ∈ ((front.foldl Word.Scan.step .begin).step c).closed) :
              first.start ≤ Text.bytes front :=
        (Word.Scan.closed_through front c h).2
      rw [List.foldl_cons] at hword
      rcases hopen : ((front.foldl Word.Scan.step .begin).step c).open? with - | ⟨start, line⟩
      · rw [hnone hopen, List.find?_append, hlater, Option.none_or,
          ← Word.Scan.closed_of_none hopen] at hword
        cases hclosed : ((front.foldl Word.Scan.step .begin).step c).closed with
        | nil => simp [hclosed] at hword
        | cons first words =>
            have hfirst := hbegun first (by simp [hclosed])
            rw [hclosed, List.find?_cons_of_pos (by simpa using hfirst), Option.some.injEq] at hword
            subst hword
            exact reach_of_closed front c hclosed
      · obtain ⟨stop, hstop, hclosed⟩ := hsome start line hopen
        have hunder : start ≤ Text.bytes front :=
          hbegun _ (Word.Scan.closed_of_some hopen ▸ List.mem_cons_self)
        rw [hclosed, List.find?_append, hlater, Option.none_or,
          List.find?_cons_of_pos (by simpa using hunder), Option.some.injEq] at hword
        subst hword
        left
        dsimp only
        omega

end Caret

theorem complete_eq_none_iff {κ ρ : Type} [DecidableEq ρ] (dialect : Dialect κ ρ) (script : String)
    (offset? : Option Nat) : dialect.complete script offset? = none ↔
      script = "" ∨ ∃ offset, offset? = some offset ∧
        (∃ c ∈ script.toList, Text.isBlank c = false) ∧
        offset < Text.bytes (script.toList.takeWhile Text.isBlank) := by
  have hword : dialect.complete script offset? = none ↔
      Caret.word? script (offset?.getD script.utf8ByteSize) = none := by
    rw [Dialect.complete, Option.map_eq_none_iff, Dialect.plan?, Option.map_eq_none_iff]
    exact Option.map_eq_none_iff
  rw [hword, Caret.word?_eq_none_iff]
  cases offset? with
  | some offset => simp
  | none =>
      have hle : Text.bytes (script.toList.takeWhile Text.isBlank) ≤ script.utf8ByteSize := by
        obtain ⟨rest, hrest⟩ := List.takeWhile_prefix (p := Text.isBlank) (l := script.toList)
        have hbytes := congrArg Text.bytes hrest
        rw [Text.bytes_append, Text.bytes_toList] at hbytes
        omega
      simp [Nat.not_lt.2 hle]

namespace Caret

section Tokens

variable {κ : Type} {tokens : List (Token κ)} {offset : Nat}

theorem tokenFrom_spec (hsorted : tokens.Pairwise (·.start < ·.start))
    (hsome : ∃ token ∈ tokens, offset ≤ token.start) :
    tokenFrom tokens offset = tokens.countP (·.start < offset) ∧
      tokenFrom tokens offset < tokens.length ∧
      ∀ token ∈ tokens.drop (tokenFrom tokens offset), offset ≤ token.start := by
  have hsplit : tokens.filter (·.start < offset) ++
      tokens.filter (fun token => !decide (token.start < offset)) =
      tokens := by
    refine filter_append_filter_not (hsorted.imp fun hlt hle => ?_)
    simp only [decide_eq_true_eq] at hle ⊢
    omega
  have hcount := List.countP_eq_length_filter
    (p := fun token : Token κ => decide (token.start < offset)) (l := tokens)
  have hbefore : ∀ token ∈ tokens.filter (·.start < offset), token.start < offset :=
    fun token htoken => by simpa using (List.mem_filter.1 htoken).2
  have hafter : ∀ token ∈ tokens.filter (fun token => !decide (token.start < offset)),
      offset ≤ token.start :=
    fun token htoken => by simpa using (List.mem_filter.1 htoken).2
  have hne : tokens.filter (fun token => !decide (token.start < offset)) ≠ [] := by
    obtain ⟨token, htoken, hle⟩ := hsome
    exact List.ne_nil_of_mem (List.mem_filter.2 ⟨htoken, by simpa using hle⟩)
  generalize tokens.filter (·.start < offset) = before at hsplit hcount hbefore
  generalize tokens.filter (fun token => !decide (token.start < offset)) = after
    at hsplit hafter hne
  obtain ⟨next, more, rfl⟩ := List.exists_cons_of_ne_nil hne
  have hfrom : tokenFrom tokens offset = before.length := by
    have hnone : before.findIdx? (offset ≤ ·.start) = none :=
      List.findIdx?_eq_none_iff.2 fun token htoken => by simpa using hbefore token htoken
    have hnext := hafter next List.mem_cons_self
    rw [tokenFrom, ← hsplit, List.findIdx?_append, hnone]
    simp [List.findIdx?_cons, hnext]
  rw [hfrom, hcount]
  refine ⟨rfl, ?_, ?_⟩
  · rw [← hsplit]
    simp
  · rw [← hsplit, List.drop_left]
    exact hafter

end Tokens

theorem lex_sorted (script : String) : (lex script).tokens.Pairwise (·.start < ·.start) := by
  obtain ⟨tokens, htokens, hspread⟩ := lex_spread script
  rw [htokens]
  refine List.pairwise_append.2 ⟨?_, List.pairwise_singleton _ _, fun token htoken => ?_⟩
  · refine hspread.apart.imp_of_mem fun htoken _ hlt => ?_
    exact Nat.lt_of_le_of_lt (hspread.placed _ htoken).start_le_stop hlt
  · have hplaced := hspread.placed token htoken
    refine List.forall_mem_singleton.2 (Nat.lt_of_le_of_lt hplaced.start_le_stop ?_)
    exact Nat.lt_of_lt_of_eq hplaced.stop_lt (Text.bytes_toList script).symm

theorem exists_token_from {script : String} {offset : Nat} (h : offset ≤ script.utf8ByteSize) :
    ∃ token ∈ (lex (visible offset script)).tokens, offset ≤ token.start := by
  refine ⟨endToken (visible offset script).toList, List.mem_append_right _ List.mem_cons_self, ?_⟩
  rcases visible_cases offset script with heq | ⟨front, c, rest, -, hvisible, -, hlt⟩
  · rw [heq]
    exact Nat.le_trans h (Nat.le_of_eq (Text.bytes_toList script).symm)
  · rw [hvisible]
    simpa [endToken, Token.start] using Nat.le_of_lt hlt

section Boundary

variable {script : String} {front rest : List Char} {word : Word}

theorem exists_start_of_mem (h : word ∈ Word.split script) :
    ∃ begins, begins <+: script.toList ∧ word.start = Text.bytes begins := by
  rcases (Word.mem_split script word).1 h with @⟨i, j, -⟩ | @⟨i, -, -⟩ | -
  · exact ⟨_, List.take_prefix i _, rfl⟩
  · exact ⟨_, List.take_prefix i _, rfl⟩
  · exact ⟨_, List.prefix_rfl, rfl⟩

theorem slice?_of_prefix {before between : List Char}
    (hscript : script.toList = before ++ between ++ rest) :
    Text.slice? (Text.bytes before) (Text.bytes (before ++ between)) script =
      some (String.ofList between) := by
  refine Text.slice?_eq_some_iff.2
    ⟨String.ofList before, String.ofList rest, ?_, Text.bytes_ofList _, ?_⟩
  · rw [← String.toList_inj, hscript]
    simp
  · rw [Text.bytes_ofList, Text.bytes_ofList, Text.bytes_append]

theorem ofWord_of_le {offset : Nat} {typed : String} (hfinish : word.isFinish = false)
    (hle : offset ≤ word.stop + 1) (hslice : Text.slice? word.start offset script = some typed)
    (tokens : List (Token Kind)) :
    ofWord tokens script offset word = ⟨typed, tokenFrom tokens word.start⟩ := by
  have htyped : typedOf word script offset = typed := by
    cases offset with
    | zero =>
        obtain ⟨before, after, -, -, hstop⟩ := Text.slice?_eq_some_iff.1 hslice
        have hempty : before = "" ∧ typed = "" := by simpa using hstop
        simp [typedOf, hempty.2]
    | succ before =>
        have hmin : min word.stop before = before := Nat.min_eq_right (Nat.le_of_succ_le_succ hle)
        simp [typedOf, hfinish, hmin, Span.text, hslice]
  simp [ofWord, isPast, Nat.not_lt.2 hle, htyped, tokenOf, hfinish]

theorem ofWord_of_lt {offset : Nat} {gap : String} (hfinish : word.isFinish = false)
    (hlt : word.stop + 1 < offset) (hslice : Text.slice? (word.stop + 1) offset script = some gap)
    (hgap : Text.allBlank gap.toList = true) (tokens : List (Token Kind)) :
    ofWord tokens script offset word = ⟨"", tokenFrom tokens offset⟩ := by
  simp [ofWord, isPast, hfinish, hlt, hslice, hgap]

theorem exists_typed_of_le (hscript : script.toList = front ++ rest)
    (hmem : word ∈ Word.split script) (hstart : word.start ≤ Text.bytes front) :
    ∃ typed, Text.slice? word.start (Text.bytes front) script = some typed := by
  obtain ⟨begins, hprefix, hbegins⟩ := exists_start_of_mem hmem
  obtain ⟨typed, hfront⟩ := Text.prefix_of_bytes_le hprefix (hscript ▸ List.prefix_append _ _)
    (hbegins ▸ hstart)
  rw [hbegins, ← hfront]
  exact ⟨_, slice?_of_prefix (hfront ▸ hscript)⟩

theorem exists_gap_of_lt (hscript : script.toList = front ++ rest)
    (hlast : (begun script (Text.bytes front)).getLast? = some word)
    (hlt : word.stop + 1 < Text.bytes front) :
    ∃ gap, Text.slice? (word.stop + 1) (Text.bytes front) script = some gap ∧
      Text.allBlank gap.toList = true := by
  obtain ⟨before, gap, hfront, hblank, hstop⟩ :=
    (reach_of_begun hscript hlast).resolve_left (Nat.not_le.2 hlt)
  refine ⟨String.ofList gap, ?_, by rwa [String.toList_ofList]⟩
  rw [← hstop, hfront]
  exact slice?_of_prefix (hfront ▸ hscript)

end Boundary

end Caret

theorem plan?_at_boundary (front rest : String) (plan : Plan Kind Rule)
    (hreach : (∃ word ∈ Word.split (front ++ rest), word.isFinish = false ∧
      front.utf8ByteSize < word.start) ∨
      Text.endsBlank (front ++ rest).toList = false)
    (hplan : Dialect.generic.plan? (front ++ rest) (some front.utf8ByteSize) = some plan) :
    let script := front ++ rest
    let offset := front.utf8ByteSize
    let words := Word.split script
    let visible := Caret.visible offset script
    let tokens := (Dialect.generic.lex visible).tokens
    ∃ (word : Word) (caret : Nat),
      (words.filter fun word => !word.isFinish && word.start ≤ offset).getLast? = some word ∧
      (Caret.wordIndex? words script offset).bind (words[·]?) = some word ∧
      plan.requests =
        [⟨.tables, visible, tokens, caret, Rule.ofTables, Dialect.generic.ignored⟩,
          ⟨.columns, visible, tokens, caret, Rule.ofColumns, Dialect.generic.ignored⟩] ∧
      caret < tokens.length ∧
      (offset ≤ word.stop + 1 →
        Text.slice? word.start offset script = some plan.typed ∧
        caret = tokens.countP (·.start < word.start) ∧
        ∀ token ∈ tokens.drop caret, word.start ≤ token.start) ∧
      (word.stop + 1 < offset →
        (∃ gap, Text.slice? (word.stop + 1) offset script = some gap ∧
          Text.allBlank gap.toList = true) ∧
        plan.typed = "" ∧ caret = tokens.countP (·.start < offset) ∧
        ∀ token ∈ tokens.drop caret, offset ≤ token.start) := by
  intro script offset words visible tokens
  obtain ⟨caret, hcaret, rfl⟩ := Option.map_eq_some_iff.1 hplan
  obtain ⟨word, hword, rfl⟩ := Option.map_eq_some_iff.1 ((Caret.place?_eq _ _ _).symm.trans hcaret)
  have hscript : script.toList = front.toList ++ rest.toList := String.toList_append
  have hoffset : Text.bytes front.toList = offset := Text.bytes_toList front
  have hlast : (Caret.begun script offset).getLast? = some word :=
    (Caret.word?_eq_begun hreach).symm.trans hword
  obtain ⟨hmem, hbegun⟩ := List.mem_filter.1 (List.mem_of_getLast? hlast)
  simp only [Bool.and_eq_true, Bool.not_eq_true', decide_eq_true_eq] at hbegun
  have hsorted : tokens.Pairwise (·.start < ·.start) := Caret.lex_sorted visible
  obtain ⟨token, htoken, hfrom⟩ : ∃ token ∈ tokens, offset ≤ token.start :=
    Caret.exists_token_from (by simp [script, offset])
  have hrequests {caret : Caret} (hplaced : Caret.ofWord tokens script offset word = caret) :
      [.tables, .columns].map (Dialect.generic.request visible tokens
        (Caret.ofWord tokens script offset word).token) =
      [⟨.tables, visible, tokens, caret.token, Rule.ofTables, Dialect.generic.ignored⟩,
        ⟨.columns, visible, tokens, caret.token, Rule.ofColumns, Dialect.generic.ignored⟩] := by
    rw [hplaced]
    rfl
  rcases Nat.lt_or_ge (word.stop + 1) offset with hlt | hle
  · obtain ⟨gap, hslice, hgap⟩ := Caret.exists_gap_of_lt hscript (hoffset ▸ hlast) (hoffset ▸ hlt)
    rw [hoffset] at hslice
    have hplaced := Caret.ofWord_of_lt hbegun.1 hlt hslice hgap tokens
    obtain ⟨hcount, hlength, hafter⟩ := Caret.tokenFrom_spec hsorted ⟨token, htoken, hfrom⟩
    exact ⟨word, Caret.tokenFrom tokens offset, hlast, hword, hrequests hplaced, hlength,
      fun hle => absurd hlt (Nat.not_lt.2 hle),
      fun _ => ⟨⟨gap, hslice, hgap⟩, congrArg Caret.typed hplaced, hcount, hafter⟩⟩
  · obtain ⟨typed, hslice⟩ := Caret.exists_typed_of_le hscript hmem (hoffset ▸ hbegun.2)
    rw [hoffset] at hslice
    have hplaced := Caret.ofWord_of_le hbegun.1 hle hslice tokens
    obtain ⟨hcount, hlength, hafter⟩ :=
      Caret.tokenFrom_spec hsorted ⟨token, htoken, Nat.le_trans hbegun.2 hfrom⟩
    exact ⟨word, Caret.tokenFrom tokens word.start, hlast, hword, hrequests hplaced, hlength,
      fun _ => ⟨hslice.trans (congrArg (some ·.typed) hplaced.symm), hcount, hafter⟩,
      fun hlt => absurd hlt (Nat.not_lt.2 hle)⟩

theorem plan?_at_boundary_in_keyword :
    let script := "SELECT 'é' FR" ++ "OM t"
    let visible := Caret.visible 14 script
    let tokens := (Dialect.generic.lex visible).tokens
    ∃ plan, Dialect.generic.plan? script (some "SELECT 'é' FR".utf8ByteSize) = some plan ∧
      plan.typed = "FR" ∧
      plan.requests =
        [⟨.tables, visible, tokens, 2, Rule.ofTables, Dialect.generic.ignored⟩,
          ⟨.columns, visible, tokens, 2, Rule.ofColumns, Dialect.generic.ignored⟩] := by
  intro script visible tokens
  obtain ⟨plan, hplan⟩ := Option.isSome_iff_exists.1
    (by decide +kernel : (Dialect.generic.plan? script (some 14)).isSome = true)
  obtain ⟨word, caret, hlast, -, hrequests, -, hword, -⟩ :=
    plan?_at_boundary "SELECT 'é' FR" "OM t" plan (.inr (by decide +kernel)) hplan
  obtain rfl : word = ⟨.run, 12, 15, 1⟩ := Option.some.inj (hlast.symm.trans (by decide +kernel))
  obtain ⟨htyped, hcaret, -⟩ := hword (by decide)
  refine ⟨plan, hplan, Option.some.inj (htyped.symm.trans (by decide +kernel)), ?_⟩
  obtain rfl : caret = 2 := hcaret.trans (by decide +kernel)
  exact hrequests

end SqlAtlas

import SqlAtlas.Caret

namespace SqlAtlas

namespace Text

theorem covering_idem (n : Nat) (cs : List Char) : covering n (covering n cs) = covering n cs := by
  induction cs generalizing n with
  | nil => simp
  | cons c cs ih =>
      cases n with
      | zero => simp
      | succ n => simp [ih]

theorem covering_cases (n : Nat) (cs : List Char) :
    covering (n + 1) cs = cs ∨ ∃ front c rest, cs = front ++ c :: rest ∧
      covering (n + 1) cs = front ++ [c] ∧ bytes front ≤ n ∧ n < bytes front + c.utf8Size := by
  induction cs generalizing n with
  | nil => simp
  | cons c cs ih =>
      rw [covering_succ_cons]
      rcases Nat.lt_or_ge n c.utf8Size with hlt | hge
      · refine .inr ⟨[], c, cs, rfl, ?_, Nat.zero_le _, by simpa using hlt⟩
        rw [Nat.sub_eq_zero_of_le hlt, covering_zero, List.nil_append]
      · rw [Nat.succ_sub hge]
        rcases ih (n - c.utf8Size) with hall | ⟨front, d, rest, rfl, hcovering, hfront, hlt⟩
        · exact .inl (by rw [hall])
        · refine .inr ⟨c :: front, d, rest, rfl, by rw [hcovering]; rfl, ?_, ?_⟩
          · simp only [bytes_cons]
            omega
          · simp only [bytes_cons]
            omega

end Text

namespace Word

def quotes (previous : Option Char) : List Char → Nat
  | [] => 0
  | c :: cs => (if c = '\'' ∧ previous ≠ some '\\' then 1 else 0) + quotes (some c) cs

/-- A scan for words in one go: the words found, the last of them first, then where it stands, and
the start and line of the word that is under way. -/
structure Scan where
  found : List Word
  previous : Option Char
  quoted : Bool
  offset : Nat
  line : Nat
  open? : Option (Nat × Nat)
  deriving DecidableEq, Repr

namespace Scan

def begin : Scan := ⟨[], none, false, 0, 1, none⟩

def closed (scan : Scan) : List Word :=
  match scan.open? with
  | some (start, line) => ⟨.run, start, scan.offset - 1, line⟩ :: scan.found
  | none => scan.found

def parted (scan : Scan) (c : Char) : List Word :=
  if c = ';' then ⟨.terminator, scan.offset, scan.offset, scan.line⟩ :: scan.closed else scan.closed

def step (scan : Scan) (c : Char) : Scan :=
  let quoted := quotedAfter scan.previous scan.quoted c
  let offset := scan.offset + c.utf8Size
  let line := scan.line + Text.lineFeeds [c]
  if inWord quoted c then
    ⟨scan.found, some c, quoted, offset, line, scan.open?.or (some (scan.offset, scan.line))⟩
  else ⟨scan.parted c, some c, quoted, offset, line, none⟩

def finish (scan : Scan) : List Word :=
  (⟨.finish, scan.offset, scan.offset, scan.line⟩ :: scan.closed).reverse

theorem foldl_keeps (P : List Char → Scan → Prop) (hbegin : P [] begin)
    (hstep : ∀ cs c, P cs (cs.foldl step begin) → P (cs ++ [c]) ((cs.foldl step begin).step c))
    (cs : List Char) : P cs (cs.foldl step begin) := by
  have hrest (front rest : List Char) (h : P front (front.foldl step begin)) :
      P (front ++ rest) ((front ++ rest).foldl step begin) := by
    induction rest generalizing front with
    | nil => rwa [List.append_nil]
    | cons c rest ih =>
        have hnext := ih (front ++ [c]) (by
          rw [List.foldl_append]
          exact hstep front c h)
        rwa [List.append_assoc] at hnext
  exact hrest [] cs hbegin

theorem offset_step (scan : Scan) (c : Char) : (scan.step c).offset = scan.offset + c.utf8Size := by
  simp only [step]
  split <;> rfl

theorem offset_foldl (scan : Scan) (cs : List Char) :
    (cs.foldl step scan).offset = scan.offset + Text.bytes cs := by
  induction cs generalizing scan with
  | nil => rfl
  | cons c cs ih => rw [List.foldl_cons, ih, offset_step, Text.bytes_cons, Nat.add_assoc]

theorem previous_step (scan : Scan) (c : Char) : (scan.step c).previous = some c := by
  simp only [step]
  split <;> rfl

theorem quoted_step (scan : Scan) (c : Char) :
    (scan.step c).quoted = quotedAfter scan.previous scan.quoted c := by
  simp only [step]
  split <;> rfl

theorem quoted_foldl (cs : List Char) (scan : Scan) :
    (cs.foldl step scan).quoted = (scan.quoted ^^ decide (quotes scan.previous cs % 2 = 1)) := by
  induction cs generalizing scan with
  | nil => simp [quotes]
  | cons c cs ih =>
      rw [List.foldl_cons, ih, quoted_step, previous_step, quotes, quotedAfter]
      have hodd : decide ((1 + quotes (some c) cs) % 2 = 1) =
          !decide (quotes (some c) cs % 2 = 1) := by
        rw [← decide_not, decide_eq_decide]
        omega
      split
      · rw [hodd, Bool.not_xor, Bool.xor_not]
      · rw [Nat.zero_add]

theorem step_cases (scan : Scan) (c : Char) :
    ((scan.step c).found = scan.found ∧
      (scan.step c).open? = scan.open?.or (some (scan.offset, scan.line))) ∨
    ((Text.isBlank c = true ∨ c = ';') ∧ (scan.step c).found = scan.parted c ∧
      (scan.step c).open? = none) := by
  simp only [step]
  split
  · exact .inl ⟨rfl, rfl⟩
  · next hout =>
      refine .inr ⟨?_, rfl, rfl⟩
      simp only [inWord, Bool.or_eq_true, Bool.not_eq_true', not_or, beq_iff_eq,
        Bool.not_eq_false] at hout
      exact hout.2

theorem closed_of_none {scan : Scan} (h : scan.open? = none) : scan.closed = scan.found := by
  simp [closed, h]

theorem closed_of_some {scan : Scan} {start line : Nat} (h : scan.open? = some (start, line)) :
    scan.closed = ⟨.run, start, scan.offset - 1, line⟩ :: scan.found := by
  simp [closed, h]

theorem mem_parted {scan : Scan} {c : Char} {word : Word} (h : word ∈ scan.parted c) :
    word ∈ scan.closed ∨ word = ⟨.terminator, scan.offset, scan.offset, scan.line⟩ := by
  unfold parted at h
  split at h
  · exact (List.mem_cons.1 h).symm
  · exact .inl h

theorem closed_step (scan : Scan) (c : Char)
    (h : ∀ word ∈ scan.closed, word.isFinish = false ∧ word.start ≤ scan.offset) {word : Word}
    (hword : word ∈ (scan.step c).closed) : word.isFinish = false ∧ word.start ≤ scan.offset := by
  rcases step_cases scan c with ⟨hfound, hopen⟩ | ⟨-, hfound, hopen⟩
  · cases hscan : scan.open? with
    | none =>
        rw [hscan, Option.none_or] at hopen
        rw [closed_of_some hopen, hfound, ← closed_of_none hscan] at hword
        rcases List.mem_cons.1 hword with rfl | hword
        · exact ⟨rfl, Nat.le_refl _⟩
        · exact h word hword
    | some under =>
        rw [hscan, Option.some_or] at hopen
        rw [closed_of_some hopen, hfound] at hword
        rw [closed_of_some hscan] at h
        rcases List.mem_cons.1 hword with rfl | hword
        · exact ⟨rfl, (h _ List.mem_cons_self).2⟩
        · exact h word (List.mem_cons_of_mem _ hword)
  · rw [closed_of_none hopen, hfound] at hword
    rcases mem_parted hword with hword | rfl
    · exact h word hword
    · exact ⟨rfl, Nat.le_refl _⟩

theorem closed_run (cs : List Char) (scan : Scan)
    (h : ∀ word ∈ scan.closed, word.isFinish = false ∧ word.start ≤ scan.offset) :
    ∀ word ∈ (cs.foldl step scan).closed,
      word.isFinish = false ∧ word.start ≤ (cs.foldl step scan).offset := by
  induction cs generalizing scan with
  | nil => exact h
  | cons c cs ih =>
      refine ih (scan.step c) fun word hword => ?_
      obtain ⟨hfinish, hstart⟩ := closed_step scan c h hword
      refine ⟨hfinish, Nat.le_trans hstart ?_⟩
      rw [offset_step]
      exact Nat.le_add_right _ _

theorem offset_through (front : List Char) (c : Char) :
    ((front.foldl step begin).step c).offset = Text.bytes front + c.utf8Size := by
  rw [offset_step, offset_foldl]
  exact congrArg (· + c.utf8Size) (Nat.zero_add _)

theorem closed_through (front : List Char) (c : Char) {word : Word}
    (hword : word ∈ ((front.foldl step begin).step c).closed) :
    word.isFinish = false ∧ word.start ≤ Text.bytes front := by
  have hoffset : (front.foldl step begin).offset = Text.bytes front := by
    rw [offset_foldl]
    exact Nat.zero_add _
  rw [← hoffset]
  exact closed_step _ c (closed_run front begin (by simp [closed, begin])) hword

theorem closed_foldl (scan : Scan) (rest : List Char) :
    ∃ more : List Word, (∀ word ∈ more, word.isFinish = false ∧ scan.offset ≤ word.start) ∧
      (scan.open? = none → (rest.foldl step scan).closed = more ++ scan.found) ∧
      ∀ start line, scan.open? = some (start, line) → ∃ stop, scan.offset ≤ stop + 1 ∧
        (rest.foldl step scan).closed = more ++ ⟨.run, start, stop, line⟩ :: scan.found := by
  induction rest generalizing scan with
  | nil =>
      refine ⟨[], by simp, closed_of_none, fun start line hopen => ⟨scan.offset - 1, by omega, ?_⟩⟩
      exact closed_of_some hopen
  | cons c rest ih =>
      obtain ⟨more, hmore, hnone, hsome⟩ := ih (scan.step c)
      have hle : scan.offset ≤ (scan.step c).offset := by
        rw [offset_step]
        exact Nat.le_add_right _ _
      have hlater : ∀ word ∈ more, word.isFinish = false ∧ scan.offset ≤ word.start :=
        fun word hword => ⟨(hmore word hword).1, Nat.le_trans hle (hmore word hword).2⟩
      rw [List.foldl_cons]
      rcases step_cases scan c with ⟨hfound, hopen⟩ | ⟨-, hfound, hopen⟩
      · cases hscan : scan.open? with
        | none =>
            rw [hscan, Option.none_or] at hopen
            obtain ⟨stop, -, hclosed⟩ := hsome _ _ hopen
            refine ⟨more ++ [⟨.run, scan.offset, stop, scan.line⟩], ?_, fun _ => ?_, by simp⟩
            · intro word hword
              rcases List.mem_append.1 hword with hword | hword
              · exact hlater word hword
              · rw [List.mem_singleton.1 hword]
                exact ⟨rfl, Nat.le_refl _⟩
            · rw [hclosed, hfound, List.append_assoc]
              rfl
        | some under =>
            rw [hscan, Option.some_or] at hopen
            refine ⟨more, hlater, by simp, fun start line hunder => ?_⟩
            rw [hunder] at hopen
            obtain ⟨stop, hstop, hclosed⟩ := hsome start line hopen
            exact ⟨stop, Nat.le_trans hle hstop, by rw [hclosed, hfound]⟩
      · obtain ⟨ends, hends, hparted⟩ : ∃ ends : List Word,
            (∀ word ∈ ends, word.isFinish = false ∧ scan.offset ≤ word.start) ∧
              scan.parted c = ends ++ scan.closed := by
          unfold parted
          split
          · exact ⟨[⟨.terminator, scan.offset, scan.offset, scan.line⟩], by simp [isFinish], rfl⟩
          · exact ⟨[], by simp, rfl⟩
        have hclosed := hnone hopen
        rw [hfound, hparted, ← List.append_assoc] at hclosed
        refine ⟨more ++ ends, ?_, fun hscan => ?_, fun start line hscan => ?_⟩
        · intro word hword
          exact (List.mem_append.1 hword).elim (hlater word) (hends word)
        · rw [hclosed, closed_of_none hscan]
        · exact ⟨scan.offset - 1, by omega, by rw [hclosed, closed_of_some hscan]⟩

theorem closed_of_solid (scan : Scan) {c : Char} (hc : Text.isBlank c = false) (rest : List Char) :
    ∃ (word word' : Word) (before after : List Word),
      (scan.step c).closed = word :: before ∧
      (rest.foldl step (scan.step c)).closed = after ++ word' :: before ∧
      word'.start = word.start ∧ word'.isFinish = word.isFinish ∧
      (scan.step c).offset ≤ word.stop + 1 ∧ (scan.step c).offset ≤ word'.stop + 1 ∧
      ∀ next ∈ after, next.isFinish = false ∧ (scan.step c).offset ≤ next.start := by
  obtain ⟨more, hmore, hnone, hsome⟩ := closed_foldl (scan.step c) rest
  cases hopen : (scan.step c).open? with
  | some under =>
      obtain ⟨stop, hstop, hclosed⟩ := hsome under.1 under.2 hopen
      exact ⟨_, _, _, more, closed_of_some hopen, hclosed, rfl, rfl, by dsimp only; omega,
        hstop, hmore⟩
  | none =>
      have hsemicolon : c = ';' ∧ (scan.step c).found = scan.parted c := by
        rcases step_cases scan c with ⟨-, hunder⟩ | ⟨hc' | hc', hfound, -⟩
        · rw [hopen] at hunder
          cases hscan : scan.open? <;> simp [hscan] at hunder
        · rw [hc] at hc'
          cases hc'
        · exact ⟨hc', hfound⟩
      have hfound : (scan.step c).found =
          ⟨.terminator, scan.offset, scan.offset, scan.line⟩ :: scan.closed := by
        rw [hsemicolon.2, parted, if_pos hsemicolon.1]
      have hoffset : (scan.step c).offset = scan.offset + 1 := by
        rw [offset_step, hsemicolon.1]
        rfl
      exact ⟨_, _, _, more, (closed_of_none hopen).trans hfound, hfound ▸ hnone hopen, rfl, rfl,
        Nat.le_of_eq hoffset, Nat.le_of_eq hoffset, hmore⟩

def ofPlace (place : Place) (open? : Option (Nat × Nat)) : Scan :=
  ⟨[], place.previous, place.quoted, place.offset, place.line, open?⟩

def atop (words : List Word) (scan : Scan) : Scan := { scan with found := scan.found ++ words }

theorem closed_atop (words : List Word) (scan : Scan) :
    (scan.atop words).closed = scan.closed ++ words := by
  simp only [closed, atop]
  cases scan.open? <;> rfl

theorem step_atop (words : List Word) (scan : Scan) (c : Char) :
    (scan.atop words).step c = (scan.step c).atop words := by
  have hparted : (scan.atop words).parted c = scan.parted c ++ words := by
    simp only [parted, closed_atop]
    split <;> rfl
  simp only [step, hparted]
  cases hin : inWord (quotedAfter scan.previous scan.quoted c) c <;> simp [atop, hin]

theorem finish_foldl_atop (words : List Word) (scan : Scan) (cs : List Char) :
    (cs.foldl step (scan.atop words)).finish = words.reverse ++ (cs.foldl step scan).finish := by
  induction cs generalizing scan with
  | nil =>
      rw [List.foldl_nil, List.foldl_nil, finish, closed_atop, ← List.cons_append,
        List.reverse_append]
      rfl
  | cons c cs ih => rw [List.foldl_cons, List.foldl_cons, step_atop, ih]

theorem length_closed_step (scan : Scan) (c : Char) :
    (scan.step c).closed.length ≤ scan.closed.length + 1 := by
  have hsome (under : Nat × Nat) (hopen : scan.open? = some under) :
      scan.closed.length = scan.found.length + 1 := by
    rw [closed_of_some hopen, List.length_cons]
  rcases step_cases scan c with ⟨hfound, hopen⟩ | ⟨-, hfound, hopen⟩
  · cases hscan : scan.open? with
    | none =>
        rw [hscan, Option.none_or] at hopen
        rw [closed_of_some hopen, hfound, closed_of_none hscan]
        exact Nat.le_refl _
    | some under =>
        rw [hscan, Option.some_or] at hopen
        rw [closed_of_some hopen, hfound, hsome under hscan, List.length_cons]
        exact Nat.le_succ _
  · rw [closed_of_none hopen, hfound, parted]
    split
    · exact Nat.le_refl _
    · exact Nat.le_succ _

theorem length_closed_foldl (scan : Scan) (cs : List Char) :
    (cs.foldl step scan).closed.length ≤ scan.closed.length + cs.length := by
  induction cs generalizing scan with
  | nil => exact Nat.le_refl _
  | cons c cs ih =>
      have hfirst := length_closed_step scan c
      have hmore := ih (scan.step c)
      rw [List.foldl_cons, List.length_cons]
      omega

end Scan

theorem Place.quotedBy_of_parting {place : Place} {c : Char}
    (h : inWord (place.quotedBy c) c = false) :
    place.quotedBy c = place.quoted := by
  unfold quotedBy quotedAfter at h ⊢
  split
  · next hquote =>
      rw [hquote.1] at h
      simp [inWord, Text.isBlank, Text.blankRanges] at h
  · rfl

namespace Place

variable {place : Place} {c : Char} {cs : List Char} {open? : Option (Nat × Nat)}

theorem seek_of_inWord (h : inWord (place.quotedBy c) c = true) :
    place.seek open? (c :: cs) =
      (place.pass c).seek (open?.or (some (place.offset, place.line))) cs :=
  if_pos h

theorem seek_of_parting (h : inWord (place.quotedBy c) c = false) (start line : Nat) :
    place.seek (some (start, line)) (c :: cs) =
      (⟨.run, start, place.offset - 1, line⟩, place, c :: cs) := by
  have hseek : place.seek (some (start, line)) (c :: cs) =
      (⟨.run, start, place.offset - 1, line⟩, { place with quoted := place.quotedBy c }, c :: cs) :=
    if_neg (Bool.eq_false_iff.1 h)
  rw [hseek, quotedBy_of_parting h]

theorem seek_of_apart (h : inWord (place.quotedBy c) c = false) :
    place.seek none (c :: cs) =
      if c = ';' then (⟨.terminator, place.offset, place.offset, place.line⟩, place.pass c, cs)
      else (place.pass c).seek none cs :=
  if_neg (Bool.eq_false_iff.1 h)

theorem seek_spec (place : Place) (open? : Option (Nat × Nat)) (cs : List Char) :
    (cs.foldl Scan.step (.ofPlace place open?)).finish =
      (place.seek open? cs).1 :: (if (place.seek open? cs).1.isFinish then []
        else ((place.seek open? cs).2.2.foldl Scan.step
          (.ofPlace (place.seek open? cs).2.1 none)).finish) := by
  induction cs generalizing place open? with
  | nil => rcases open? with - | ⟨start, line⟩ <;> rfl
  | cons c cs ih =>
      rw [List.foldl_cons]
      cases hin : inWord (place.quotedBy c) c with
      | true =>
          have hstep : Scan.step (.ofPlace place open?) c =
              .ofPlace (place.pass c) (open?.or (some (place.offset, place.line))) := if_pos hin
          rw [hstep, ih, seek_of_inWord hin]
      | false =>
          have hstep (open? : Option (Nat × Nat)) : Scan.step (.ofPlace place open?) c =
              (Scan.ofPlace (place.pass c) none).atop ((Scan.ofPlace place open?).parted c) :=
            if_neg (Bool.eq_false_iff.1 hin)
          rcases open? with - | ⟨start, line⟩
          · rw [hstep, Scan.finish_foldl_atop, seek_of_apart hin, Scan.parted]
            split
            · rfl
            · exact ih _ _
          · rw [seek_of_parting hin, List.foldl_cons, hstep, hstep, Scan.finish_foldl_atop,
              Scan.finish_foldl_atop, Scan.parted, Scan.parted]
            split <;> rfl

end Place

namespace Supply

def left (supply : Supply) : List Word :=
  if supply.finished then []
    else (supply.unread.foldl Scan.step (.ofPlace supply.place none)).finish

theorem next_spec (supply : Supply) :
    supply.next.1 = supply.left.head? ∧ supply.next.2.left = supply.left.tail := by
  unfold next left
  cases hfinished : supply.finished with
  | true => simp [hfinished]
  | false =>
      simp only [Bool.false_eq_true, if_false]
      rw [Place.seek_spec]
      exact ⟨rfl, rfl⟩

theorem take_spec (count : Nat) (supply : Supply) :
    (supply.take count).1 = supply.left.take count := by
  induction count generalizing supply with
  | zero => rfl
  | succ count ih =>
      obtain ⟨hhead, htail⟩ := next_spec supply
      unfold take
      split
      · next hnext =>
          rw [hnext] at hhead
          rw [List.head?_eq_none_iff.1 hhead.symm, List.take_nil]
      · next word after hnext =>
          rw [hnext] at hhead htail
          obtain ⟨words, hwords⟩ := List.head?_eq_some_iff.1 hhead.symm
          rw [hwords, List.tail_cons] at htail
          rw [hwords, List.take_succ_cons, ← htail, ← ih]

theorem length_left_le (supply : Supply) : supply.left.length ≤ supply.unread.length + 1 := by
  unfold left
  split
  · exact Nat.zero_le _
  · have hlength := Scan.length_closed_foldl (.ofPlace supply.place none) supply.unread
    simpa [Scan.finish, Scan.ofPlace, Scan.closed] using hlength

theorem rest_spec (supply : Supply) : supply.rest.1 = supply.left := by
  rw [rest, take_spec, List.take_of_length_le (length_left_le supply)]

end Supply

theorem split_eq_finish (script : String) :
    split script = (script.toList.foldl Scan.step Scan.begin).finish :=
  Supply.rest_spec (.ofScript script)

theorem split_eq (script : String) : ∃ last : Word, last.isFinish = true ∧
    split script = (script.toList.foldl Scan.step Scan.begin).closed.reverse ++ [last] :=
  ⟨_, rfl, (split_eq_finish script).trans List.reverse_cons⟩

end Word

namespace Caret

variable {script : String} {offset : Nat} {words more : List Word} {last next : Word}

def word? (script : String) (offset : Nat) : Option Word :=
  (wordIndex? (Word.split script) script offset).bind ((Word.split script)[·]?)

theorem findIdx?_of_begun (hwords : ∀ word ∈ words, word.isFinish = false ∧ word.start ≤ offset) :
    words.findIdx? (fun word => !word.isFinish && offset < word.start) = none := by
  rw [List.findIdx?_eq_none_iff]
  intro word hword
  simpa [(hwords word hword).1] using (hwords word hword).2

theorem word?_of_last (hsplit : Word.split script = words ++ [last]) (hlast : last.isFinish = true)
    (hwords : ∀ word ∈ words, word.isFinish = false ∧ word.start ≤ offset) :
    word? script offset = if Text.endsBlank script.toList then some last else words.getLast? := by
  have hnone : (words ++ [last]).findIdx? (fun word => !word.isFinish && offset < word.start) =
      none := by
    rw [List.findIdx?_append, findIdx?_of_begun hwords]
    simp [hlast]
  rw [word?, hsplit, wordIndex?, hnone]
  cases Text.endsBlank script.toList with
  | true =>
      have hfinish : (words ++ [last]).findIdx? Word.isFinish = some words.length := by
        rw [List.findIdx?_append, List.findIdx?_eq_none_iff.2 fun word hword =>
          (hwords word hword).1]
        simp [hlast]
      simp [hfinish]
  | false =>
      cases hreverse : words.reverse with
      | nil => simp [lastIdx?, hlast, List.reverse_eq_nil_iff.1 hreverse]
      | cons word before =>
          have hword := hwords word (List.mem_reverse.1 (hreverse ▸ List.mem_cons_self))
          have hpos : words.length - 1 < words.length := by
            have hlength := congrArg List.length hreverse
            simp only [List.length_reverse, List.length_cons] at hlength
            omega
          have hindex : lastIdx? (!·.isFinish) (words ++ [last]) = some (words.length - 1) := by
            simp [lastIdx?, hreverse, hlast, hword.1, List.findIdx?_cons]
          simp only [hindex, Bool.false_eq_true, if_false, Option.bind_some,
            List.getLast?_eq_getElem?]
          exact List.getElem?_append_left hpos

theorem word?_of_next (hsplit : Word.split script = words ++ next :: more)
    (hnext : next.isFinish = false ∧ offset < next.start)
    (hwords : ∀ word ∈ words, word.isFinish = false ∧ word.start ≤ offset) :
    word? script offset = words.getLast? := by
  have hindex : (words ++ next :: more).findIdx?
      (fun word => !word.isFinish && offset < word.start) =
      some words.length := by
    rw [List.findIdx?_append, findIdx?_of_begun hwords]
    simp [List.findIdx?_cons, hnext]
  rw [word?, hsplit, wordIndex?, hindex, List.getLast?_eq_getElem?]
  cases hlength : words.length with
  | zero => simp [List.eq_nil_of_length_eq_zero hlength]
  | succ index =>
      have hlt : index < words.length := by omega
      simp [List.getElem?_append_left hlt]

end Caret

end SqlAtlas

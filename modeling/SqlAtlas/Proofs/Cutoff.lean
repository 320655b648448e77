import SqlAtlas.Completion
import SqlAtlas.Proofs.TokenSpans
import SqlAtlas.Proofs.WordScan

namespace SqlAtlas

namespace Text

theorem prefix_of_bytes_le {cs ds text : List Char} (hcs : cs <+: text) (hds : ds <+: text)
    (h : bytes cs ≤ bytes ds) : cs <+: ds := by
  rcases List.prefix_or_prefix_of_prefix hcs hds with hprefix | ⟨more, rfl⟩
  · exact hprefix
  · have hmore : bytes more = 0 := by
      rw [bytes_append] at h
      omega
    simp [bytes_eq_zero_iff.1 hmore]

theorem slice?_append_of_le {first stop : Nat} {front : String} (h : stop ≤ front.utf8ByteSize)
    (rest : String) : slice? first stop (front ++ rest) = slice? first stop front := by
  refine Option.ext fun part => ?_
  rw [slice?_eq_some_iff, slice?_eq_some_iff]
  constructor
  · rintro ⟨before, after, heq, hfirst, hstop⟩
    have hpart : before.toList ++ part.toList <+: (front ++ rest).toList := by
      rw [heq, String.toList_append, String.toList_append]
      exact List.prefix_append _ _
    have hfront : front.toList <+: (front ++ rest).toList := by
      rw [String.toList_append]
      exact List.prefix_append _ _
    obtain ⟨more, hmore⟩ := prefix_of_bytes_le hpart hfront (by
      rw [bytes_append, bytes_toList, bytes_toList, bytes_toList]
      omega)
    refine ⟨before, String.ofList more, ?_, hfirst, hstop⟩
    rw [← String.toList_inj, String.toList_append, String.toList_append,
      String.toList_ofList, hmore]
  · rintro ⟨before, after, rfl, hfirst, hstop⟩
    exact ⟨before, after ++ rest, by rw [String.append_assoc], hfirst, hstop⟩

theorem stop_of_slice? {first stop : Nat} {script part : String} {front rest : List Char} {c : Char}
    (hscript : script.toList = front ++ c :: rest) (h : slice? first stop script = some part)
    (hle : bytes front ≤ stop) (hlt : stop < bytes front + c.utf8Size) : stop = bytes front := by
  obtain ⟨before, after, heq, hfirst, hstop⟩ := slice?_eq_some_iff.1 h
  have hsplit : front ++ c :: rest = before.toList ++ part.toList ++ after.toList := by
    rw [← hscript, heq, String.toList_append, String.toList_append]
  have hbytes : bytes (before.toList ++ part.toList) = stop := by
    rw [bytes_append, bytes_toList, bytes_toList, hstop]
  have hpart : before.toList ++ part.toList <+: front ++ c :: rest := by
    rw [hsplit]
    exact List.prefix_append _ _
  obtain ⟨more, hmore⟩ := prefix_of_bytes_le (List.prefix_append _ _) hpart (hbytes ▸ hle)
  cases more with
  | nil =>
      rw [← hbytes, ← hmore, List.append_nil]
  | cons d more =>
      rw [← hmore, List.append_assoc, List.append_cancel_left_eq, List.cons_append] at hsplit
      have hd := (List.cons.inj hsplit).1
      rw [← hmore, bytes_append, bytes_cons] at hbytes
      subst hd
      omega

end Text

namespace Lexeme

theorem symbol?_of_blank {c : Char} (hc : Text.isBlank c = true) (cs : List Char) :
    symbol? c cs = none := by
  unfold symbol?
  split
  all_goals first | rfl | exact absurd hc (by decide)

theorem ascii_of_isAlphanum {c : Char} (h : c.isAlphanum = true) :
    48 ≤ c.toNat ∧ c.toNat ≤ 122 := by
  change ((decide ('A'.val ≤ c.val ∧ c.val ≤ 'Z'.val) ||
    decide ('a'.val ≤ c.val) && decide (c.val ≤ 'z'.val)) ||
      decide ('0'.val ≤ c.val) && decide (c.val ≤ '9'.val)) = true at h
  simp only [Bool.or_eq_true, Bool.and_eq_true, decide_eq_true_eq, UInt32.le_iff_toNat_le] at h
  change ((65 ≤ c.toNat ∧ c.toNat ≤ 90) ∨ (97 ≤ c.toNat ∧ c.toNat ≤ 122)) ∨
    (48 ≤ c.toNat ∧ c.toNat ≤ 57) at h
  omega

theorem isAlphanum_of_blank {c : Char} (hc : Text.isBlank c = true) : c.isAlphanum = false := by
  cases hword : c.isAlphanum with
  | false => rfl
  | true =>
      have hascii := ascii_of_isAlphanum hword
      simp only [Text.isBlank, Text.blankRanges, List.any_cons, List.any_nil, Bool.or_eq_true,
        Bool.and_eq_true, decide_eq_true_eq, Bool.or_false] at hc
      omega

theorem kind?_first_of_blank {c : Char} (hc : Text.isBlank c = true) (cs : List Char) :
    (first c cs).kind? = none := by
  have hne (d : Char) (hd : Text.isBlank d = false) : c ≠ d := by
    rintro rfl
    rw [hc] at hd
    cases hd
  have hword := isAlphanum_of_blank hc
  rw [Char.isAlphanum, Bool.or_eq_false_iff] at hword
  have hform : (measure c cs).1 = .layout ∨ (measure c cs).1 = .unknown := by
    unfold measure
    split
    · exact .inl rfl
    · right
      simp [hne '-' (by decide), hne '/' (by decide), hne '\'' (by decide), hne 'N' (by decide),
        hne 'n' (by decide), hne '[' (by decide), hne '"' (by decide), hne '_' (by decide),
        hne '@' (by decide), hne '#' (by decide), hword, isWordStart, symbol?_of_blank hc]
  rcases hform with hform | hform <;> simp [first, kind?, hform]

theorem kind?_of_blank {cs : List Char} {lexeme : Lexeme} (h : lexeme ∈ cut cs) {c : Char}
    (hhead : lexeme.text.head? = some c) (hc : Text.isBlank c = true) : lexeme.kind? = none := by
  induction cs using cut_induction with
  | nil => simp at h
  | cons d cs ih =>
      rw [cut_cons] at h
      rcases List.mem_cons.1 h with rfl | h
      · obtain rfl : d = c := by simpa [first] using hhead
        exact kind?_first_of_blank hc cs
      · exact ih h

end Lexeme

theorem Token.start_lt_of_blank {script : String} {front : List Char} {c : Char}
    (hscript : script.toList = front ++ [c]) (hc : Text.isBlank c = true) {token : Token Kind}
    (htoken : token ∈ (Lexeme.locate 1 0 (Lexeme.cut script.toList)).filterMap Lexeme.token?) :
    token.start < Text.bytes front := by
  obtain ⟨located, hmem, hsome⟩ := List.mem_filterMap.1 htoken
  obtain ⟨kind, hkind, rfl⟩ := Option.map_eq_some_iff.1 hsome
  obtain ⟨hlexeme, hlocated⟩ := Lexeme.located_cut hmem
  obtain ⟨d, text, htext⟩ := List.exists_cons_of_ne_nil (Lexeme.text_ne_nil_of_mem_cut hlexeme)
  have hslice : Text.slice? located.2.start (located.2.stop + 1) script =
      some (String.ofList (d :: text)) := by
    have hspan := hlocated.text
    rw [String.ofList_toList, Span.text, htext] at hspan
    cases hpart : Text.slice? located.2.start (located.2.stop + 1) script with
    | none => simp [hpart, ← String.toList_inj] at hspan
    | some part => simpa [hpart] using hspan
  obtain ⟨before, after, heq, hfirst, -⟩ := Text.slice?_eq_some_iff.1 hslice
  have hsplit : front ++ [c] = before.toList ++ (d :: text ++ after.toList) := by
    rw [← hscript, heq, String.toList_append, String.toList_append, String.toList_ofList,
      List.append_assoc]
  refine Nat.lt_of_not_le fun hle => ?_
  have hbefore : before.toList <+: front ++ [c] := by
    rw [hsplit]
    exact List.prefix_append _ _
  obtain ⟨more, hmore⟩ := Text.prefix_of_bytes_le (List.prefix_append _ _) hbefore (by
    rw [Text.bytes_toList, hfirst]
    exact hle)
  rw [← hmore, List.append_assoc, List.append_cancel_left_eq] at hsplit
  have hd : d = c := by
    cases more with
    | nil => exact (List.cons.inj hsplit).1.symm
    | cons e more => simp at hsplit
  have hnone := Lexeme.kind?_of_blank hlexeme (by rw [htext]; rfl) (hd ▸ hc)
  rw [hkind] at hnone
  cases hnone

namespace Caret

variable {script : String} {offset : Nat} {front rest : List Char} {c : Char}

def startsWord (script : String) (offset : Nat) : Bool :=
  (word? script offset).any fun word => word.isFinish || isPast word script offset

theorem visible_idem (offset : Nat) (script : String) :
    visible offset (visible offset script) = visible offset script := by
  rw [visible, visible, String.toList_ofList, Text.covering_idem]

theorem visible_cases (offset : Nat) (script : String) :
    visible offset script = script ∨ ∃ front c rest, script.toList = front ++ c :: rest ∧
      (visible offset script).toList = front ++ [c] ∧ Text.bytes front ≤ offset ∧
      offset < Text.bytes front + c.utf8Size := by
  rcases Text.covering_cases offset script.toList with hall | hsome
  · exact .inl (by rw [visible, hall, String.ofList_toList])
  · rw [visible, String.toList_ofList]
    exact .inr hsome

theorem place?_eq (tokens : List (Token Kind)) (script : String) (offset : Nat) :
    place? tokens script offset = (word? script offset).map (ofWord tokens script offset) := rfl

theorem ofWord_of_finish (tokens : List (Token Kind)) {word : Word} (h : word.isFinish = true) :
    ofWord tokens script offset word = ⟨"", tokens.length - 1⟩ := by
  simp [ofWord, isPast, typedOf, tokenOf, h]

theorem tokenFrom_of_blank (hscript : script.toList = front ++ [c]) (hc : Text.isBlank c = true) :
    tokenFrom (lex script).tokens (Text.bytes front) = (lex script).tokens.length - 1 := by
  have hnone : ((Lexeme.locate 1 0 (Lexeme.cut script.toList)).filterMap Lexeme.token?).findIdx?
      (Text.bytes front ≤ ·.start) = none := by
    rw [List.findIdx?_eq_none_iff]
    intro token htoken
    simpa using Token.start_lt_of_blank hscript hc htoken
  have hend : Text.bytes front ≤ (endToken script.toList).start := by
    simp [Token.start, endToken, hscript]
  simp only [tokenFrom, lex]
  rw [List.findIdx?_append, hnone]
  simp [hend]

theorem isPast_of_le {word : Word} (h : offset ≤ word.stop) :
    isPast word script offset = false := by
  have hnot : ¬ word.stop + 1 < offset := by omega
  simp [isPast, hnot]

section Through

variable (hscript : script.toList = front ++ c :: rest)
  (hvisible : (visible offset script).toList = front ++ [c])
  (hfront : Text.bytes front ≤ offset) (hlt : offset < Text.bytes front + c.utf8Size)
include hvisible hfront

theorem word?_visible : ∃ last : Word, last.isFinish = true ∧ word? (visible offset script) offset =
    if Text.isBlank c then some last
    else ((front.foldl Word.Scan.step .begin).step c).closed.head? := by
  obtain ⟨last, hlast, hsplit⟩ := Word.split_eq (visible offset script)
  rw [hvisible, List.foldl_append, List.foldl_cons, List.foldl_nil] at hsplit
  refine ⟨last, hlast, ?_⟩
  rw [word?_of_last hsplit hlast, hvisible, List.getLast?_reverse]
  · simp [Text.endsBlank]
  · intro word hword
    obtain ⟨hfinish, hstart⟩ := Word.Scan.closed_through front c (List.mem_reverse.1 hword)
    exact ⟨hfinish, Nat.le_trans hstart hfront⟩

include hscript hlt

theorem place?_visible_of_blank (hc : Text.isBlank c = true)
    (hstarts : startsWord script offset = true) :
    place? (lex (visible offset script)).tokens (visible offset script) offset =
      place? (lex (visible offset script)).tokens script offset := by
  obtain ⟨last, hlast, hend⟩ := word?_visible hvisible hfront
  obtain ⟨word, hword, hnew⟩ := (Option.any_eq_true _ _).1 hstarts
  rw [place?_eq, place?_eq, hend, if_pos hc, hword, Option.map_some, Option.map_some,
    ofWord_of_finish _ hlast]
  cases hfinish : word.isFinish with
  | true => rw [ofWord_of_finish _ hfinish]
  | false =>
      rw [hfinish, Bool.false_or] at hnew
      have hoffset : offset = Text.bytes front := by
        simp only [isPast, Bool.and_eq_true] at hnew
        obtain ⟨part, hpart, -⟩ := (Option.any_eq_true _ _).1 hnew.2
        exact Text.stop_of_slice? hscript hpart hfront hlt
      have htoken := tokenFrom_of_blank hvisible hc
      rw [← hoffset] at htoken
      rw [ofWord, if_pos hnew, htoken]

theorem ofWord_visible (tokens : List (Token Kind)) {word word' : Word}
    (hstart : word'.start = word.start) (hfinish : word.isFinish = false)
    (hfinish' : word'.isFinish = false) (hstop : offset ≤ word.stop)
    (hstop' : offset ≤ word'.stop) :
    ofWord tokens (visible offset script) offset word = ofWord tokens script offset word' := by
  have hsplit : script = visible offset script ++ String.ofList rest := by
    rw [← String.toList_inj, String.toList_append, hvisible, String.toList_ofList, hscript]
    simp
  have htyped : typedOf word (visible offset script) offset = typedOf word' script offset := by
    cases offset with
    | zero => simp [typedOf]
    | succ before =>
        have hbytes : before + 1 ≤ (visible (before + 1) script).utf8ByteSize := by
          rw [← Text.bytes_toList, hvisible]
          simp only [Text.bytes_append, Text.bytes_cons, Text.bytes_nil]
          omega
        have hslice : Text.slice? word.start (before + 1) script =
            Text.slice? word.start (before + 1) (visible (before + 1) script) := by
          rw [← Text.slice?_append_of_le hbytes (String.ofList rest), ← hsplit]
        have hmin (word : Word) (h : before + 1 ≤ word.stop) : min word.stop before = before :=
          Nat.min_eq_right (Nat.le_of_succ_le h)
        simp [typedOf, hfinish, hfinish', hmin _ hstop, hmin _ hstop', Span.text, hstart, hslice]
  simp [ofWord, isPast_of_le hstop, isPast_of_le hstop', htyped, tokenOf, hfinish, hfinish', hstart]

theorem place?_visible_of_solid (hc : Text.isBlank c = false)
    (hstarts : startsWord script offset = false) (tokens : List (Token Kind)) :
    place? tokens (visible offset script) offset = place? tokens script offset := by
  obtain ⟨last, hlast, hend⟩ := word?_visible hvisible hfront
  obtain ⟨word, word', before, after, hclosed, hmore, hstart, hfinish, hstop, hstop', hafter⟩ :=
    Word.Scan.closed_of_solid (front.foldl Word.Scan.step .begin) hc rest
  rw [Word.Scan.offset_through] at hstop hstop' hafter
  have hbegun : ∀ begun ∈ word :: before, begun.isFinish = false ∧ begun.start ≤ offset := by
    intro begun hmem
    rw [← hclosed] at hmem
    have hbegun := Word.Scan.closed_through front c hmem
    exact ⟨hbegun.1, Nat.le_trans hbegun.2 hfront⟩
  have hsolid := hbegun word List.mem_cons_self
  have hwords : ∀ begun ∈ before.reverse ++ [word'], begun.isFinish = false ∧
      begun.start ≤ offset := by
    intro begun hmem
    rcases List.mem_append.1 hmem with hmem | hmem
    · exact hbegun begun (List.mem_cons_of_mem _ (List.mem_reverse.1 hmem))
    · rw [List.mem_singleton.1 hmem, hfinish, hstart]
      exact hsolid
  have hword : word? script offset = some word' := by
    obtain ⟨last', hlast', hsplit⟩ := Word.split_eq script
    rw [hscript, List.foldl_append, List.foldl_cons, hmore, List.reverse_append, List.reverse_cons,
      List.append_assoc] at hsplit
    cases hlater : after.reverse with
    | nil =>
        rw [hlater, List.nil_append] at hsplit
        have hcase := word?_of_last hsplit hlast' hwords
        cases hblank : Text.endsBlank script.toList with
        | true =>
            rw [hblank, if_pos rfl] at hcase
            simp [startsWord, hcase, hlast'] at hstarts
        | false => simpa [hblank] using hcase
    | cons next more =>
        rw [hlater, List.cons_append] at hsplit
        have hnext := hafter next (List.mem_reverse.1 (hlater ▸ List.mem_cons_self))
        rw [word?_of_next hsplit ⟨hnext.1, Nat.lt_of_lt_of_le hlt hnext.2⟩ hwords]
        simp
  have hshown : word? (visible offset script) offset = some word := by
    rw [hend, hc]
    simp [hclosed]
  rw [place?_eq, place?_eq, hword, hshown, Option.map_some, Option.map_some,
    ofWord_visible hscript hvisible hfront hlt tokens hstart hsolid.1 (hfinish.trans hsolid.1)
      (by omega) (by omega)]

end Through

theorem startsWord_visible (hvisible : (visible offset script).toList = front ++ [c])
    (hfront : Text.bytes front ≤ offset) (hlt : offset < Text.bytes front + c.utf8Size) :
    startsWord (visible offset script) offset = Text.isBlank c := by
  obtain ⟨last, hlast, hend⟩ := word?_visible hvisible hfront
  cases hc : Text.isBlank c with
  | true => simp [startsWord, hend, hc, hlast]
  | false =>
      obtain ⟨word, -, before, -, hclosed, -, -, -, hstop, -⟩ :=
        Word.Scan.closed_of_solid (front.foldl Word.Scan.step .begin) hc []
      rw [Word.Scan.offset_through] at hstop
      have hfinish := (Word.Scan.closed_through front c (hclosed ▸ List.mem_cons_self)).1
      have hpast : isPast word (visible offset script) offset = false := isPast_of_le (by omega)
      simp [startsWord, hend, hc, hclosed, hfinish, hpast]

theorem place?_visible (script : String) (offset : Nat)
    (h : startsWord script offset = startsWord (visible offset script) offset) :
    place? (lex (visible offset script)).tokens (visible offset script) offset =
      place? (lex (visible offset script)).tokens script offset := by
  rcases visible_cases offset script with heq | ⟨front, c, rest, hscript, hvisible, hfront, hlt⟩
  · rw [heq]
  · rw [startsWord_visible hvisible hfront hlt] at h
    cases hc : Text.isBlank c with
    | true => exact place?_visible_of_blank hscript hvisible hfront hlt hc (h.trans hc)
    | false => exact place?_visible_of_solid hscript hvisible hfront hlt hc (h.trans hc) _

end Caret

theorem complete_visible (script : String) (offset : Nat)
    (h : Caret.startsWord script offset = Caret.startsWord (Caret.visible offset script) offset) :
    Dialect.generic.complete (Caret.visible offset script) (some offset) =
      Dialect.generic.complete script (some offset) := by
  have hplan : Dialect.generic.plan? (Caret.visible offset script) (some offset) =
      Dialect.generic.plan? script (some offset) := by
    simp only [Dialect.plan?, Option.getD_some, Caret.visible_idem]
    exact congrArg (Option.map _) (Caret.place?_visible script offset h)
  rw [Dialect.complete, hplan, Dialect.complete]

theorem complete_visible_from :
    Caret.startsWord "SELECT a FROM t" 11 =
      Caret.startsWord (Caret.visible 11 "SELECT a FROM t") 11 ∧
      Dialect.generic.complete (Caret.visible 11 "SELECT a FROM t") (some 11) =
        Dialect.generic.complete "SELECT a FROM t" (some 11) := by
  have hstarts : Caret.startsWord "SELECT a FROM t" 11 =
      Caret.startsWord (Caret.visible 11 "SELECT a FROM t") 11 := by decide +kernel
  exact ⟨hstarts, complete_visible _ _ hstarts⟩

theorem not_complete_visible : ¬ ∀ script offset options options',
    Dialect.generic.complete script (some offset) = some options →
    Dialect.generic.complete (Caret.visible offset script) (some offset) = some options' →
      options = options' := by
  intro h
  have hword : Dialect.generic.complete "SELECT a" (some 6) = some [.keyword "SELECT"] := by
    decide +kernel
  have hblank : Dialect.generic.complete (Caret.visible 6 "SELECT a") (some 6) =
      some [.keyword "ALL", .keyword "DISTINCT", .keyword "TOP", .keyword "*", .keyword "NOT",
        .keyword "+", .keyword "-", .keyword "NULL", .keyword "CASE", .keyword "EXISTS(",
        .column] := by
    decide +kernel
  exact absurd (h _ _ _ _ hword hblank) (by decide)

end SqlAtlas

import SqlAtlas.Lexeme

namespace SqlAtlas

theorem Text.slice?_of_lt {first stop : Nat} {text : String} (h : text.utf8ByteSize < stop) :
    slice? first stop text = none := by
  cases hslice : slice? first stop text with
  | none => rfl
  | some part =>
      obtain ⟨front, rest, rfl, -, hstop⟩ := slice?_eq_some_iff.1 hslice
      simp only [String.utf8ByteSize_append] at h
      omega

namespace Lexeme

theorem symbol?_ne_eof {c : Char} {cs : List Char} {kind : Kind} {more : Nat}
    (h : symbol? c cs = some (kind, more)) : kind ≠ .eof := by
  unfold symbol? at h
  split at h <;> cases h <;> decide

theorem measure_ne_eof (c : Char) (cs : List Char) : (measure c cs).1 ≠ .symbol .eof := by
  have hdelimited (form : Bool → Form) (reach : Option Nat) (cs : List Char)
      (hform : ∀ closed, form closed ≠ .symbol .eof) :
          (delimited form reach cs).1 ≠ .symbol .eof := by
    unfold delimited
    split <;> exact hform _
  unfold measure
  split
  · simp
  split
  · simp
  split
  · exact hdelimited _ _ _ (by simp)
  split
  · exact hdelimited _ _ _ (by simp)
  split
  · exact hdelimited _ _ _ (by simp)
  split
  · exact hdelimited _ _ _ (by simp)
  split
  · exact hdelimited _ _ _ (by simp)
  split
  · simp
  split
  · simp
  split
  · next kind more hsymbol =>
      intro heq
      exact symbol?_ne_eof hsymbol (Form.symbol.inj heq)
  · simp

theorem wordKind_ne_eof (text : List Char) : wordKind text ≠ .eof := by
  unfold wordKind
  split <;> simp

theorem kind?_ne_eof {lexeme : Lexeme} {cs : List Char} (h : lexeme ∈ cut cs) :
    lexeme.kind? ≠ some .eof := by
  induction cs using cut_induction with
  | nil => simp at h
  | cons c cs ih =>
      rw [cut_cons] at h
      rcases List.mem_cons.1 h with rfl | h
      · have hform := measure_ne_eof c cs
        unfold kind?
        split
        · simp
        · simp
        · simp
        · simpa using wordKind_ne_eof _
        · next kind hkind =>
            intro heq
            cases heq
            exact hform hkind
        all_goals simp
      · exact ih h

structure Located (script : List Char) (located : Lexeme × Span) : Prop where
  start_le_stop : located.2.start ≤ located.2.stop
  stop_lt : located.2.stop < Text.bytes script
  text : located.2.text (String.ofList script) = String.ofList located.1.text

theorem locate_starts (line offset : Nat) (lexemes : List Lexeme) {located : Lexeme × Span}
    (h : located ∈ locate line offset lexemes) : offset ≤ located.2.start := by
  induction lexemes generalizing line offset with
  | nil => cases h
  | cons lexeme lexemes ih =>
      rw [locate_cons] at h
      rcases List.mem_cons.1 h with rfl | h
      · exact Nat.le_refl _
      · exact Nat.le_trans (Nat.le_add_right _ _) (ih _ _ h)

theorem map_fst_locate (line offset : Nat) (lexemes : List Lexeme) :
    (locate line offset lexemes).map Prod.fst = lexemes := by
  induction lexemes generalizing line offset with
  | nil => rfl
  | cons lexeme lexemes ih => rw [locate_cons, List.map_cons, ih]

theorem bytes_pos {text : List Char} (h : text ≠ []) : 0 < Text.bytes text :=
  Nat.pos_of_ne_zero fun hzero => h (Text.bytes_eq_zero_iff.1 hzero)

theorem locate_pairwise (line offset : Nat) (lexemes : List Lexeme)
    (hne : ∀ lexeme ∈ lexemes, lexeme.text ≠ []) :
    (locate line offset lexemes).Pairwise fun a b => a.2.stop < b.2.start := by
  induction lexemes generalizing line offset with
  | nil => exact .nil
  | cons lexeme lexemes ih =>
      rw [locate_cons]
      refine .cons (fun next hnext => ?_)
        (ih _ _ fun lexeme h => hne lexeme (List.mem_cons_of_mem _ h))
      have hstart := locate_starts _ _ _ hnext
      have hpos := bytes_pos (hne lexeme List.mem_cons_self)
      simp only [spanAt]
      omega

theorem locate_located (line : Nat) (front : List Char) (lexemes : List Lexeme)
    (hne : ∀ lexeme ∈ lexemes, lexeme.text ≠ []) {located : Lexeme × Span}
    (h : located ∈ locate line (Text.bytes front) lexemes) :
    Located (front ++ (lexemes.map text).flatten) located := by
  induction lexemes generalizing line front with
  | nil => cases h
  | cons lexeme lexemes ih =>
      rw [locate_cons] at h
      rcases List.mem_cons.1 h with rfl | h
      · have hpos := bytes_pos (hne lexeme List.mem_cons_self)
        have hstop : Text.bytes front + Text.bytes lexeme.text - 1 + 1 =
            Text.bytes front + Text.bytes lexeme.text := by omega
        refine ⟨?_, ?_, ?_⟩
        · simp only [spanAt]
          omega
        · simp only [spanAt, List.map_cons, List.flatten_cons, Text.bytes_append]
          omega
        · simp only [Span.text, spanAt, hstop]
          have hslice := Text.slice?_append (String.ofList front) (String.ofList lexeme.text)
            (String.ofList (lexemes.map text).flatten)
          rw [Text.bytes_ofList, Text.bytes_ofList] at hslice
          simp only [List.map_cons, List.flatten_cons, String.ofList_append, ← String.append_assoc]
          rw [hslice]
          rfl
      · have hrest := ih (line + Text.lineFeeds lexeme.text) (front ++ lexeme.text)
          (fun lexeme h => hne lexeme (List.mem_cons_of_mem _ h))
          (by rw [Text.bytes_append]; exact h)
        rw [List.append_assoc] at hrest
        exact hrest

theorem located_cut {script : List Char} {located : Lexeme × Span}
    (h : located ∈ locate 1 0 (cut script)) : located.1 ∈ cut script ∧ Located script located := by
  have hlexeme := List.mem_map_of_mem (f := Prod.fst) h
  have hlocated := locate_located 1 [] (cut script) (fun lexeme h => text_ne_nil_of_mem_cut h) h
  rw [map_fst_locate] at hlexeme
  rw [List.nil_append, flatten_cut] at hlocated
  exact ⟨hlexeme, hlocated⟩

end Lexeme

structure Token.Placed (script : String) (token : Token Kind) : Prop where
  plain : token.kind ≠ .eof
  start_le_stop : token.span.start ≤ token.span.stop
  stop_lt : token.span.stop < script.utf8ByteSize
  worded : token.text script ≠ ""

structure Token.Spread (script : String) (tokens : List (Token Kind)) : Prop where
  placed : ∀ token ∈ tokens, token.Placed script
  apart : tokens.Pairwise fun token next => token.span.stop < next.span.start

theorem Lexeme.placed {script : String} {located : Lexeme × Span} {token : Token Kind}
    (hmem : located ∈ locate 1 0 (cut script.toList)) (htoken : token? located = some token) :
    token.Placed script := by
  obtain ⟨kind, hkind, rfl⟩ := Option.map_eq_some_iff.1 htoken
  obtain ⟨hlexeme, hlocated⟩ := located_cut hmem
  refine ⟨fun heof => kind?_ne_eof hlexeme (heof ▸ hkind), hlocated.start_le_stop, ?_, ?_⟩
  · rw [← Text.bytes_toList]
    exact hlocated.stop_lt
  · have htext := hlocated.text
    rw [String.ofList_toList] at htext
    rw [Token.text, htext]
    intro hempty
    exact text_ne_nil_of_mem_cut hlexeme (by simpa using congrArg String.toList hempty)

theorem lex_spread (script : String) :
    ∃ tokens, (lex script).tokens = tokens ++ [endToken script.toList] ∧
      Token.Spread script tokens := by
  refine ⟨(Lexeme.locate 1 0 (Lexeme.cut script.toList)).filterMap Lexeme.token?, rfl, ?_, ?_⟩
  · intro token htoken
    obtain ⟨located, hmem, hsome⟩ := List.mem_filterMap.1 htoken
    exact Lexeme.placed hmem hsome
  · have hapart := Lexeme.locate_pairwise 1 0 (Lexeme.cut script.toList)
      (fun lexeme h => Lexeme.text_ne_nil_of_mem_cut h)
    refine List.Pairwise.filterMap _ (fun located next hlt token htoken other hother => ?_) hapart
    obtain ⟨_, _, rfl⟩ := Option.map_eq_some_iff.1 htoken
    obtain ⟨_, _, rfl⟩ := Option.map_eq_some_iff.1 hother
    exact hlt

theorem text_endToken (script : String) : (endToken script.toList).text script = "" := by
  have hnone : Text.slice? (Text.bytes script.toList)
      (Text.bytes script.toList + 1) script = none :=
    Text.slice?_of_lt (by rw [Text.bytes_toList]; exact Nat.lt_succ_self _)
  simp [Token.text, Span.text, endToken, hnone]

end SqlAtlas

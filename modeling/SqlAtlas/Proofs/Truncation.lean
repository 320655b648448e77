import SqlAtlas.Proofs.TypedText

namespace SqlAtlas

namespace Lexeme

theorem Stops.of_append {accepts : Char → Bool} {more back : List Char}
    (h : Stops accepts (more ++ back)) : Stops accepts more := by
  intro c hc
  obtain ⟨more, rfl⟩ := List.head?_eq_some_iff.1 hc
  exact h c rfl

theorem Fraction.of_append {fraction more back : List Char} (h : Fraction fraction (more ++ back)) :
    Fraction fraction more := by
  cases h with
  | none hstops hdot =>
      exact .none hstops.of_append fun d hd => hdot d (hd.trans (List.prefix_append more back))
  | some hne hdigits hstops => exact .some hne hdigits hstops.of_append

theorem Spelled.of_append {form : Form} {text more back : List Char}
    (h : Spelled form text (more ++ back)) : Spelled form text more := by
  have hbegins (front : List Char) {pattern : List Char} (hpattern : pattern <+: front ++ more) :
      pattern <+: front ++ (more ++ back) :=
    hpattern.trans ((List.prefix_append_right_inj front).2 (List.prefix_append more back))
  generalize hrest : more ++ back = rest at h hbegins
  have hmore (hnil : rest = []) : more = [] := (List.append_eq_nil_iff.1 (hrest.trans hnil)).1
  cases h with
  | layout hc => exact .layout hc
  | lineComment hbody hstops =>
      subst hrest
      exact .lineComment hbody hstops.of_append
  | blockComment hbody => exact .blockComment hbody
  | openComment hbody => exact hmore rfl ▸ .openComment hbody
  | string hmark hbody hstops =>
      subst hrest
      exact .string hmark hbody hstops.of_append
  | openString hmark hbody => exact hmore rfl ▸ .openString hmark hbody
  | name hmark hbody => exact .name hmark hbody
  | openName hmark hbody => exact hmore rfl ▸ .openName hmark hbody
  | number hne hwhole hfraction =>
      subst hrest
      exact .number hne hwhole hfraction.of_append
  | word hc hbody hstops hmarks =>
      subst hrest
      exact .word hc hbody hstops.of_append fun mark hmark hbegun =>
        hmarks mark hmark (hbegins (_ :: _) hbegun)
  | symbol hmem hlongest hline hblock =>
      exact .symbol hmem (fun other hother hbegun => hlongest other hother (hbegins _ hbegun))
        (fun hbegun => hline (hbegins _ hbegun)) (fun hbegun => hblock (hbegins _ hbegun))
  | @unknown c _ hlayout hmarks hdigit hword hsymbols =>
      exact .unknown hlayout hmarks hdigit hword fun symbol hsymbol hbegun =>
        hsymbols symbol hsymbol (hbegins [c] hbegun)

theorem Spelled.alone {form : Form} {text rest : List Char} (h : Spelled form text rest) :
    Spelled form text [] :=
  Spelled.of_append h

section Fragments

variable {form : Form} {text rest part : List Char}

theorem prefix_append_cases (front : List Char) {back : List Char} (h : part <+: front ++ back) :
    part <+: front ∨ ∃ inner, part = front ++ inner ∧ inner <+: back := by
  rcases List.prefix_or_prefix_of_prefix h (List.prefix_append front back)
    with hbegun | ⟨inner, rfl⟩
  · exact .inl hbegun
  · exact .inr ⟨inner, rfl, (List.prefix_append_right_inj front).1 h⟩

theorem length_cut_le (cs : List Char) : (cut cs).length ≤ cs.length := by
  induction cs using cut_induction with
  | nil => simp
  | cons c cs ih =>
      rw [cut_cons, List.length_cons, List.length_cons]
      exact Nat.succ_le_succ (Nat.le_trans ih (length_rest_le c cs))

theorem length_cut_of_spelled (h : Spelled form text []) : (cut text).length = 1 := by
  have hcut := cut_of_spelled h
  rw [List.append_nil, cut_nil] at hcut
  rw [hcut, List.length_singleton]

theorem Doubled.of_cons {c : Char} {cs : List Char} (h : Doubled (c :: cs)) (hc : c ≠ '\'') :
    Doubled cs := by
  cases h with
  | plain _ hcs => exact hcs
  | pair _ => exact absurd rfl hc

theorem Doubled.next_quote {body rest : List Char} {c : Char} (hbody : Doubled body)
    (h : Doubled (body ++ '\'' :: c :: rest)) : c = '\'' := by
  induction hbody with
  | nil =>
      cases h with
      | plain hne _ => exact absurd rfl hne
      | pair _ => rfl
  | plain hne _ ih => exact ih (h.of_cons hne)
  | pair _ ih =>
      cases h with
      | plain hne _ => exact absurd rfl hne
      | pair hmore => exact ih hmore

theorem length_cut_of_string {mark body : List Char} (hmark : mark ∈ stringMarks)
    (hbody : Doubled body) (hpart : part <+: mark ++ body) : (cut part).length ≤ 2 := by
  have hshort : ∀ mark ∈ stringMarks, mark.length ≤ 2 := by decide
  rcases prefix_append_cases mark hpart with hbegun | ⟨inner, rfl, later, hlater⟩
  · exact Nat.le_trans (length_cut_le part) (Nat.le_trans hbegun.length_le (hshort mark hmark))
  · rcases split_doubled inner with hopen | ⟨closed, more, rfl, hclosed, hstops⟩
    · rw [length_cut_of_spelled (.openString hmark hopen)]
      decide
    · cases more with
      | nil =>
          rw [← List.append_assoc, length_cut_of_spelled (.string hmark hclosed (by simp [Stops]))]
          decide
      | cons c more =>
          rw [← hlater, List.append_assoc] at hbody
          have hquote := hclosed.next_quote hbody
          simpa [hquote] using hstops c rfl

theorem length_cut_of_number {whole fraction : List Char} (hne : whole ≠ [])
    (hwhole : ∀ d ∈ whole, d.isDigit = true) (hfraction : Fraction fraction rest)
    (hpart : part <+: whole ++ fraction) : (cut part).length ≤ 2 := by
  have hdigits {digits : List Char} (hdigits : digits <+: whole) (hsome : digits ≠ []) :
      Spelled .number digits [] := by
    rw [← List.append_nil digits]
    exact .number hsome (fun d hd => hwhole d (hdigits.subset hd))
      (.none (by simp [Stops]) (by simp))
  rcases prefix_append_cases whole hpart with hbegun | ⟨tail, rfl, htail⟩
  · by_cases hnil : part = []
    · simp [hnil]
    · rw [length_cut_of_spelled (hdigits hbegun hnil)]
      decide
  · cases tail with
    | nil =>
        rw [List.append_nil, length_cut_of_spelled (hdigits List.prefix_rfl hne)]
        decide
    | cons dot digits =>
        cases hfraction with
        | none _ _ => simp at htail
        | some _ hall _ =>
            obtain ⟨rfl, hdigits⟩ := List.cons_prefix_cons.1 htail
            by_cases hnil : digits = []
            · -- The point stays behind and makes a lexeme of its own.
              have hspelled : Spelled .number (whole ++ []) ['.'] :=
                .number hne hwhole (.none (by simp [Stops]) (by simp))
              rw [List.append_nil] at hspelled
              rw [hnil, cut_of_spelled hspelled, List.length_cons]
              exact Nat.succ_le_succ (length_cut_le ['.'])
            · have hspelled : Spelled .number (whole ++ '.' :: digits) [] :=
                .number hne hwhole (.some hnil (fun d hd => hall d (hdigits.subset hd))
                  (by simp [Stops]))
              rw [length_cut_of_spelled hspelled]
              decide

theorem length_cut_of_fragment (h : Spelled form text rest) (hpart : part <+: text) :
    (cut part).length ≤ 2 := by
  have hone {form : Form} {part : List Char} (h : Spelled form part []) :
      (cut part).length ≤ 2 := by
    rw [length_cut_of_spelled h]
    decide
  have hshort {text part : List Char} (hpart : part <+: text) (htext : text.length ≤ 2) :
      (cut part).length ≤ 2 :=
    Nat.le_trans (length_cut_le part) (Nat.le_trans hpart.length_le htext)
  have hwhole := h.alone
  cases h with
  | layout _ | unknown _ _ _ _ _ => exact hshort hpart (by simp)
  | symbol hmem _ _ _ =>
      have hlength := length_of_mem_symbols hmem
      exact hshort hpart (by simp only at hlength; omega)
  | @lineComment body _ hbody _ =>
      rcases prefix_append_cases ['-', '-'] hpart with hbegun | ⟨inner, rfl, hinner⟩
      · exact hshort hbegun (by simp)
      · exact hone (.lineComment (fun hmem => hbody (hinner.subset hmem)) (by simp [Stops]))
  | @blockComment body _ hbody =>
      rcases prefix_append_cases ['/', '*'] hpart with hbegun | ⟨inner, rfl, hinner⟩
      · exact hshort hbegun (by simp)
      · have hclosed : body ++ ['*', '/'] = body ++ ['*'] ++ ['/'] := by simp
        rw [List.append_eq, hclosed] at hinner
        rcases List.prefix_concat_iff.1 hinner with rfl | hinner
        · rw [← hclosed]
          exact hone hwhole
        · exact hone (.openComment fun hclosed => hbody (hclosed.trans hinner.isInfix))
  | @openComment body hbody =>
      rcases prefix_append_cases ['/', '*'] hpart with hbegun | ⟨inner, rfl, hinner⟩
      · exact hshort hbegun (by simp)
      · exact hone (.openComment fun hclosed => hbody (hclosed.trans hinner.isInfix))
  | string hmark hbody _ =>
      rcases List.prefix_concat_iff.1 hpart with rfl | hpart
      · exact hone hwhole
      · exact length_cut_of_string hmark hbody hpart
  | openString hmark hbody => exact length_cut_of_string hmark hbody hpart
  | @name first last body _ hmark hbody =>
      rw [← List.cons_append] at hpart
      rcases List.prefix_concat_iff.1 hpart with rfl | hpart
      · exact hone hwhole
      · cases part with
        | nil => simp
        | cons c inner =>
            obtain ⟨rfl, hinner⟩ := List.cons_prefix_cons.1 hpart
            exact hone (.openName hmark fun hmem => hbody (hinner.subset hmem))
  | openName hmark hbody =>
      cases part with
      | nil => simp
      | cons c inner =>
          obtain ⟨rfl, hinner⟩ := List.cons_prefix_cons.1 hpart
          exact hone (.openName hmark fun hmem => hbody (hinner.subset hmem))
  | number hne hdigits hfraction => exact length_cut_of_number hne hdigits hfraction hpart
  | word hc hbody hstops hmarks =>
      cases part with
      | nil => simp
      | cons c inner =>
          obtain ⟨rfl, hinner⟩ := List.cons_prefix_cons.1 hpart
          exact hone (hwhole.of_begun hinner)

end Fragments

theorem exists_break (front back : List Char) :
    ∃ before after part, cut (front ++ back) = before ++ after ∧ cut front = before ++ cut part ∧
      (before.map text).flatten ++ part = front ∧ (cut part).length ≤ 2 ∧
      (part = [] ∨ ∃ lexeme later, after = lexeme :: later ∧
        Text.bytes part < Text.bytes lexeme.text) := by
  generalize hscript : front ++ back = script
  induction script using cut_induction generalizing front with
  | nil =>
      obtain ⟨rfl, rfl⟩ := List.append_eq_nil_iff.1 hscript
      exact ⟨[], [], [], by simp⟩
  | cons c cs ih =>
      have hspelled := spelled_first c cs
      have hcomplete (more : List Char) (hfront : front = (first c cs).text ++ more)
          (hrest : rest c cs = more ++ back) :
          ∃ before after part, cut (c :: cs) = before ++ after ∧ cut front = before ++ cut part ∧
            (before.map text).flatten ++ part = front ∧ (cut part).length ≤ 2 ∧
            (part = [] ∨
              ∃ lexeme later, after = lexeme :: later ∧
              Text.bytes part < Text.bytes lexeme.text) := by
        obtain ⟨before, after, part, hcut, hmore, rfl, hbreak⟩ := ih more hrest.symm
        rw [hrest] at hspelled
        refine ⟨first c cs :: before, after, part, ?_, ?_, ?_, hbreak⟩
        · rw [cut_cons, hcut, List.cons_append]
        · rw [hfront, cut_of_spelled hspelled.of_append, hmore, List.cons_append]
        · rw [hfront, List.map_cons, List.flatten_cons, List.append_assoc]
      rcases List.append_eq_append_iff.1 ((first_append_rest c cs).trans hscript.symm) with
        ⟨more, hfront, hrest⟩ | ⟨later, htext, hback⟩
      · exact hcomplete more hfront hrest
      · by_cases hnil : later = []
        · subst hnil
          exact hcomplete [] (by simpa using htext.symm) (by simpa using hback.symm)
        · refine ⟨[], cut (c :: cs), front, rfl, rfl, rfl, ?_, .inr ⟨_, _, cut_cons c cs, ?_⟩⟩
          · exact length_cut_of_fragment hspelled ⟨later, htext.symm⟩
          · have hpos := bytes_pos hnil
            rw [htext, Text.bytes_append]
            omega

theorem exists_located {located : List (Lexeme × Span)} {token : Token Kind}
    (h : token ∈ located.filterMap token?) :
    ∃ lexeme, (lexeme, token.span) ∈ located ∧ lexeme.kind? = some token.kind := by
  obtain ⟨⟨lexeme, span⟩, hmem, htoken⟩ := List.mem_filterMap.1 h
  obtain ⟨kind, hkind, rfl⟩ := Option.map_eq_some_iff.1 htoken
  exact ⟨lexeme, hmem, hkind⟩

theorem stop_lt_of_mem_locate {line : Nat} {lexemes : List Lexeme} {located : Lexeme × Span}
    (hne : ∀ lexeme ∈ lexemes, lexeme.text ≠ []) (h : located ∈ locate line 0 lexemes) :
    located.2.stop < Text.bytes (lexemes.map text).flatten := by
  have hlocated := locate_located line [] lexemes hne h
  exact hlocated.stop_lt

theorem le_stop_of_break {line : Nat} {front part : List Char} {after : List Lexeme}
    {located : Lexeme × Span} (hne : ∀ lexeme ∈ after, lexeme.text ≠ [])
    (hpart : part = [] ∨
      ∃ lexeme later, after = lexeme :: later ∧ Text.bytes part < Text.bytes lexeme.text)
    (h : located ∈ locate line (Text.bytes front) after) :
    Text.bytes (front ++ part) ≤ located.2.stop := by
  have hcovers := (locate_located line front after hne h).start_le_stop
  rw [Text.bytes_append]
  rcases hpart with rfl | ⟨lexeme, later, rfl, hlt⟩
  · have hstart := locate_starts _ _ _ h
    simp only [Text.bytes_nil]
    omega
  · rw [locate_cons] at h
    rcases List.mem_cons.1 h with rfl | h
    · simp only [spanAt]
      omega
    · have hstart := locate_starts _ _ _ h
      omega

end Lexeme

theorem lex_of_cut {script : String} {before after : List Lexeme}
    (h : Lexeme.cut script.toList = before ++ after) :
    let front := (before.map Lexeme.text).flatten
    let located := Lexeme.locate (1 + Text.lineFeeds front) (Text.bytes front) after
    lex script = ⟨(Lexeme.locate 1 0 before).filterMap Lexeme.token? ++
      located.filterMap Lexeme.token? ++
        [endToken script.toList],
      (Lexeme.locate 1 0 before).filterMap Lexeme.fault? ++ located.filterMap Lexeme.fault?⟩ := by
  simp only [lex, h, Lexeme.locate_append, List.filterMap_append, Nat.zero_add]

theorem lex_truncated (front back : String) :
    ∃ extra, (lex front).tokens =
        (lex (front ++ back)).tokens.filter (·.span.stop < front.utf8ByteSize) ++ extra ++
          [endToken front.toList] ∧
      extra.length ≤ 2 ∧
      ∀ token ∈ extra, token.kind ≠ .eof ∧
        ∀ other ∈ (lex (front ++ back)).tokens.filter (·.span.stop < front.utf8ByteSize),
          other.span.stop < token.span.start := by
  obtain ⟨before, after, part, hcut, hfront, hsplit, hlength, hpart⟩ :=
    Lexeme.exists_break front.toList back.toList
  have hlexemes (lexeme : Lexeme) (h : lexeme ∈ before ++ after) : lexeme.text ≠ [] :=
    Lexeme.text_ne_nil_of_mem_cut (hcut ▸ h)
  let start := Text.bytes (before.map Lexeme.text).flatten
  let line := 1 + Text.lineFeeds (before.map Lexeme.text).flatten
  have hsize : Text.bytes ((before.map Lexeme.text).flatten ++ part) = front.utf8ByteSize := by
    rw [hsplit, Text.bytes_toList]
  have hbefore {token : Token Kind}
      (h : token ∈ (Lexeme.locate 1 0 before).filterMap Lexeme.token?) :
      token.span.stop < start := by
    obtain ⟨_, hmem, -⟩ := Lexeme.exists_located h
    exact Lexeme.stop_lt_of_mem_locate
      (fun lexeme h => hlexemes lexeme (List.mem_append_left _ h)) hmem
  have hafter {token : Token Kind}
      (h : token ∈ (Lexeme.locate line start after).filterMap Lexeme.token?) :
      front.utf8ByteSize ≤ token.span.stop := by
    obtain ⟨_, hmem, -⟩ := Lexeme.exists_located h
    rw [← hsize]
    exact Lexeme.le_stop_of_break
      (fun lexeme h => hlexemes lexeme (List.mem_append_right _ h)) hpart hmem
  have hkept : (lex (front ++ back)).tokens.filter (·.span.stop < front.utf8ByteSize) =
      (Lexeme.locate 1 0 before).filterMap Lexeme.token? := by
    have hend : front.utf8ByteSize ≤ (endToken (front ++ back).toList).span.stop := by
      rw [endToken, Text.bytes_toList, String.utf8ByteSize_append]
      exact Nat.le_add_right _ _
    have hstart : start ≤ front.utf8ByteSize := by
      rw [← hsize, Text.bytes_append]
      exact Nat.le_add_right _ _
    rw [lex_of_cut (String.toList_append ▸ hcut), List.append_assoc, List.filter_append,
      List.filter_eq_self.2, List.filter_eq_nil_iff.2, List.append_nil]
    · intro token htoken
      rcases List.mem_append.1 htoken with htoken | htoken
      · simpa using hafter htoken
      · rw [List.mem_singleton.1 htoken]
        simpa using hend
    · intro token htoken
      simpa using Nat.lt_of_lt_of_le (hbefore htoken) hstart
  refine ⟨(Lexeme.locate line start (Lexeme.cut part)).filterMap Lexeme.token?, ?_, ?_, ?_⟩
  · rw [hkept, lex_of_cut hfront]
  · refine Nat.le_trans (List.length_filterMap_le _ _) (Nat.le_trans (Nat.le_of_eq ?_) hlength)
    rw [← List.length_map Prod.fst, Lexeme.map_fst_locate]
  · intro token htoken
    obtain ⟨lexeme, hmem, hkind⟩ := Lexeme.exists_located htoken
    have hlexeme : lexeme ∈ Lexeme.cut part := by
      rw [← Lexeme.map_fst_locate line start (Lexeme.cut part)]
      exact List.mem_map_of_mem hmem
    refine ⟨fun heof => Lexeme.kind?_ne_eof hlexeme (heof ▸ hkind), fun other hother => ?_⟩
    rw [hkept] at hother
    exact Nat.lt_of_lt_of_le (hbefore hother) (Lexeme.locate_starts _ _ _ hmem)

end SqlAtlas

import SqlAtlas.Proofs.Truncation

namespace SqlAtlas

namespace Lexeme

theorem prefix_of_space {pattern text more : List Char} (hspace : ' ' ∉ pattern)
    (h : pattern <+: text ++ ' ' :: more) : pattern <+: text := by
  rcases prefix_append_cases text h with hbegun | ⟨inner, rfl, hinner⟩
  · exact hbegun
  · cases inner with
    | nil => rw [List.append_nil]
    | cons c inner =>
        obtain ⟨rfl, -⟩ := List.cons_prefix_cons.1 hinner
        simp at hspace

theorem Spelled.before_space {form : Form} {text rest : List Char} (h : Spelled form text rest)
    (htoken : (kind? ⟨form, text⟩).isSome = true) (hflaw : flaw? ⟨form, text⟩ = none)
    (more : List Char) :
    Spelled form text (' ' :: more) := by
  cases h with
  | string hmark hbody _ => exact .string hmark hbody (by simp [Stops])
  | name hmark hbody => exact .name hmark hbody
  | number hne hwhole hfraction =>
      have hstops : Stops Char.isDigit (' ' :: more) := by simp [Stops]
      refine .number hne hwhole ?_
      cases hfraction with
      | none _ _ => exact .none hstops (by simp)
      | some hdigits hall _ => exact .some hdigits hall hstops
  | word hc hbody _ hmarks =>
      have hspace : ∀ mark ∈ stringMarks, ' ' ∉ mark := by decide
      refine .word hc hbody (by simp [Stops, isWordPart]) fun mark hmark hbegun =>
        hmarks mark hmark ?_
      rw [← List.cons_append] at hbegun ⊢
      exact (prefix_of_space (hspace mark hmark) hbegun).trans (List.prefix_append _ rest)
  | symbol hmem hlongest hline hblock =>
      have hspace : ∀ symbol ∈ symbols, ' ' ∉ symbol.1 := by decide
      have hbegins {pattern : List Char} (hspace : ' ' ∉ pattern)
          (hbegun : pattern <+: text ++ ' ' :: more) :
          pattern <+: text ++ rest :=
        (prefix_of_space hspace hbegun).trans (List.prefix_append text rest)
      exact .symbol hmem (fun other hother hbegun =>
        hlongest other hother (hbegins (hspace other hother) hbegun))
        (fun hbegun => hline (hbegins (by simp) hbegun))
          (fun hbegun => hblock (hbegins (by simp) hbegun))
  | openString _ _ | openName _ _ => cases hflaw
  | layout _ | lineComment _ _ | blockComment _ | openComment _ | unknown _ _ _ _ _ => cases htoken

theorem Spelled.flaw?_eq_none {form : Form} {text rest : List Char} (h : Spelled form text rest)
    (htoken : (kind? ⟨form, text⟩).isSome = true) (hrest : rest ≠ []) :
    flaw? ⟨form, text⟩ = none := by
  cases h with
  | openComment _ | openString _ _ | openName _ _ => exact absurd rfl hrest
  | unknown _ _ _ _ _ => cases htoken
  | _ => rfl

def space : Lexeme := ⟨.layout, [' ']⟩

def worded (cs : List Char) : List Lexeme := (cut cs).filter (·.kind?.isSome)

def joined (lexemes : List Lexeme) : List Char := [' '].intercalate (lexemes.map text)

theorem worded_cons (c : Char) (cs : List Char) :
    worded (c :: cs) =
      if (first c cs).kind?.isSome then first c cs :: worded (rest c cs)
        else worded (rest c cs) := by
  rw [worded, cut_cons, List.filter_cons]
  rfl

theorem joined_cons (lexeme next : Lexeme) (later : List Lexeme) :
    joined (lexeme :: next :: later) = lexeme.text ++ ' ' :: joined (next :: later) := by
  simp [joined, List.intercalate]

theorem cut_joined (cs : List Char) : cut (joined (worded cs)) = (worded cs).intersperse space := by
  induction cs using cut_induction with
  | nil => simp [worded, joined]
  | cons c cs ih =>
      have hspelled := spelled_first c cs
      rw [worded_cons]
      split
      · next htoken =>
          cases hmore : worded (rest c cs) with
          | nil =>
              have hcut := cut_of_spelled hspelled.alone
              rw [List.append_nil, cut_nil] at hcut
              simpa [joined] using hcut
          | cons next later =>
              have hrest : rest c cs ≠ [] := by
                intro hnil
                simp [worded, hnil] at hmore
              have hclosed := hspelled.flaw?_eq_none htoken hrest
              have hspace : Spelled space.form space.text (joined (next :: later)) :=
                .layout (by simp)
              rw [joined_cons, cut_of_spelled (hspelled.before_space htoken hclosed _),
                List.intersperse_cons_cons, ← hmore, ← ih, hmore]
              exact congrArg _ (cut_of_spelled hspace)
      · exact ih

def gist? (lexeme : Lexeme) : Option (Kind × String) :=
  lexeme.kind?.map (·, String.ofList lexeme.text)

theorem gist?_worded (cs : List Char) : (worded cs).filterMap gist? = (cut cs).filterMap gist? := by
  rw [worded, List.filterMap_filter]
  refine List.filterMap_congr fun lexeme _ => ?_
  cases hkind : lexeme.kind? <;> simp [gist?, hkind]

theorem gist?_intersperse (lexemes : List Lexeme) :
    (lexemes.intersperse space).filterMap gist? = lexemes.filterMap gist? := by
  induction lexemes with
  | nil => rfl
  | cons lexeme lexemes ih =>
      cases lexemes with
      | nil => rfl
      | cons next later =>
          rw [List.intersperse_cons_cons, List.filterMap_cons, List.filterMap_cons, ih,
            List.filterMap_cons]
          rfl

theorem map_gist (script : String) :
    ((locate 1 0 (cut script.toList)).filterMap token?).map
      (fun token => (token.kind, token.text script)) =
      (cut script.toList).filterMap gist? := by
  rw [List.map_filterMap]
  conv_rhs => rw [← map_fst_locate 1 0 (cut script.toList), List.filterMap_map]
  refine List.filterMap_congr fun located hlocated => ?_
  have htext := (located_cut hlocated).2.text
  rw [String.ofList_toList] at htext
  simp [token?, gist?, Token.text, htext, Function.comp_def]

theorem gists_lex (script : String) :
    (lex script).tokens.map (fun token => (token.kind, token.text script)) =
      (cut script.toList).filterMap gist? ++ [(.eof, "")] := by
  rw [lex, List.map_append, map_gist, List.map_singleton, text_endToken]
  rfl

theorem mem_of_mem_intersperse {lexeme between : Lexeme} {lexemes : List Lexeme}
    (h : lexeme ∈ lexemes.intersperse between) : lexeme ∈ lexemes ∨ lexeme = between := by
  induction lexemes with
  | nil => exact absurd h List.not_mem_nil
  | cons first lexemes ih =>
      cases lexemes with
      | nil => exact .inl h
      | cons next later =>
          rw [List.intersperse_cons_cons, List.mem_cons, List.mem_cons] at h
          rcases h with rfl | rfl | h
          · exact .inl List.mem_cons_self
          · exact .inr rfl
          · exact (ih h).imp_left (List.mem_cons_of_mem first)

theorem texts_lex (script : String) :
    ((lex script).tokens.filter (·.kind ≠ .eof)).map (·.text script) =
      (worded script.toList).map fun lexeme => String.ofList lexeme.text := by
  obtain ⟨tokens, htokens, hspread⟩ := lex_spread script
  have hlexed : (locate 1 0 (cut script.toList)).filterMap token? = tokens :=
    List.append_cancel_right htokens
  have hplain : tokens.filter (·.kind ≠ .eof) = tokens :=
    List.filter_eq_self.2 fun token htoken => decide_eq_true (hspread.placed token htoken).plain
  have hgists := congrArg (List.map Prod.snd) (map_gist script)
  rw [hlexed, ← gist?_worded, List.map_map, List.map_filterMap] at hgists
  rw [htokens, List.filter_append, hplain]
  simp only [endToken, List.filter_cons, List.filter_nil, ne_eq, not_true_eq_false, decide_false,
    Bool.false_eq_true, if_false, List.append_nil]
  refine hgists.trans (List.filterMap_eq_map_iff_forall_eq_some.2 fun lexeme hlexeme => ?_)
  obtain ⟨kind, hkind⟩ := Option.isSome_iff_exists.1 (List.mem_filter.1 hlexeme).2
  simp [gist?, hkind]

theorem closed_of_followed {cs : List Char} {before after : List Lexeme} {lexeme : Lexeme}
    (h : cut cs = before ++ lexeme :: after) (hafter : after ≠ [])
    (htoken : lexeme.kind?.isSome = true) : lexeme.flaw? = none := by
  have hcut := cut_of_append h
  rw [List.map_cons, List.flatten_cons] at hcut
  obtain ⟨hspelled, hmore⟩ := spelled_of_cut hcut
  refine hspelled.flaw?_eq_none htoken fun hnil => hafter ?_
  rw [← hmore, hnil, cut_nil]

end Lexeme

theorem faults_of_worded {script : String}
    (h : ∀ lexeme ∈ Lexeme.cut script.toList, lexeme.kind?.isSome = true ∨ lexeme.form = .layout) :
    (lex script).faults = [] ∨ ∃ tokens token,
      (lex script).tokens = tokens ++ [token, endToken script.toList] ∧
      ((token.kind = .string ∧
          (lex script).faults = [⟨.lexical, token.span, "unterminated string literal"⟩]) ∨
        (token.kind = .identifier ∧
          (lex script).faults = [⟨.lexical, token.span, "unterminated quoted identifier"⟩])) := by
  rcases List.eq_nil_or_concat' (Lexeme.cut script.toList) with hnil | ⟨init, last, hcut⟩
  · left
    simp [lex, hnil]
  · have hinit : (Lexeme.locate 1 0 init).filterMap Lexeme.fault? = [] := by
      refine List.filterMap_eq_nil_iff.2 fun located hlocated => ?_
      have hmem : located.1 ∈ init := by
        rw [← Lexeme.map_fst_locate 1 0 init]
        exact List.mem_map_of_mem hlocated
      obtain ⟨front, back, rfl⟩ := List.append_of_mem hmem
      have hnone : located.1.flaw? = none := by
        rcases h located.1 (by simp [hcut]) with htoken | hlayout
        · rw [List.append_assoc, List.cons_append] at hcut
          exact Lexeme.closed_of_followed hcut (by simp) htoken
        · rw [Lexeme.flaw?, hlayout]
      rw [Lexeme.fault?, hnone, Option.map_none]
    rw [lex_of_cut hcut, hinit, List.nil_append]
    obtain ⟨form, text⟩ := last
    cases form with
    | string closed =>
        cases closed with
        | true => exact .inl rfl
        | false => exact .inr ⟨_, _, List.append_assoc _ [_] [_], .inl ⟨rfl, rfl⟩⟩
    | quotedName closed =>
        cases closed with
        | true => exact .inl rfl
        | false => exact .inr ⟨_, _, List.append_assoc _ [_] [_], .inr ⟨rfl, rfl⟩⟩
    | blockComment closed | unknown =>
        have hlast := h _ (hcut ▸ List.mem_append_right init (List.mem_singleton_self _))
        rcases hlast with htoken | hlayout
        · cases htoken
        · cases hlayout
    | _ => exact .inl rfl

theorem lex_rejoined (script : String) :
    let texts := ((lex script).tokens.filter (·.kind ≠ .eof)).map (·.text script)
    let joined := " ".intercalate texts
    (lex joined).tokens.map (fun token => (token.kind, token.text joined)) =
        (lex script).tokens.map (fun token => (token.kind, token.text script)) ∧
      ((lex joined).faults = [] ∨ ∃ tokens token,
        (lex joined).tokens = tokens ++ [token, endToken joined.toList] ∧
        ((token.kind = .string ∧
            (lex joined).faults = [⟨.lexical, token.span, "unterminated string literal"⟩]) ∨
          (token.kind = .identifier ∧
            (lex joined).faults =
              [⟨.lexical, token.span, "unterminated quoted identifier"⟩]))) := by
  intro texts joined
  have htext : joined.toList = Lexeme.joined (Lexeme.worded script.toList) := by
    simp only [joined, texts, Lexeme.texts_lex, Lexeme.joined, String.toList_intercalate,
      List.map_map]
    congr 1
    refine List.map_congr_left fun lexeme _ => ?_
    simp
  have hcut : Lexeme.cut joined.toList =
      (Lexeme.worded script.toList).intersperse Lexeme.space := by
    rw [htext, Lexeme.cut_joined]
  constructor
  · rw [Lexeme.gists_lex, Lexeme.gists_lex, hcut, Lexeme.gist?_intersperse, Lexeme.gist?_worded]
  · refine faults_of_worded fun lexeme hlexeme => ?_
    rcases Lexeme.mem_of_mem_intersperse (hcut ▸ hlexeme) with hworded | rfl
    · exact .inl (List.mem_filter.1 hworded).2
    · exact .inr rfl

end SqlAtlas

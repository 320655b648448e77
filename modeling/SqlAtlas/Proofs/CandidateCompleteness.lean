import SqlAtlas.Proofs.Acceptance
import SqlAtlas.Proofs.Foresight

namespace SqlAtlas

namespace Candidates

variable {candidates : Candidates Kind Rule} {kind k : Kind} {follow : List Kind}

theorem mem_map_addToken : k ∈ (candidates.addToken kind follow).tokens.map Prod.fst ↔
    k ∈ candidates.tokens.map Prod.fst ∨ k = kind := by
  unfold addToken
  split
  · next hmem => exact ⟨.inl, fun h => h.elim id fun hk => hk ▸ hmem⟩
  · simp

theorem mem_map_addTokens {offers : List Offer} :
    k ∈ (candidates.addTokens offers).tokens.map Prod.fst ↔
      k ∈ candidates.tokens.map Prod.fst ∨ k ∈ offers.map Prod.fst := by
  induction offers generalizing candidates with
  | nil => simp [addTokens]
  | cons offer offers ih =>
      change k ∈ ((candidates.addToken offer.1 offer.2).addTokens offers).tokens.map Prod.fst ↔ _
      rw [ih, mem_map_addToken, List.map_cons, List.mem_cons, or_assoc]

end Candidates

theorem eof_notMem_kinds {tokens : List (Token Kind)} (h : ∀ token ∈ tokens, token.kind ≠ .eof) :
    Kind.eof ∉ tokens.map Token.kind := by
  intro hmem
  obtain ⟨token, htoken, hkind⟩ := List.mem_map.1 hmem
  exact h token htoken hkind

theorem Input.shows_before {pre rest : List (Token Kind)} (hpre : ∀ token ∈ pre, token.kind ≠ .eof)
    (hrest : rest ≠ []) :
    Input.Shows ⟨((pre ++ rest).map Token.kind).toArray, some ⟨pre.length, [], []⟩⟩
      (pre.map Token.kind) := by
  have hkinds : rest.map Token.kind ≠ [] := by simpa using hrest
  simpa using Input.shows_caret (eof_notMem_kinds hpre) hkinds

theorem Runs.collects {pre rest : List (Token Kind)} {o : List Offer} {b : Bool} {s : Place}
    (h : Runs nestingLimit Grammar.script (.text (pre.map Token.kind)) o b s)
    (hpre : ∀ token ∈ pre, token.kind ≠ .eof) (hrest : rest ≠ []) (focus : Focus)
    (script : String) :
    Dialect.generic.collect ⟨focus, script, pre ++ rest, pre.length, [], []⟩ =
        Candidates.empty.addTokens o ∧
      (s = .depth → nestingLimit < (Input.read
        ⟨((pre ++ rest).map Token.kind).toArray, some ⟨pre.length, [], []⟩⟩).deepest) := by
  have hshow := Input.shows_before hpre hrest
  have hdoes := h.script_read hshow (by simp)
  rw [← Input.read_eq hshow] at hdoes
  refine ⟨hdoes.candidates _ rfl rfl rfl, fun hs => ?_⟩
  simpa [Reading.begin] using hdoes.deepest hs

theorem Spans.takenBefore {input : Input} {pre post : List Kind} {k : Kind} {back : Nat}
    {guard : Guard} (hshow : input.Shows (pre ++ k :: post))
    (h : Spans nestingLimit Grammar.script pre k post back guard) :
    input.TakenBefore pre.length back guard := by
  obtain ⟨left, hdecides, hback⟩ := h
  obtain ⟨hne, hkinds⟩ := hdecides.holds
  obtain ⟨r, htries, hr⟩ := hdecides.tries hshow Grammar.sane_script Grammar.steady_script
    (Reading.of_begin _)
  have hpos : r.pos + back = pre.length := by
    have hle := hr.2.1
    have hlength := congrArg List.length hr.2.2
    simp only [List.length_drop, List.length_append, List.length_cons] at hle hlength
    omega
  have heof : Kind.eof ∉ guard.kinds := fun hmem =>
    hshow.plain (List.mem_of_mem_drop (hr.2.2 ▸ hkinds.subset hmem))
  refine ⟨r, htries, hpos, ?_⟩
  rw [hshow.accept_of_ne_nil hr hne heof, if_pos hkinds]

theorem mem_candidates_of_faultless (focus : Focus) (script : String) (pre post : List (Token Kind))
    (token eof : Token Kind) (heof : eof.kind = .eof)
    (hplain : ∀ t ∈ pre ++ token :: post, t.kind ≠ .eof)
    (hclean : (Dialect.generic.parse script (pre ++ token :: post ++ [eof])).faults = []) :
    token.kind ∈ (Dialect.generic.collect
        ⟨focus, script, pre ++ token :: post ++ [eof], pre.length, [], []⟩).tokens.map Prod.fst ∨
      SeenPast (Input.TakenBefore
          ⟨((pre ++ token :: post ++ [eof]).map Token.kind).toArray, none⟩ pre.length)
        (pre.map Token.kind) token.kind ∨
      nestingLimit < (Input.read ⟨((pre ++ token :: post ++ [eof]).map Token.kind).toArray,
          some ⟨pre.length, [], []⟩⟩).deepest ∧
        NamesAll (Input.TakenBefore
          ⟨((pre ++ token :: post ++ [eof]).map Token.kind).toArray, none⟩ pre.length)
            token.kind := by
  have hkinds : (pre ++ token :: post ++ [eof]).map Token.kind =
      (pre ++ token :: post).map Token.kind ++ [.eof] := by simp [heof]
  obtain ⟨_, _, hrun⟩ := (parse_faults_eq_nil_iff script hkinds (eof_notMem_kinds hplain)).1 hclean
  rw [List.map_append] at hrun
  obtain ⟨o, b, s, hcut, -, hk⟩ := script_awaits hrun
  have hpre : ∀ t ∈ pre, t.kind ≠ .eof := fun t ht => hplain t (by simp [ht])
  have hrest : token :: post ++ [eof] ≠ [] := by simp
  obtain ⟨hcollect, hdeep⟩ := hcut.collects hpre hrest focus script
  have hspans (back : Nat) (guard : Guard)
      (h : Spans nestingLimit Grammar.script (pre.map Token.kind) token.kind (post.map Token.kind)
        back guard) :
      Input.TakenBefore ⟨((pre ++ token :: post ++ [eof]).map Token.kind).toArray, none⟩ pre.length
        back guard := by
    have hshow := Input.shows_text (eof_notMem_kinds hplain) []
    have hcaret : (pre.map Token.kind).length = pre.length := List.length_map _
    rw [List.map_append, List.map_cons] at hshow
    rw [hkinds, List.map_append, List.map_cons, ← hcaret]
    exact h.takenBefore hshow
  rcases hk with hk | hseen | ⟨hs, hall⟩
  · rw [List.append_assoc, hcollect]
    exact .inl (Candidates.mem_map_addTokens.2 (.inr hk))
  · exact .inr (.inl (hseen.mono hspans List.suffix_rfl))
  · refine .inr (.inr ⟨?_, hall.mono hspans⟩)
    rw [List.append_assoc]
    exact hdeep hs

theorem mem_candidates_of_faultless_star :
    (Dialect.generic.parse "" (tokensOf [.keyword .SELECT, .star])).faults = [] ∧
      (Kind.star ∈ (Dialect.generic.collect
        ⟨.columns, "", tokensOf [.keyword .SELECT, .star], 1, [],
          []⟩).tokens.map Prod.fst ∨
        SeenPast (Input.TakenBefore ⟨#[.keyword .SELECT, .star, .eof], none⟩ 1)
          [.keyword .SELECT] .star ∨
        nestingLimit < (Input.read ⟨#[.keyword .SELECT, .star, .eof], some ⟨1, [], []⟩⟩).deepest ∧
          NamesAll (Input.TakenBefore ⟨#[.keyword .SELECT, .star, .eof], none⟩ 1) .star) := by
  have hclean : (Dialect.generic.parse "" (tokensOf [.keyword .SELECT, .star])).faults = [] := by
    decide +kernel
  exact ⟨hclean, mem_candidates_of_faultless .columns "" [tokenOf (.keyword .SELECT)] []
    (tokenOf .star) (tokenOf .eof) rfl (by decide) hclean⟩

section SunkenName

/-- The kinds of `SELECT a.*` in this many pairs of parentheses. -/
def sunken (depth : Nat) : List Kind :=
  List.replicate depth .openParen ++ [.keyword .SELECT, .identifier, .dot, .star] ++
    List.replicate depth .closeParen

theorem sunken_succ (depth : Nat) :
    sunken (depth + 1) = .openParen :: (sunken depth ++ [.closeParen]) := by
  simp [sunken, List.replicate_succ, ← List.replicate_succ']

def sunkenForm : Nat → List Piece
  | 0 => [.group .subquery ([.keyword .SELECT, .identifier, .dot, .star].map .token)]
  | depth + 1 => .token .openParen :: (sunkenForm depth ++ [.token .closeParen])

theorem kindsOf_sunkenForm (depth : Nat) : kindsOf (sunkenForm depth) = sunken depth := by
  induction depth with
  | zero => rfl
  | succ depth ih => simp [sunkenForm, sunken_succ, kindsOf, Piece.kinds, ih]

theorem sunkenForm_mem_primary (n depth : Nat) :
    sunkenForm (depth + 1) ∈ Production.primary (Setting.upTo True (n + depth + 1)) := by
  refine mem_primary_of_parens ?_
  cases depth with
  | zero =>
      have helem : [.identifier, .dot, .star].map .token ∈
          Production.columnElem (Setting.upTo True n) :=
        .inl (.inr ⟨_, rfl, _, ⟨_, rfl, _, rfl, rfl⟩, rfl⟩)
      exact .inl ⟨_, mem_select_of_selection (mem_selection_of_columnElem helem), rfl⟩
  | succ depth =>
      exact .inr (mem_mul_kstar (mem_expression_of_primary (sunkenForm_mem_primary n depth)))

theorem sunken_mem_file (n depth : Nat) : .keyword .SELECT :: sunken (depth + 1) ∈
    erase (Production.file (Setting.upTo True (n + depth + 2))) := by
  have hselect := mem_select_of_selection
    (mem_selection_of_primary (sunkenForm_mem_primary n depth))
  refine ⟨_, mem_file_of_select hselect, ?_⟩
  rw [kindsOf_group, kindsOf, kindsOf_sunkenForm]
  rfl

def Sinks (n : Nat) (phrase : Phrase) (ks : List Kind) (o : List Offer) : Prop :=
  ∃ b, Runs n phrase (.text ks) o b .depth

namespace Sinks

variable {n : Nat} {ks ks' : List Kind} {o : List Offer} {b : Bool}

theorem first {first second : Phrase} (h : Sinks n first ks o) :
    Sinks n (.seq first second) ks o := by
  obtain ⟨b, h⟩ := h
  exact ⟨false, by simpa using Runs.seq h (.idle trivial)⟩

theorem second {first second : Phrase} (hfirst : Runs n first (.text ks) [] b (.text ks'))
    (h : Sinks n second ks' o) : Sinks n (.seq first second) ks o := by
  obtain ⟨b, h⟩ := h
  exact ⟨b, .seq hfirst h⟩

theorem yes {test yes no : Phrase} (htest : Runs n test (.text ks) [] true (.text ks'))
    (h : Sinks n yes ks' o) : Sinks n (.ifElse test yes no) ks o := by
  obtain ⟨b, h⟩ := h
  exact ⟨true, .ifTrue htest h⟩

theorem no {test yes no : Phrase} (htest : Runs n test (.text ks) [] false (.text ks'))
    (h : Sinks n no ks' o) : Sinks n (.ifElse test yes no) ks o := by
  obtain ⟨b, h⟩ := h
  exact ⟨b, .ifFalse htest h⟩

theorem turn {body : Phrase} (h : Sinks n body ks o) : Sinks n (.many body) ks o := by
  obtain ⟨b, h⟩ := h
  cases b with
  | true => exact ⟨false, by simpa using Runs.manyMore h (.idle trivial)⟩
  | false => exact ⟨false, .manyStop h⟩

theorem rule {name : Rule} {body : Phrase} (h : Sinks n body ks o) :
    Sinks n (.rule name body) ks o := by
  obtain ⟨b, h⟩ := h
  exact ⟨b, .rule h⟩

theorem node {shape : Shape} {body : Phrase} (h : Sinks n body ks o) :
    Sinks n (.node shape body) ks o := by
  obtain ⟨b, h⟩ := h
  exact ⟨b, .node h⟩

theorem nest {again : Nest} (h : Sinks n (Grammar.body again) ks o) :
    Sinks (n + 1) (.nest again) ks o := by
  obtain ⟨b, h⟩ := h
  exact ⟨false, .nest h⟩

end Sinks

theorem Runs.passed {n : Nat} {guard : Guard} {k j : Kind} {ks js : List Kind}
    (hguard : guard.kinds = j :: js) (hk : k ≠ j) :
    Runs n (.accept guard) (.text (k :: ks)) [] false (.text (k :: ks)) :=
  .refuse (by simp) fun hpre => by
    rw [hguard] at hpre
    exact hk (List.cons_prefix_cons.1 hpre).1.symm

theorem sinks_expression {n : Nat} {ks : List Kind} {o : List Offer}
    (h : Sinks n Grammar.queryOrList ks o) :
    Sinks (n + 1) Grammar.expression (.openParen :: ks) o := by
  have hpass {kind : Kind} (hkind : .openParen ≠ kind) :
      Runs n (.accept (.token kind [])) (.text (.openParen :: ks))
          [] false (.text (.openParen :: ks)) :=
    .passed rfl hkind
  have hcase : Sinks n Grammar.primary (.openParen :: ks) o :=
    .no (.passed rfl (by decide)) (.no (.rule (.ifFalse (.passed rfl (by decide)) .nothing))
      (.no (.ifFalse (.passed rfl (by decide)) (.ifFalse (.passed rfl (by decide))
          (.ifFalse (.passed rfl (by decide)) .nothing)))
        (.no (.passed rfl (by decide)) (.no (.passed rfl (by decide)) (.yes .eaten h.first)))))
  have hunary : Sinks n Grammar.unary (.openParen :: ks) o :=
    .second (.manyStop (.ifFalse (.passed rfl (by decide))
      (.ifFalse (.passed rfl (by decide)) .nothing)))
      hcase
  have hnegation : Sinks n Grammar.negation (.openParen :: ks) o :=
    .second (.manyStop (.passed rfl (by decide))) hunary.first.first.first
  exact .nest hnegation.first.first

theorem sinks_selectStatement {n : Nat} {ks : List Kind} {o₁ o₂ o₃ : List Offer} {b₁ b₂ : Bool}
    (h₁ : Runs n (Phrase.anyOf [.keyword .ALL, .keyword .DISTINCT]) (.text ks) o₁ b₁ (.text ks))
    (h₂ : Runs n (Phrase.optional (Phrase.word .TOP) Grammar.primary) (.text ks) o₂ b₂ (.text ks))
    (h₃ : Sinks n Grammar.columnElem ks o₃) :
    Sinks n Grammar.selectStatement (.keyword .SELECT :: ks) (o₁ ++ (o₂ ++ o₃)) := by
  obtain ⟨b₃, h₃⟩ := h₃
  have hparts : Runs n Grammar.querySpecification (.text (.keyword .SELECT :: ks)) _ true .depth :=
    .rule (.ifTrue .need (.seq h₁
      (.seq h₂ (.seq (.rule (.seq h₃ (.idle trivial))) (.idle trivial)))))
  have hspecification :
      Sinks n Grammar.querySpecification (.keyword .SELECT :: ks) (o₁ ++ (o₂ ++ o₃)) :=
    ⟨true, by simpa using hparts⟩
  exact .rule (.second (.ifFalse (.passed rfl (by decide)) .nothing)
    (.first (.rule (.first hspecification))))

theorem sinks_sunken (depth : Nat) : Sinks (depth + 1) Grammar.queryOrList
    (List.replicate depth .openParen ++ [.keyword .SELECT])
    [(.keyword .ALL, []), (.keyword .DISTINCT, []), (.keyword .TOP, []), (.star, [])] := by
  induction depth with
  | zero =>
      have helem : Sinks 0 Grammar.columnElem [] [(.star, [])] :=
        ⟨_, .rule (.ifFalse .offer (.ifFalse .offer (.seq .tooDeep (.idle trivial))))⟩
      have hquery : Sinks 0 Grammar.selectStatement [.keyword .SELECT] _ :=
        sinks_selectStatement (.ifFalse .offer (.ifFalse .offer .nothing))
          (.ifFalse .offer .nothing) helem
      exact .yes (.ifTrue (.accept (by decide) List.prefix_rfl) .nothing) (.nest (.node hquery))
  | succ depth ih =>
      exact .no (.ifFalse (.passed rfl (by decide)) (.ifFalse (.passed rfl (by decide)) .nothing))
        (.first (sinks_expression ih))

def sunkenBefore (depth : Nat) : List Kind :=
  .keyword .SELECT :: (List.replicate depth .openParen ++ [.keyword .SELECT])

def sunkenAfter (depth : Nat) : List Kind := [.dot, .star] ++ List.replicate depth .closeParen

theorem sinks_script (depth : Nat) : Sinks (depth + 2) Grammar.script (sunkenBefore (depth + 1))
    [(.keyword .ALL, []), (.keyword .DISTINCT, []), (.keyword .TOP, []), (.star, [])] := by
  have helem : Sinks (depth + 2) Grammar.columnElem
      (.openParen :: (List.replicate depth .openParen ++ [.keyword .SELECT])) _ :=
    .rule (.no (.passed rfl (by decide)) (.no (.passed rfl (by decide))
      (.first (sinks_expression (sinks_sunken depth)))))
  have hquery : Sinks (depth + 2) Grammar.selectStatement _ _ :=
    sinks_selectStatement
      (.ifFalse (.passed rfl (by decide)) (.ifFalse (.passed rfl (by decide)) .nothing))
      (.ifFalse (.passed rfl (by decide)) .nothing) helem
  have hstatement : Sinks (depth + 2) Grammar.statement _ _ :=
    .rule (.no (.passed rfl (by decide))
      (.no (.passed rfl (by decide)) (.no (.passed rfl (by decide))
      (.node hquery))))
  exact .rule (.turn (.no (.passed rfl (by decide)) (.yes (.ifFalse (.passed rfl (by decide))
    (.ifTrue (.accept (by simp) ⟨_, rfl⟩) .nothing)) hstatement)))

theorem sunken_split (depth : Nat) :
    sunkenBefore depth ++ .identifier :: sunkenAfter depth = .keyword .SELECT :: sunken depth := by
  simp [sunken, sunkenBefore, sunkenAfter]

theorem map_kind_tokenOf (ks : List Kind) : (ks.map tokenOf).map Token.kind = ks := by
  simp [tokenOf, Function.comp_def]

theorem eof_notMem_sunken (depth : Nat) : Kind.eof ∉ .keyword .SELECT :: sunken depth := by
  simp [sunken]

theorem sunken_faultless :
    (Dialect.generic.parse "" (tokensOf (.keyword .SELECT :: sunken 199))).faults = [] := by
  have hkinds := map_kind_tokenOf (.keyword .SELECT :: sunken 199 ++ [.eof])
  rw [tokensOf, parse_faults_eq_nil_iff "" hkinds (eof_notMem_sunken 199), Runs.script_iff]
  exact sunken_mem_file 0 198

theorem not_mem_candidates_of_faultless : ¬ ∀ (focus : Focus) (script : String)
    (pre post : List (Token Kind)) (token eof : Token Kind), eof.kind = .eof →
    (∀ t ∈ pre ++ token :: post, t.kind ≠ .eof) →
    (Dialect.generic.parse script (pre ++ token :: post ++ [eof])).faults = [] →
    token.kind ∈ (Dialect.generic.collect
        ⟨focus, script, pre ++ token :: post ++ [eof], pre.length, [], []⟩).tokens.map Prod.fst ∨
      SeenPast (Input.TakenBefore
          ⟨((pre ++ token :: post ++ [eof]).map Token.kind).toArray, none⟩ pre.length)
        (pre.map Token.kind) token.kind := by
  intro h
  have htokens : (sunkenBefore 199).map tokenOf ++ tokenOf .identifier ::
      (sunkenAfter 199).map tokenOf = (.keyword .SELECT :: sunken 199).map tokenOf := by
    rw [← sunken_split, List.map_append, List.map_cons]
  have hplain : ∀ t ∈ (sunkenBefore 199).map tokenOf ++ tokenOf .identifier ::
      (sunkenAfter 199).map tokenOf, t.kind ≠ .eof := by
    rw [htokens]
    intro t ht hkind
    obtain ⟨k, hk, rfl⟩ := List.mem_map.1 ht
    exact eof_notMem_sunken 199 (hkind ▸ hk)
  have hclean : (Dialect.generic.parse "" ((sunkenBefore 199).map tokenOf ++ tokenOf .identifier ::
      (sunkenAfter 199).map tokenOf ++ [tokenOf .eof])).faults = [] := by
    have hall := sunken_faultless
    rwa [tokensOf, List.map_append, ← htokens] at hall
  obtain ⟨b, hsinks⟩ : Sinks nestingLimit Grammar.script (sunkenBefore 199) _ := sinks_script 198
  rw [← map_kind_tokenOf (sunkenBefore 199)] at hsinks
  have hpre : ∀ t ∈ (sunkenBefore 199).map tokenOf, t.kind ≠ .eof := fun t ht =>
    hplain t (List.mem_append_left _ ht)
  have hrest : tokenOf .identifier :: (sunkenAfter 199).map tokenOf ++ [tokenOf .eof] ≠ [] := by
    simp
  have hk := h .columns "" _ _ _ _ rfl hplain hclean
  rw [List.append_assoc, (hsinks.collects hpre hrest .columns "").1] at hk
  rcases hk with hk | ⟨hk, -⟩ | ⟨hk, -⟩ | ⟨⟨hk, -⟩, -⟩
  · exact absurd hk (by decide)
  · cases hk
  · cases hk
  · exact absurd hk (by decide)

end SunkenName

end SqlAtlas

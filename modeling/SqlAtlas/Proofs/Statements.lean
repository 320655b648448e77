import SqlAtlas.Proofs.Recognition

namespace SqlAtlas

open Phrase

theorem Phrase.exists_cons_of_forms {nests : Nest → Language Piece} {phrase : Phrase}
    {starts : List Kind} (h : phrase.starts starts = true) (heof : Kind.eof ∉ starts)
    {d : List Piece} (hd : d ∈ phrase.forms nests) : ∃ k ∈ starts, ∃ v, kindsOf d = k :: v :=
  exists_cons_of_starts h heof (erase_forms phrase ▸ kindsOf_mem_erase hd)

theorem Nest.exists_cons_of_subquery {n : Nat} {d : List Piece}
    (hd : d ∈ (Setting.upTo True n).forms .subquery) :
    ∃ k ∈ Kind.queryStarts, ∃ v, kindsOf d = k :: v := by
  cases n with
  | zero => exact absurd hd (Language.notMem_zero _)
  | succ n =>
      change d ∈ Production.body .subquery (Setting.upTo True n) at hd
      rw [← Grammar.forms_body (Setting.callsOnly_upTo n)] at hd
      exact exists_cons_of_forms starts_subquery (by decide) hd

theorem Runs.eaten {n : Nat} {kind : Kind} {ks : List Kind} :
    Runs n (eat kind) (.text (kind :: ks)) [] true (.text ks) :=
  .accept (by simp) ⟨ks, rfl⟩

def Phrase.sights (kinds : List Kind) : Phrase :=
  firstOf (kinds.map fun kind => .accept (.sight [.openParen, kind]))

namespace Traces

variable {n : Nat} {d : List Piece} {rest : List Kind}

theorem eaten {kind : Kind} : Traces n (eat kind) [.token kind] true rest :=
  .accept (by simp [Guard.kinds]) ⟨rest, rfl⟩

variable (n) in
theorem unmet (guard : Guard) {kind k : Kind} {ks : List Kind} (hguard : guard.kinds = [kind])
    (hks : ks.head? = some k) (h : k ≠ kind) : Traces n (.accept guard) [] false ks := by
  obtain ⟨ks, rfl⟩ := List.head?_eq_some_iff.1 hks
  refine .refuse fun hpre => ?_
  rw [hguard] at hpre
  exact h (List.cons_prefix_cons.1 hpre).1.symm

section Inserts

variable (n) in
theorem sights_refused {kinds ks : List Kind} (h : ∀ k ∈ kinds, ¬ [.openParen, k] <+: ks) :
    Traces n (sights kinds) [] false ks := by
  induction kinds with
  | nil => exact .nothing
  | cons kind kinds ih =>
      exact ifUnseen (.refuse (h kind (by simp))) (ih fun k hk => h k (by simp [hk]))

variable (n) in
theorem sights_seen {kinds ks : List Kind} {k : Kind} (hk : k ∈ kinds)
    (h : [.openParen, k] <+: ks) :
    Traces n (sights kinds) [] true ks := by
  induction kinds with
  | nil => cases hk
  | cons kind kinds ih =>
      by_cases hkind : [.openParen, kind] <+: ks
      · exact ifSeen (.accept (by simp [Guard.kinds]) hkind) .nothing
      · have hmem : k ∈ kinds := by
          rcases List.mem_cons.1 hk with rfl | hmem
          · exact absurd h hkind
          · exact hmem
        exact ifUnseen (.refuse hkind) (ih hmem)

theorem settled_insert :
    Nest.Settled (word .INTO) [.keyword .INTO] ∧ Nest.Settled Grammar.tableReference [.dot] ∧
      Nest.Settled Grammar.columnNameList [.comma] ∧
      Nest.Settled Grammar.insertSource (Nest.stops .subquery) := by
  unfold Nest.Settled
  decide +kernel

theorem starts_insert :
    Grammar.tableReference.starts [.identifier] = true ∧
      Grammar.columnNameList.starts [.identifier] = true := by
  decide +kernel

theorem exists_cons_of_insertSource {source : List Piece}
    (hsource : source ∈ Grammar.insertSource.forms (Setting.upTo True n).forms) :
    ∃ k v, kindsOf source = k :: v ∧ k ≠ .dot ∧
      (k ≠ .openParen ∨ ∃ j ∈ Kind.queryStarts, [.openParen, j] <+: kindsOf source) := by
  have hquery : ∀ k ∈ Kind.queryStarts, k ≠ .dot ∧ k ≠ .openParen := by
    decide
  rw [Grammar.forms_insertSource] at hsource
  rcases hsource with (⟨_, rfl, rows, _, rfl⟩ | ⟨_, rfl, _, ⟨query, hsub, _, rfl, rfl⟩, rfl⟩) | hsub
  · exact ⟨.keyword .VALUES, kindsOf rows, rfl, by decide, .inl (by decide)⟩
  · obtain ⟨j, hj, v, hv⟩ := Nest.exists_cons_of_subquery hsub
    have hkinds : kindsOf ([.token .openParen] ++ (query ++ [.token .closeParen])) =
        .openParen :: j :: (v ++ [.closeParen]) := by
      simp [kindsOf, Piece.kinds, hv]
    rw [hkinds]
    exact ⟨_, _, rfl, by decide, .inr ⟨j, hj, v ++ [.closeParen], rfl⟩⟩
  · obtain ⟨j, hj, v, hv⟩ := Nest.exists_cons_of_subquery hsub
    exact ⟨j, v, hv, (hquery j hj).1, .inl (hquery j hj).2⟩

theorem insertColumns_of_forms {columns source : List Piece}
    (hcolumns : columns ∈ Grammar.insertColumns.forms (Setting.upTo True n).forms)
    (hsource : source ∈ Grammar.insertSource.forms (Setting.upTo True n).forms) :
    ∃ b, Traces n Grammar.insertColumns columns b (kindsOf source ++ rest) := by
  rw [Grammar.forms_insertColumns] at hcolumns
  rcases hcolumns with ⟨_, rfl, _, ⟨names, hnames, _, rfl, rfl⟩, rfl⟩ | rfl
  · rw [← Grammar.forms_columnNameList] at hnames
    obtain ⟨k, hk, v, hv⟩ := exists_cons_of_forms starts_insert.2 (by decide) hnames
    obtain rfl := List.mem_singleton.1 hk
    obtain ⟨b, hlist⟩ := of_forms (.closeParen :: (kindsOf source ++ rest)) settled_insert.2.2.1
      hnames (by simp)
    have hrefused : ∀ k ∈ Kind.queryStarts, ¬ [.openParen, k] <+:
        kindsOf ([.token .openParen] ++ (names ++ [.token .closeParen])) ++
            (kindsOf source ++ rest) := by
      simp [Kind.queryStarts, kindsOf, Piece.kinds, hv]
    exact ⟨_, ifUnseen (sights_refused n hrefused) (.ifTrue eaten (.seq hlist .need))⟩
  · obtain ⟨k, v, hv, -, hparen | ⟨k, hk, hseen⟩⟩ := exists_cons_of_insertSource hsource
    · have hrefused : ∀ j ∈ Kind.queryStarts, ¬ [.openParen, j] <+: kindsOf source ++ rest := by
        simp [hv, hparen.symm]
      have hopen : Traces n (eat .openParen) [] false (kindsOf source ++ rest) :=
        unmet n (.token .openParen []) rfl (by simp [hv]) hparen
      exact ⟨_, ifUnseen (sights_refused n hrefused) (ifUnseen hopen .nothing)⟩
    · exact ⟨_, ifSeen (sights_seen n hk (hseen.trans (List.prefix_append _ rest))) .nothing⟩

theorem insertStatement_of_forms
    (hd : d ∈ Grammar.insertStatement.forms (Setting.upTo True n).forms)
    (hrest : rest.headD .eof ∉ Nest.stops .subquery) :
    ∃ b, Traces n Grammar.insertStatement d b rest := by
  obtain ⟨_, hinsert, _, htarget, -, rfl⟩ := mem_forms_seq.1 hd
  obtain ⟨into, hinto, _, hnamed, -, rfl⟩ := mem_forms_seq.1 htarget
  obtain ⟨name, hname, _, hfilled, -, rfl⟩ := mem_forms_seq.1 hnamed
  obtain ⟨columns, hcolumns, source, hsource, -, rfl⟩ := mem_forms_seq.1 hfilled
  rw [needWord, forms_need] at hinsert
  obtain rfl : _ = [Piece.token (.keyword .INSERT)] := hinsert
  obtain ⟨k, hk, v, hv⟩ := exists_cons_of_forms starts_insert.1 (by decide) hname
  obtain rfl := List.mem_singleton.1 hk
  have hdot : (kindsOf (columns ++ source) ++ rest).headD .eof ∉ [Kind.dot] := by
    have hcolumns := hcolumns
    rw [Grammar.forms_insertColumns] at hcolumns
    rcases hcolumns with ⟨_, rfl, _, _, rfl⟩ | rfl
    · simp [kindsOf, Piece.kinds]
    · obtain ⟨k, v, hv, hk, -⟩ := exists_cons_of_insertSource hsource
      simpa [hv] using hk
  obtain ⟨b₁, h₁⟩ := of_forms (kindsOf (name ++ (columns ++ source)) ++ rest) settled_insert.1 hinto
    (by simp [hv])
  obtain ⟨b₂, h₂⟩ := of_forms _ settled_insert.2.1 hname hdot
  obtain ⟨b₃, h₃⟩ := insertColumns_of_forms hcolumns hsource
  obtain ⟨b₄, h₄⟩ := of_forms rest settled_insert.2.2.2 hsource hrest
  exact ⟨_, .rule (.seq .need (.seq h₁ (.seq h₂ (.seq h₃ h₄))))⟩

end Inserts

section Scripts

theorem settled_statements :
    Nest.Settled Grammar.updateStatement (Nest.stops .subquery) ∧
      Nest.Settled Grammar.deleteStatement (Nest.stops .subquery) ∧
      Nest.Settled Grammar.selectStatement (Nest.stops .subquery) := by
  refine ⟨?_, ?_, Nest.settled_body .subquery⟩ <;> unfold Nest.Settled <;> decide +kernel

theorem starts_statements :
    Grammar.insertStatement.starts [.keyword .INSERT] = true ∧
      Grammar.updateStatement.starts [.keyword .UPDATE] = true ∧
      Grammar.deleteStatement.starts [.keyword .DELETE] = true ∧
      Grammar.statement.starts Kind.statementStarts = true := by
  decide +kernel

theorem statement_of_forms (hd : d ∈ Grammar.statement.forms (Setting.upTo True n).forms)
    (hrest : rest.headD .eof ∉ Nest.stops .subquery) :
    ∃ b, Traces n Grammar.statement d b rest := by
  have hsettled := settled_statements
  have hstarts := starts_statements
  have hskip (word : Keyword) {shape : Shape} {k : Kind} {d : List Piece} {v : List Kind}
      (hv : kindsOf d = k :: v) (h : k ≠ .keyword word) :
      Traces n (Grammar.starts? word) [] false (kindsOf [.group shape d] ++ rest) :=
    unmet n _ rfl (by simp [hv]) h
  have hturn (word : Keyword) {shape : Shape} {d : List Piece} {v : List Kind}
      (hv : kindsOf d = .keyword word :: v) :
      Traces n (Grammar.starts? word) [] true (kindsOf [.group shape d] ++ rest) :=
    .accept (by simp [Guard.kinds]) ⟨v ++ rest, by simp [Guard.kinds, Guard.width, hv]⟩
  rw [Grammar.forms_statement (Setting.callsOnly_upTo n)] at hd
  rcases hd with ((⟨d, hd, rfl⟩ | ⟨d, hd, rfl⟩) | ⟨d, hd, rfl⟩) | ⟨d, hd, rfl⟩
  · rw [← Grammar.forms_insertStatement] at hd
    obtain ⟨k, hk, v, hv⟩ := exists_cons_of_forms hstarts.1 (by decide) hd
    obtain rfl := List.mem_singleton.1 hk
    obtain ⟨b, htrace⟩ := insertStatement_of_forms hd hrest
    exact ⟨_, .rule (ifSeen (hturn .INSERT hv) (.node htrace))⟩
  · rw [← Grammar.forms_updateStatement] at hd
    obtain ⟨k, hk, v, hv⟩ := exists_cons_of_forms hstarts.2.1 (by decide) hd
    obtain rfl := List.mem_singleton.1 hk
    obtain ⟨b, htrace⟩ := of_forms rest hsettled.1 hd hrest
    exact ⟨_, .rule (ifUnseen (hskip .INSERT hv (by decide))
      (ifSeen (hturn .UPDATE hv) (.node htrace)))⟩
  · rw [← Grammar.forms_deleteStatement] at hd
    obtain ⟨k, hk, v, hv⟩ := exists_cons_of_forms hstarts.2.2.1 (by decide) hd
    obtain rfl := List.mem_singleton.1 hk
    obtain ⟨b, htrace⟩ := of_forms rest hsettled.2.1 hd hrest
    exact ⟨_, .rule (ifUnseen (hskip .INSERT hv (by decide))
      (ifUnseen (hskip .UPDATE hv (by decide)) (ifSeen (hturn .DELETE hv) (.node htrace))))⟩
  · rw [← Grammar.forms_selectStatement (Setting.callsOnly_upTo n)] at hd
    have hselect : Grammar.selectStatement.starts Kind.queryStarts = true := Nest.starts_subquery
    obtain ⟨k, hk, v, hv⟩ := exists_cons_of_forms hselect (by decide) hd
    have hquery : ∀ k ∈ Kind.queryStarts, k ≠ .keyword .INSERT ∧ k ≠ .keyword .UPDATE ∧
        k ≠ .keyword .DELETE := by
      decide
    obtain ⟨hinsert, hupdate, hdelete⟩ := hquery k hk
    obtain ⟨b, htrace⟩ := of_forms rest hsettled.2.2 hd hrest
    exact ⟨_, .rule (ifUnseen (hskip .INSERT hv hinsert) (ifUnseen (hskip .UPDATE hv hupdate)
      (ifUnseen (hskip .DELETE hv hdelete) (.node htrace))))⟩

theorem peeks_statementStarts :
    (anyBefore Kind.statementStarts).peeks? = some Kind.statementStarts := rfl

variable (n) in
theorem scriptItem_at_end : Traces n Grammar.scriptItem [] false [] :=
  ifUnseen (.refuse (by simp [Guard.kinds]))
    (ifUnseen (of_peeks peeks_statementStarts false (by simp)) .strayAtEnd)

theorem scriptItem_of_statement (hd : d ∈ Grammar.statement.forms (Setting.upTo True n).forms)
    (hrest : rest.headD .eof ∉ Nest.stops .subquery) : Traces n Grammar.scriptItem d true rest := by
  obtain ⟨b, htrace⟩ := statement_of_forms hd hrest
  obtain ⟨k, hk, v, hv⟩ := exists_cons_of_forms starts_statements.2.2.2 (by decide) hd
  have hsemicolon : k ≠ .semicolon := by
    rintro rfl
    exact absurd hk (by decide)
  have hstarts : true = true ↔ ∃ k ∈ Kind.statementStarts, (kindsOf d ++ rest).head? = some k := by
    simpa [hv] using hk
  exact ifUnseen (unmet n (.token .semicolon []) rfl (by simp [hv]) hsemicolon)
    (ifSeen (of_peeks peeks_statementStarts true hstarts) htrace)

theorem head_of_items {items : List (List Piece)}
    (h : ∀ item ∈ items,
      item ∈ (Production.kind .semicolon + Production.statement) (Setting.upTo True n)) :
    (kindsOf items.flatten).headD .eof ∉ Nest.stops .subquery := by
  have hstarts : ∀ k ∈ .eof :: .semicolon :: Kind.statementStarts, k ∉ Nest.stops .subquery := by
    decide +kernel
  cases items with
  | nil => exact hstarts .eof (by simp)
  | cons item items =>
      rcases h item (by simp) with rfl | hitem
      · exact hstarts .semicolon (by simp)
      · rw [← Grammar.forms_statement (Setting.callsOnly_upTo n)] at hitem
        obtain ⟨k, hk, v, hv⟩ := exists_cons_of_forms starts_statements.2.2.2 (by decide) hitem
        rw [List.flatten_cons, kindsOf_append, hv]
        exact hstarts k (by simp [hk])

theorem script_of_forms (hd : d ∈ Production.file (Setting.upTo True n)) :
    Traces n Grammar.script d false [] := by
  obtain ⟨items, rfl, hitems⟩ := Language.mem_kstar.1 hd
  clear hd
  refine .rule ?_
  induction items with
  | nil => exact .manyStop (scriptItem_at_end n)
  | cons item items ih =>
      have htail : ∀ item ∈ items,
          item ∈ (Production.kind .semicolon + Production.statement) (Setting.upTo True n) :=
        fun item hitem => hitems item (by simp [hitem])
      refine .manyMore ?_ (ih htail)
      rw [List.append_nil]
      rcases hitems item (by simp) with rfl | hitem
      · exact .ifTrue eaten .nothing
      · rw [← Grammar.forms_statement (Setting.callsOnly_upTo n)] at hitem
        exact scriptItem_of_statement hitem (head_of_items htail)

end Scripts

end Traces

theorem Runs.script_iff {n : Nat} {w : List Kind} :
    (∃ o b, Runs n Grammar.script (.text w) o b (.text [])) ↔
      w ∈ erase (Production.file (Setting.upTo True n)) := by
  constructor
  · rintro ⟨o, b, hrun⟩
    obtain ⟨w, hw, rfl⟩ := hrun.text (Nat.le_refl n)
    rwa [Grammar.text_script, ← List.append_nil w] at hw
  · rintro ⟨d, hd, rfl⟩
    obtain ⟨o, hrun⟩ := (Traces.script_of_forms hd).runs
    rw [List.append_nil] at hrun
    exact ⟨o, false, hrun⟩

end SqlAtlas

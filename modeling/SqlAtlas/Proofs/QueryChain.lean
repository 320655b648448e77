import SqlAtlas.Proofs.TokenShares

namespace SqlAtlas

namespace Query

variable {query : Query} {queries : List Query} {all : List Excerpt} {offset : Nat}

def Nests (outer inner : Query) : Prop := inner ∈ outer.commonTables ++ outer.subqueries

def around (offset : Nat) (query : Query) : List Query := query.all.filter (·.span.contains offset)

theorem flatMap_around (hapart : queries.Pairwise fun query other => query.span.Apart other.span)
    (hnone : ∀ query ∈ queries, query.span.contains offset = false → query.around offset = []) :
    queries.flatMap (around offset) =
      (queries.find? (·.span.contains offset)).elim [] (around offset) := by
  have hguard : queries.flatMap (around offset) =
      (queries.flatMap fun query =>
        if query.span.contains offset then [query.around offset] else []).flatten := by
    rw [List.flatMap_def, List.flatMap_def, List.flatten_flatten, List.map_map]
    refine congrArg List.flatten (List.map_congr_left fun query hquery => ?_)
    cases hcontains : query.span.contains offset with
    | true => rw [Function.comp_apply, if_pos hcontains, List.flatten_singleton]
    | false =>
        rw [hnone query hquery hcontains, Function.comp_apply, hcontains, if_neg Bool.false_ne_true,
          List.flatten_nil]
  rw [hguard, flatMap_of_apart (around offset) hapart]
  cases queries.find? (·.span.contains offset) <;> simp

theorem Shared.around_eq_nil (h : query.Shared all) (hout : query.span.contains offset = false) :
    query.around offset = [] := by
  refine List.filter_eq_nil_iff.2 fun child hchild hcontains => ?_
  rw [(h.of_mem_all hchild).2 offset hcontains] at hout
  cases hout

theorem Shared.around_eq (h : query.Shared all) (hin : query.span.contains offset = true) :
    query.around offset = query :: (query.childAt offset).elim [] (around offset) := by
  cases h with
  | mk _ hapart _ hshared =>
      rw [childAt_eq_find?, ← flatMap_around hapart fun child hchild =>
        (hshared child hchild).around_eq_nil, around, all_eq, List.filter_cons, if_pos hin,
        List.filter_flatMap]
      rfl

theorem Shared.around_chain (h : query.Shared all) (hin : query.span.contains offset = true) :
    (query.around offset).IsChain Nests ∧
    (query.around offset).getLast? = some (query.descend offset) := by
  induction h with
  | @mk query htokens hapart hinside hshared ih =>
      rw [(Shared.mk htokens hapart hinside hshared).around_eq hin, descend_eq]
      cases hchild : query.childAt offset with
      | none => simp
      | some child =>
          rw [childAt_eq_find?] at hchild
          have hmem := List.mem_of_find?_eq_some hchild
          have hcontains : child.span.contains offset = true := by
            simpa using List.find?_some hchild
          obtain ⟨hchain, hlast⟩ := ih child hmem hcontains
          rw [Option.elim_some, Option.map_some, Option.getD_some]
          rw [(hshared child hmem).around_eq hcontains] at hchain hlast ⊢
          exact ⟨.cons_cons hmem hchain, List.getLast?_cons_cons.trans hlast⟩

end Query

theorem Atlas.Shared.filter_contains {atlas : Atlas} {all : List Excerpt} (h : atlas.Shared all)
    (offset : Nat) :
    atlas.allQueries.filter (·.span.contains offset) =
      (atlas.queryAt offset).elim [] (Query.around offset) := by
  rw [h.queryAt, ← Query.flatMap_around (h.apart.imp Span.apart_of_lt) fun query hquery =>
    (h.queries query hquery).around_eq_nil, allQueries, List.filter_flatMap]
  rfl

theorem survey_chain_at (script : String) (offset : Nat) :
    let atlas := Dialect.generic.survey script
    let chain := atlas.allQueries.filter (·.span.contains offset)
    chain.IsChain (fun outer inner => inner ∈ outer.commonTables ++ outer.subqueries) ∧
    (∀ top ∈ chain.head?, top ∈ atlas.queries) ∧
    atlas.queryAt offset = chain.head? ∧ atlas.innermostAt offset = chain.getLast? ∧
    (atlas.queryAt offset = none ↔ chain = []) ∧
    (atlas.innermostAt offset = none ↔ chain = []) := by
  intro atlas chain
  have hshared : atlas.Shared (Dialect.worded script) := shared_survey script
  have hchain : chain = (atlas.queryAt offset).elim [] (Query.around offset) :=
    hshared.filter_contains offset
  cases hfind : atlas.queries.find? (·.span.contains offset) with
  | none =>
      have hat : atlas.queryAt offset = none := hshared.queryAt.trans hfind
      have hnil : chain = [] := by rw [hchain, hat, Option.elim_none]
      have hin : atlas.innermostAt offset = none := by
        rw [hshared.innermostAt, hfind, Option.map_none]
      simp [hnil, hat, hin]
  | some top =>
      have htop := List.mem_of_find?_eq_some hfind
      have hcontains : top.span.contains offset = true := by simpa using List.find?_some hfind
      have hat : atlas.queryAt offset = some top := hshared.queryAt.trans hfind
      have hin : atlas.innermostAt offset = some (top.descend offset) := by
        rw [hshared.innermostAt, hfind, Option.map_some]
      have haround : chain = top.around offset := by rw [hchain, hat, Option.elim_some]
      obtain ⟨hlinks, hlast⟩ := (hshared.queries top htop).around_chain hcontains
      have hhead : chain.head? = some top := by
        rw [haround, (hshared.queries top htop).around_eq hcontains, List.head?_cons]
      refine ⟨haround ▸ hlinks, ?_, hat.trans hhead.symm, ?_, ?_, ?_⟩
      · rw [hhead]
        rintro _ ⟨⟩
        exact htop
      · rw [hin, haround, hlast]
      · simp [hat, ← List.head?_eq_none_iff, hhead]
      · simp [hin, ← List.head?_eq_none_iff, hhead]

end SqlAtlas

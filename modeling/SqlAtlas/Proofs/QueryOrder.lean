import SqlAtlas.Proofs.Supersession
import SqlAtlas.Proofs.TokenShares

namespace SqlAtlas

@[simp] theorem Construct.shape_map {ν μ : Type} (f : ν → μ) (construct : Construct ν) :
    (construct.map f).shape = construct.shape := by
  cases construct <;> rfl

theorem Node.Leads.map {ν μ σ τ : Type} {f : ν → μ} {g : σ → τ} {node next : Node ν σ}
    (h : node.Leads next) :
    (node.map f g).Leads (next.map f g) := by
  simpa only [Node.Leads, Node.construct_map, Construct.shape_map] using h

structure Tree.Led (script : String) (tokens : List (Token Kind)) (construct : Construct String)
    (span : Span) (children : List Tree) :
    Prop extends Tree.Shaped script tokens construct span children where
  led : children.Pairwise Node.Leads

theorem roots_led {script : String} {tokens : List (Token Kind)} {last : Token Kind}
    (hspread : Token.Spread script tokens) (hlast : last.kind = .eof) {tree : Tree}
    (htree : tree ∈ (Dialect.generic.parse script (tokens ++ [last])).trees) :
    tree.All (Tree.Led script (tokens ++ [last])) :=
  roots_all hlast (fun _ _ _ h hlast =>
    ⟨h.shaped hspread hlast, List.pairwise_map.2 (h.led.imp Node.Leads.map)⟩) htree

namespace Draft

section Lined

variable {script : String} {tokens : List (Token Kind)} {draft : Draft}
  {parent? : Option Nat} {next : Nat}

theorem mem_ofTrees {trees : List Tree} (h : draft ∈ ofTrees parent? next trees) :
    ∃ tree ∈ trees, ∃ next, draft ∈ ofTree parent? next tree := by
  induction trees generalizing next with
  | nil => cases h
  | cons tree trees ih =>
      rcases List.mem_append.1 h with h | h
      · exact ⟨tree, List.mem_cons_self, next, h⟩
      · obtain ⟨tree, htree, hdraft⟩ := ih h
        exact ⟨tree, List.mem_cons_of_mem _ htree, hdraft⟩

theorem isCommonTable_ofTree {tree : Tree} (h : tree.All (Tree.Led script tokens))
    (hdraft : draft ∈ ofTree parent? next tree) :
    draft.isCommonTable = true ↔ tree.construct.shape = .commonTable := by
  cases h with
  | @node construct span children hnode hchildren =>
      rw [ofTree] at hdraft
      cases construct with
      | table name alias? =>
          rw [(hnode.table name alias? rfl).1] at hdraft
          cases hdraft
      | derived alias? =>
          obtain ⟨child, hchild, next, hdraft⟩ := mem_ofTrees hdraft
          have hsubquery := (hnode.derived alias? rfl).2 child hchild
          obtain ⟨construct, span, children⟩ := child
          obtain rfl : construct = .subquery := hsubquery
          rw [ofTree] at hdraft
          rw [List.mem_singleton.1 hdraft]
          simp [isCommonTableOf, Node.construct, Construct.shape]
      | statement _ | subquery | commonTable =>
          rw [List.mem_singleton.1 hdraft]
          simp [isCommonTableOf, Node.construct, Construct.shape]

theorem led_ofTrees {trees : List Tree} (htrees : ∀ tree ∈ trees, tree.All (Tree.Led script tokens))
    (hled : trees.Pairwise Node.Leads) (parent? : Option Nat) (next : Nat) :
    (ofTrees parent? next trees).Pairwise fun draft other =>
      other.isCommonTable = true → draft.isCommonTable = true := by
  induction trees generalizing next with
  | nil => exact .nil
  | cons tree trees ih =>
      obtain ⟨hfirst, hrest⟩ := List.pairwise_cons.1 hled
      have htree := htrees tree List.mem_cons_self
      refine List.pairwise_append.2
        ⟨?_, ih (fun tree h => htrees tree (List.mem_cons_of_mem _ h)) hrest _, ?_⟩
      · refine List.pairwise_of_forall_mem_list fun draft hdraft other hother htable => ?_
        exact (isCommonTable_ofTree htree hdraft).2 ((isCommonTable_ofTree htree hother).1 htable)
      · intro draft hdraft other hother htable
        obtain ⟨later, hlater, next, hother⟩ := mem_ofTrees hother
        have hshape := (isCommonTable_ofTree (htrees later (List.mem_cons_of_mem _ hlater))
          hother).1 htable
        exact (isCommonTable_ofTree htree hdraft).2 (hfirst later hlater hshape)

def Opened (tokens : List (Token Kind)) (draft : Draft) : Prop :=
  ∃ token ∈ tokens, token.kind ≠ .eof ∧ token.span.start = draft.span.start

structure Lined (tokens : List (Token Kind)) (lo hi next count : Nat) (drafts : List Draft) :
    Prop where
  ids : (allIn drafts).map Draft.id = List.range' next count
  within : ∀ draft ∈ allIn drafts, lo ≤ draft.span.start ∧ draft.span.start ≤ draft.span.stop ∧
    draft.span.stop ≤ hi
  starts : (allIn drafts).Pairwise fun draft other => draft.span.start < other.span.start
  opened : ∀ draft ∈ allIn drafts, draft.Opened tokens

theorem adjoins_lined (tokens : List (Token Kind)) : Adjoins (Lined tokens) where
  nil _ _ _ := ⟨rfl, by simp [allIn], .nil, by simp [allIn]⟩
  append {lo mid hi next count more drafts drafts'} h₁ h₂ hlo hhi := by
    have hall : allIn (drafts ++ drafts') = allIn drafts ++ allIn drafts' := by
      rw [allIn_eq_flatMap, List.flatMap_append, ← allIn_eq_flatMap, ← allIn_eq_flatMap]
    refine ⟨?_, ?_, ?_, ?_⟩ <;> rw [hall]
    · rw [List.map_append, h₁.ids, h₂.ids, List.range'_append_1]
    · intro draft hdraft
      rcases List.mem_append.1 hdraft with hdraft | hdraft
      · have hbounds := h₁.within draft hdraft
        omega
      · have hbounds := h₂.within draft hdraft
        omega
    · refine List.pairwise_append.2 ⟨h₁.starts, h₂.starts, fun draft hdraft other hother => ?_⟩
      have hbounds := h₁.within draft hdraft
      have hlater := h₂.within other hother
      omega
    · exact fun draft hdraft => (List.mem_append.1 hdraft).elim (h₁.opened draft) (h₂.opened draft)
  widen h hlo := ⟨h.ids, fun draft hdraft =>
    ⟨Nat.le_trans hlo (h.within draft hdraft).1, (h.within draft hdraft).2⟩, h.starts, h.opened⟩

theorem Lined.query (draft : Draft) {inner : List Draft} {count : Nat}
    (h : Lined tokens (draft.span.start + 1) draft.span.stop (draft.id + 1) count inner)
    (hinner : draft.commonTables ++ draft.subqueries = inner)
    (hcovers : draft.span.start ≤ draft.span.stop) (hopened : draft.Opened tokens) :
    Lined tokens draft.span.start draft.span.stop draft.id (1 + count) [draft] := by
  have hall : allIn [draft] = draft :: allIn inner := by
    rw [allIn, allIn, List.append_nil, all_eq, hinner, allIn_eq_flatMap]
  refine ⟨?_, ?_, ?_, ?_⟩ <;> rw [hall]
  · rw [List.map_cons, h.ids, Nat.add_comm 1, List.range'_succ]
  · refine List.forall_mem_cons.2 ⟨⟨Nat.le_refl _, hcovers, Nat.le_refl _⟩, fun child hchild => ?_⟩
    have hbounds := h.within child hchild
    omega
  · exact .cons (fun child hchild => (h.within child hchild).1) h.starts
  · exact List.forall_mem_cons.2 ⟨hopened, h.opened⟩

theorem lined_ofScript {trees : List Tree}
    (hled : ∀ tree ∈ trees, tree.All (Tree.Led script tokens))
    (hapart : trees.Pairwise fun tree next => tree.extent.stop < next.extent.start) :
    Lined tokens 0 ((trees.map fun tree => tree.extent.stop).max?.getD 0) 0 (countAll trees)
      (ofScript trees) := by
  refine (adjoins_lined tokens).roots (fun h => h.toShaped) ?_ hled hapart
  intro construct span children type parent? next hnode hchildren _ hinner
  refine Lined.query ⟨next, _, type, span, parent?, _, _, _⟩ hinner ?_ hnode.start_le_stop ?_
  · exact filter_append_filter_not (led_ofTrees hchildren hnode.led (some next) (next + 1))
  · obtain ⟨i, -, first, last, -, hfirst, -, hplain, -, rfl⟩ := hnode.reach
    exact ⟨first, List.mem_of_getElem? hfirst, hplain, rfl⟩

end Lined

def name? (tokens : List Excerpt) (draft : Draft) : Option String :=
  (tokens.find? (draft.span.contains ·.span.start)).map fun token => Identifier.unquote token.text

theorem Nested.of_mem_all {draft inner : Draft} (h : draft.Nested) (hinner : inner ∈ draft.all) :
    inner.Nested := by
  induction h with
  | @mk draft hapart hinside hnested ih =>
      rw [all_eq] at hinner
      rcases List.mem_cons.1 hinner with rfl | hinner
      · exact .mk hapart hinside hnested
      · obtain ⟨child, hchild, hinner⟩ := List.mem_flatMap.1 hinner
        exact ih child hchild hinner

theorem Spread.nested_of_mem {lo hi : Nat} {drafts : List Draft} {draft : Draft}
    (h : Spread lo hi drafts) (hdraft : draft ∈ allIn drafts) : draft.Nested := by
  rw [allIn_eq_flatMap] at hdraft
  obtain ⟨top, htop, hdraft⟩ := List.mem_flatMap.1 hdraft
  exact (h.nested top htop).of_mem_all hdraft

theorem mem_allIn_of_child {drafts : List Draft} {draft child : Draft}
    (hdraft : draft ∈ allIn drafts) (hchild : child ∈ draft.commonTables ++ draft.subqueries) :
    child ∈ allIn drafts := by
  rw [allIn_eq_flatMap] at hdraft ⊢
  obtain ⟨top, htop, hdraft⟩ := List.mem_flatMap.1 hdraft
  exact List.mem_flatMap.2 ⟨top, htop, mem_all_of_child hdraft hchild⟩

end Draft

namespace Query

variable {query : Query} {draft : Draft} {all : List Excerpt}

def place (query : Query) : Nat × Span := (query.id, query.span)

theorem map_place_all {query other : Query} (hplace : query.place = other.place)
    (hcommon : query.commonTables = other.commonTables)
    (hothers : query.subqueries = other.subqueries) :
    query.all.map place = other.all.map place := by
  rw [all_eq, all_eq other, List.map_cons, List.map_cons, hplace, hcommon, hothers]

theorem map_place_resolve (h : ∀ inner ∈ query.all, (inner.commonTables.map title).Nodup) :
    query.resolve.all.map place = query.all.map place := by
  induction query using Query.induct with
  | step query ih =>
      have hcommon : query.resolve.commonTables = query.commonTables.map fun child =>
          child.resolve.named := by
        have htitles : ((query.commonTables.map resolve).map title).Nodup := by
          simpa only [List.map_map, Function.comp_def, title_resolve]
            using h query (self_mem_all query)
        rw [resolve_eq, nameAll_of_nodup htitles, List.map_map]
        rfl
      have hchild (child : Query) (hchild : child ∈ query.commonTables ++ query.subqueries) :
          child.resolve.all.map place = child.all.map place :=
        ih child hchild fun inner hinner => h inner (by
          rw [all_eq]
          exact List.mem_cons_of_mem _ (List.mem_flatMap.2 ⟨child, hchild, hinner⟩))
      have hnamed (child : Query) :
          child.resolve.named.all.map place = child.resolve.all.map place :=
        map_place_all rfl rfl rfl
      rw [all_eq, all_eq query, List.map_cons, List.map_cons, List.map_flatMap,
        List.map_flatMap, hcommon, subqueries_resolve, List.flatMap_append, List.flatMap_append,
        List.flatMap_map, List.flatMap_map]
      simp only [hnamed]
      rw [← List.flatMap_append, ← List.flatMap_append, List.flatMap_congr hchild, place,
        place, id_resolve, span_resolve]

theorem all_ofShare (hnested : draft.Nested) (all : List Excerpt) :
    (ofShare all draft).all = draft.all.map (ofShare all) := by
  induction hnested with
  | @mk draft hapart hinside hnested ih =>
      obtain ⟨hcommon, hothers⟩ := children_ofShare (.mk hapart hinside hnested) all
      rw [all_eq, Draft.all_eq, hcommon, hothers, List.map_cons, ← List.map_append,
        List.flatMap_map, List.map_flatMap, List.flatMap_congr ih]

theorem name?_eq_title (hcovers : draft.span.start ≤ draft.span.stop)
    (hopened : ∃ token ∈ all, token.span.start = draft.span.start) :
    draft.name? all = some (ofShare all draft).title := by
  obtain ⟨token, htoken, hstart⟩ := hopened
  rw [title, ofShare, tokens_held, List.head?_filter, Draft.name?]
  cases hfind : all.find? (draft.span.contains ·.span.start) with
  | none =>
      have hin : draft.span.contains token.span.start = true :=
        Span.contains_iff.2 ⟨Nat.le_of_eq hstart.symm, hstart ▸ hcovers⟩
      exact absurd hin (List.find?_eq_none.1 hfind token htoken)
  | some first => rfl

theorem nodup_titles (hnested : draft.Nested)
    (hcovers : ∀ child ∈ draft.commonTables, child.span.start ≤ child.span.stop)
    (hopened : ∀ child ∈ draft.commonTables, ∃ token ∈ all, token.span.start = child.span.start)
    (hnames : (draft.commonTables.map (Draft.name? all)).Nodup) :
    ((ofShare all draft).commonTables.map title).Nodup := by
  have htitles : draft.commonTables.map (Draft.name? all) =
      ((ofShare all draft).commonTables.map title).map some := by
    rw [(children_ofShare hnested all).1, List.map_map, List.map_map]
    exact List.map_congr_left fun child hchild =>
      name?_eq_title (hcovers child hchild) (hopened child hchild)
  rw [htitles] at hnames
  exact hnames.of_map some

end Query

namespace Atlas

variable {drafts : List Draft} {lo hi lo' hi' : Nat} {tokens : List Excerpt}

theorem map_place_settled (hspread : Draft.Spread lo hi drafts)
    (hnumbered : Draft.Numbered lo' hi' drafts)
    (htitles : ∀ draft ∈ Draft.allIn drafts,
      ((Query.ofShare tokens draft).commonTables.map Query.title).Nodup)
    (diagnoses : List Diagnosis) :
    (settled drafts tokens diagnoses).allQueries.map Query.place =
      (Draft.allIn drafts).map fun draft => (draft.id, draft.span) := by
  rw [Draft.allIn_eq_flatMap] at htitles ⊢
  rw [allQueries, settled, binding, List.flatMap_map, List.map_flatMap, List.map_flatMap]
  refine List.flatMap_congr fun draft hdraft => ?_
  rw [shareOf_eq hspread hnumbered hdraft]
  calc ((Query.ofShare tokens draft).resolve.faulted
    (shareOf (faultTarget drafts) draft diagnoses)).all.map Query.place
    _ = (Query.ofShare tokens draft).resolve.all.map Query.place := Query.map_place_all rfl rfl rfl
    _ = (Query.ofShare tokens draft).all.map Query.place := by
        refine Query.map_place_resolve fun inner hinner => ?_
        rw [Query.all_ofShare (hspread.nested draft hdraft)] at hinner
        obtain ⟨origin, horigin, rfl⟩ := List.mem_map.1 hinner
        exact htitles origin (List.mem_flatMap.2 ⟨draft, hdraft, horigin⟩)
    _ = draft.all.map fun draft => (draft.id, draft.span) :=
        Query.map_all_held (fun tokens draft => by rw [Query.place, Query.id_held, Query.span_held])
          _ draft

end Atlas

section Survey

variable (script : String)

theorem lined_drafts :
    let tokens := (Dialect.generic.lex script).tokens
    ∃ hi, Draft.Lined tokens 0 hi 0 (Draft.countAll (Dialect.generic.parse script tokens).trees)
      (Dialect.generic.drafts script) := by
  obtain ⟨tokens, htokens, hspread⟩ := lex_spread script
  have hlex : (Dialect.generic.lex script).tokens = tokens ++ [endToken script.toList] := htokens
  rw [Reader.drafts, hlex]
  exact ⟨_, Draft.lined_ofScript (fun tree htree => roots_led hspread rfl htree)
    (roots_apart hspread rfl)⟩

theorem exists_first_token {draft : Draft} (h : draft.Opened (Dialect.generic.lex script).tokens) :
    ∃ token ∈ Dialect.generic.tokens script, token.span.start = draft.span.start := by
  obtain ⟨token, htoken, hplain, hstart⟩ := h
  refine ⟨⟨token.span, token.text script⟩, ?_, hstart⟩
  rw [Reader.tokens, excerpts_lex]
  exact List.mem_map_of_mem (List.mem_filter.2 ⟨htoken, decide_eq_true hplain⟩)

end Survey

theorem survey_in_source_order (script : String)
    (hnames : ∀ draft ∈ Draft.allIn (Dialect.generic.drafts script),
      (draft.commonTables.map (Draft.name? (Dialect.generic.tokens script))).Nodup) :
    let trees := (Dialect.generic.parse script (Dialect.generic.lex script).tokens).trees
    let queries := (Dialect.generic.survey script).allQueries
    queries.map Query.id = List.range (Draft.countAll trees) ∧
      queries.Pairwise fun query next => query.span.start < next.span.start := by
  intro trees queries
  obtain ⟨hi, hspread⟩ := spread_drafts script
  obtain ⟨hi', hlined⟩ := lined_drafts script
  have htitles : ∀ draft ∈ Draft.allIn (Dialect.generic.drafts script),
      ((Query.ofShare (Dialect.generic.tokens script) draft).commonTables.map
          Query.title).Nodup := by
    intro draft hdraft
    have hmem (child : Draft) (hchild : child ∈ draft.commonTables) :
        child ∈ Draft.allIn (Dialect.generic.drafts script) :=
      Draft.mem_allIn_of_child hdraft (List.mem_append_left _ hchild)
    exact Query.nodup_titles (hspread.nested_of_mem hdraft)
      (fun child hchild => (hlined.within child (hmem child hchild)).2.1)
      (fun child hchild => exists_first_token script (hlined.opened child (hmem child hchild)))
      (hnames draft hdraft)
  have hplaces : queries.map Query.place =
      (Draft.allIn (Dialect.generic.drafts script)).map fun draft => (draft.id, draft.span) :=
    (congrArg (fun atlas => atlas.allQueries.map Query.place)
      (Dialect.generic.survey_eq_settled script)).trans
      (Atlas.map_place_settled hspread (Draft.numbered_ofScript _) htitles _)
  have hids : queries.map Query.id = List.range' 0 (Draft.countAll trees) := by
    have hfirsts := congrArg (List.map Prod.fst) hplaces
    rw [List.map_map, List.map_map] at hfirsts
    exact hfirsts.trans hlined.ids
  have hstarts : (queries.map Query.place).Pairwise fun place next =>
      place.2.start < next.2.start := by
    rw [hplaces]
    exact List.pairwise_map.2 hlined.starts
  exact ⟨hids.trans List.range_eq_range'.symm, (List.pairwise_map.1 hstarts :)⟩

theorem survey_in_source_order_nested :
    let script :=
      "WITH a AS (WITH c AS (SELECT 1) SELECT 2), b AS (SELECT 3) SELECT (SELECT 4) FROM a; DELETE b"
    let queries := (Dialect.generic.survey script).allQueries
    queries.map Query.id = [0, 1, 2, 3, 4, 5] ∧
      queries.Pairwise fun query next => query.span.start < next.span.start := by
  intro script queries
  obtain ⟨hids, hstarts⟩ := survey_in_source_order script (by decide +kernel)
  exact ⟨hids.trans (by decide +kernel), hstarts⟩

end SqlAtlas

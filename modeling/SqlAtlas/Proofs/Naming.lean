import Mathlib.Data.List.Pairwise
import SqlAtlas.Proofs.Keyed
import SqlAtlas.Query

namespace SqlAtlas

namespace Query

variable {query child : Query} {queries : List Query}

theorem putBy_eq_put {κ : Type} [DecidableEq κ] (key : Query → κ) (query : Query)
    (queries : List Query) :
    query.putBy key queries = Keyed.put key (fun _ later => later) query queries := by
  induction queries with
  | nil => rfl
  | cons first rest ih => rw [putBy, Keyed.put, ih]

def survivors (nameOf : Query → String) (queries : List Query) : List Query :=
  ((queries.map nameOf).eraseDups).filterMap fun name => (queries.filter (nameOf · = name)).getLast?

theorem names_named (queries : List Query) :
    (queries.map named).map name? = (queries.map title).map some := by
  rw [List.map_map, List.map_map]
  rfl

theorem nameAll_of_nodup (h : (queries.map title).Nodup) : nameAll queries = queries.map named := by
  have hnames : ((queries.map named).map name?).Nodup := by
    rw [names_named]
    exact h.map fun _ _ => Option.some.inj
  rw [nameAll]
  simp only [putBy_eq_put]
  exact Keyed.foldl_put_of_nodup hnames

theorem nameAll_eq (queries : List Query) :
    nameAll queries = (survivors title queries).map named := by
  have hmerged : nameAll queries = Keyed.merged Query.name? (fun _ later => later)
      (queries.map named) := by
    rw [nameAll]
    simp only [putBy_eq_put]
    exact Keyed.foldl_put (fun _ _ _ => rfl) _
  rw [hmerged, Keyed.merged, names_named, Keyed.eraseDups_map (fun _ _ _ _ => Option.some.inj),
    List.filterMap_map, survivors, List.map_filterMap]
  refine List.filterMap_congr fun name _ => ?_
  rw [Function.comp_apply, Keyed.gathered?, Keyed.joined?_later, List.filter_map, List.getLast?_map]
  simp only [Function.comp_def, named, Option.some.injEq]

theorem mem_of_mem_survivors (h : query ∈ survivors title queries) : query ∈ queries := by
  obtain ⟨name, -, hlast⟩ := List.mem_filterMap.1 h
  exact List.mem_of_mem_filter (List.mem_of_getLast? hlast)

theorem pairwise_survivors {R : Query → Query → Prop}
    (hsymm : ∀ {child other}, R child other → R other child) (h : queries.Pairwise R) :
    (survivors title queries).Pairwise R := by
  refine List.pairwise_filterMap.2 ((Keyed.nodup_eraseDups _).imp fun {name name'} hne => ?_)
  intro child hchild other hother
  obtain ⟨hchild, hname⟩ := List.mem_filter.1 (List.mem_of_getLast? hchild)
  obtain ⟨hother, hname'⟩ := List.mem_filter.1 (List.mem_of_getLast? hother)
  have hdiffer : child ≠ other := by
    rintro rfl
    exact hne ((of_decide_eq_true hname).symm.trans (of_decide_eq_true hname'))
  have : Std.Symm R := ⟨fun _ _ => hsymm⟩
  exact h.forall hchild hother hdiffer

theorem resolve_eq (query : Query) :
    query.resolve = { query with
      commonTables := nameAll (query.commonTables.map resolve)
      subqueries := query.subqueries.map resolve } := by
  have hall (queries : List Query) : resolveAll queries = queries.map resolve := by
    induction queries with
    | nil => rfl
    | cons query queries ih => rw [resolveAll, ih, List.map_cons]
  cases query
  rw [resolve, hall, hall]

@[simp] theorem id_resolve (query : Query) : query.resolve.id = query.id := by
  rw [resolve_eq]

@[simp] theorem span_resolve (query : Query) : query.resolve.span = query.span := by
  rw [resolve_eq]

@[simp] theorem tokens_resolve (query : Query) : query.resolve.tokens = query.tokens := by
  rw [resolve_eq]

@[simp] theorem diagnoses_resolve (query : Query) : query.resolve.diagnoses = query.diagnoses := by
  rw [resolve_eq]

@[simp] theorem title_resolve (query : Query) : query.resolve.title = query.title := by
  rw [title, label, tokens_resolve, id_resolve]
  rfl

theorem survivors_resolve (queries : List Query) :
    survivors title (queries.map resolve) = (survivors title queries).map resolve := by
  simp only [survivors, List.map_map, List.map_filterMap, List.filter_map, List.getLast?_map,
    Function.comp_def, title_resolve]

theorem commonTables_resolve (query : Query) :
    query.resolve.commonTables = (survivors title query.commonTables).map fun child =>
      child.resolve.named := by
  rw [resolve_eq, nameAll_eq, survivors_resolve, List.map_map]
  rfl

theorem subqueries_resolve (query : Query) :
    query.resolve.subqueries = query.subqueries.map resolve := by
  rw [resolve_eq]

theorem exists_origin_of_mem_resolve
    (h : child ∈ query.resolve.commonTables ++ query.resolve.subqueries) :
    ∃ origin ∈ query.commonTables ++ query.subqueries,
      child = origin.resolve.named ∨ child = origin.resolve := by
  rw [commonTables_resolve, subqueries_resolve] at h
  rcases List.mem_append.1 h with h | h
  · obtain ⟨origin, horigin, rfl⟩ := List.mem_map.1 h
    exact ⟨origin, List.mem_append_left _ (mem_of_mem_survivors horigin), .inl rfl⟩
  · obtain ⟨origin, horigin, rfl⟩ := List.mem_map.1 h
    exact ⟨origin, List.mem_append_right _ horigin, .inr rfl⟩

theorem pairwise_resolve {α : Type} (view : Query → α) {R : α → α → Prop}
    (hsymm : ∀ {a b}, R a b → R b a) (hnamed : ∀ query, view query.named = view query)
    (hresolve : ∀ query, view query.resolve = view query)
    (h : (query.commonTables ++ query.subqueries).Pairwise fun child other =>
      R (view child) (view other)) :
    (query.resolve.commonTables ++ query.resolve.subqueries).Pairwise
      fun child other => R (view child) (view other) := by
  obtain ⟨hcommon, hothers, hcross⟩ := List.pairwise_append.1 h
  rw [commonTables_resolve, subqueries_resolve]
  refine List.pairwise_append.2 ⟨List.pairwise_map.2 ?_, List.pairwise_map.2 ?_, ?_⟩
  · simpa only [hnamed, hresolve] using pairwise_survivors hsymm hcommon
  · simpa only [hresolve] using hothers
  · intro child hchild other hother
    obtain ⟨origin, horigin, rfl⟩ := List.mem_map.1 hchild
    obtain ⟨second, hsecond, rfl⟩ := List.mem_map.1 hother
    rw [hnamed, hresolve, hresolve]
    exact hcross origin (mem_of_mem_survivors horigin) second hsecond

end Query

end SqlAtlas

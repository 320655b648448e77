import SqlAtlas.Proofs.Assignment

namespace SqlAtlas

namespace Query

variable {query child inner origin lost : Query} {queries trees : List Query}

theorem self_mem_all (query : Query) : query ∈ query.all := by
  rw [all_eq]
  exact List.mem_cons_self

theorem mem_all_trans (hchild : child ∈ query.all) (hinner : inner ∈ child.all) :
    inner ∈ query.all := by
  induction query using Query.induct with
  | step query ih =>
      rw [all_eq] at hchild
      rcases List.mem_cons.1 hchild with rfl | hchild
      · exact hinner
      · obtain ⟨next, hnext, hchild⟩ := List.mem_flatMap.1 hchild
        rw [all_eq]
        exact List.mem_cons_of_mem _ (List.mem_flatMap.2 ⟨next, hnext, ih next hnext hchild⟩)

theorem mem_below (hinner : inner ∈ query.all)
    (hchild : child ∈ inner.commonTables ++ inner.subqueries) :
    child ∈ (query.commonTables ++ query.subqueries).flatMap all := by
  rw [all_eq] at hinner
  rcases List.mem_cons.1 hinner with rfl | hinner
  · exact List.mem_flatMap.2 ⟨child, hchild, self_mem_all child⟩
  · obtain ⟨next, hnext, hinner⟩ := List.mem_flatMap.1 hinner
    refine List.mem_flatMap.2 ⟨next, hnext, mem_all_trans hinner ?_⟩
    rw [all_eq]
    exact List.mem_cons_of_mem _ (List.mem_flatMap.2 ⟨child, hchild, self_mem_all child⟩)

theorem ids_heldAll (tokens : List Excerpt) (drafts : List Draft) :
    (heldAll tokens drafts).1.map Query.id = drafts.map Draft.id := by
  induction drafts generalizing tokens with
  | nil => rfl
  | cons draft drafts ih => rw [heldAll, List.map_cons, List.map_cons, ih, id_held]

theorem shape_held (tokens : List Excerpt) (draft : Draft) :
    ((held tokens draft).id, (held tokens draft).commonTables.map Query.id,
        (held tokens draft).subqueries.map Query.id) =
      (draft.id, draft.commonTables.map Draft.id, draft.subqueries.map Draft.id) := by
  rw [id_held, commonTables_held, subqueries_held, ids_heldAll, ids_heldAll]

section Alike

def Alike (left right : Query) : Prop :=
  left.id = right.id ∧ left.commonTables = right.commonTables ∧ left.subqueries = right.subqueries

theorem alike_named (query : Query) : query.named.Alike query := ⟨rfl, rfl, rfl⟩

theorem alike_faulted (diagnoses : List Diagnosis) (query : Query) :
    (query.faulted diagnoses).Alike query :=
  ⟨rfl, rfl, rfl⟩

theorem Alike.ids {left right : Query} (h : left.Alike right) :
    left.all.map Query.id = right.all.map Query.id := by
  obtain ⟨hid, hcommon, hothers⟩ := h
  rw [all_eq, all_eq right, List.map_cons, List.map_cons, hid, hcommon, hothers]

theorem ids_resolve (query : Query) : query.resolve.all.map Query.id =
    query.id :: (survivors title query.commonTables ++ query.subqueries).flatMap
      fun child => child.resolve.all.map Query.id := by
  rw [all_eq, List.map_cons, id_resolve, List.map_flatMap, commonTables_resolve, subqueries_resolve,
    List.flatMap_append, List.flatMap_append, List.flatMap_map, List.flatMap_map]
  simp only [(alike_named _).ids]

theorem ids_resolve_subset (query : Query) :
    query.resolve.all.map Query.id ⊆ query.all.map Query.id := by
  induction query using Query.induct with
  | step query ih =>
      rw [ids_resolve, all_eq, List.map_cons, List.map_flatMap]
      refine List.cons_subset_cons _ fun id hid => ?_
      obtain ⟨child, hchild, hid⟩ := List.mem_flatMap.1 hid
      have hmem : child ∈ query.commonTables ++ query.subqueries :=
        List.mem_append.2 ((List.mem_append.1 hchild).imp_left mem_of_mem_survivors)
      exact List.mem_flatMap.2 ⟨child, hmem, ih child hmem hid⟩

end Alike

structure Reduced (nameOf : Query → String) (origin query : Query) : Prop where
  same : query.id = origin.id
  commonTables : query.commonTables.map (fun child => (child.name?, child.id)) =
    (survivors nameOf origin.commonTables).map fun child => (some (nameOf child), child.id)
  subqueries : query.subqueries.map Query.id = origin.subqueries.map Query.id

theorem Alike.reduced (h : child.Alike query.resolve) : Reduced title query child := by
  obtain ⟨hid, hcommon, hothers⟩ := h
  refine ⟨hid.trans (id_resolve query), ?_, ?_⟩
  · rw [hcommon, commonTables_resolve, List.map_map]
    refine List.map_congr_left fun child _ => ?_
    simp [named]
  · rw [hothers, subqueries_resolve, List.map_map]
    exact List.map_congr_left fun child _ => id_resolve child

theorem exists_reduced (h : child.Alike query.resolve) (hinner : inner ∈ child.all) :
    ∃ origin ∈ query.all, Reduced title origin inner := by
  induction query using Query.induct generalizing child with
  | step query ih =>
      rw [all_eq] at hinner
      rcases List.mem_cons.1 hinner with rfl | hinner
      · exact ⟨query, self_mem_all query, h.reduced⟩
      · obtain ⟨-, hcommon, hothers⟩ := h
        obtain ⟨next, hnext, hinner⟩ := List.mem_flatMap.1 hinner
        rw [hcommon, hothers] at hnext
        obtain ⟨old, hold, hkept⟩ := exists_origin_of_mem_resolve hnext
        have halike : next.Alike old.resolve := by
          rcases hkept with rfl | rfl
          · exact alike_named _
          · exact ⟨rfl, rfl, rfl⟩
        obtain ⟨origin, horigin, hreduced⟩ := ih old hold halike hinner
        refine ⟨origin, ?_, hreduced⟩
        rw [all_eq]
        exact List.mem_cons_of_mem _ (List.mem_flatMap.2 ⟨old, hold, horigin⟩)

def Superseded (nameOf : Query → String) (queries : List Query) (lost : Query) : Prop :=
  ∃ front back, queries = front ++ lost :: back ∧ ∃ later ∈ back, nameOf later = nameOf lost

def LostIn (nameOf : Query → String) (queries : List Query) (origin : Query) : Prop :=
  ∃ parent ∈ queries, ∃ lost, Superseded nameOf parent.commonTables lost ∧ origin ∈ lost.all

theorem Superseded.mem {nameOf : Query → String} (h : Superseded nameOf queries lost) :
    lost ∈ queries := by
  obtain ⟨front, back, rfl, -⟩ := h
  exact List.mem_append_right _ List.mem_cons_self

theorem mem_survivors_iff_getLast? (hmem : query ∈ queries) :
    query ∈ survivors title queries ↔ (queries.filter (·.title = query.title)).getLast? =
      some query := by
  rw [survivors, List.mem_filterMap]
  constructor
  · rintro ⟨name, -, hlast⟩
    have htitle := (List.mem_filter.1 (List.mem_of_getLast? hlast)).2
    rwa [of_decide_eq_true htitle]
  · exact fun hlast => ⟨query.title, List.mem_eraseDups.2 (List.mem_map_of_mem hmem), hlast⟩

theorem mem_survivors_iff (hnodup : queries.Nodup) (hmem : query ∈ queries) :
    query ∈ survivors title queries ↔ ¬ Superseded title queries query := by
  rw [mem_survivors_iff_getLast? hmem]
  constructor
  · rintro hlast ⟨front, back, rfl, later, hlater, htitle⟩
    have hne : back.filter (·.title = query.title) ≠ [] :=
      List.ne_nil_of_mem (List.mem_filter.2 ⟨hlater, by simpa using htitle⟩)
    rw [List.filter_append, List.filter_cons_of_pos (by simp), ← List.singleton_append,
      ← List.append_assoc, List.getLast?_append_of_ne_nil _ hne] at hlast
    have hback : query ∈ back := List.mem_of_mem_filter (List.mem_of_getLast? hlast)
    exact (List.nodup_cons.1 hnodup.of_append_right).1 hback
  · intro hkept
    obtain ⟨front, back, rfl⟩ := List.append_of_mem hmem
    have hnone : back.filter (·.title = query.title) = [] :=
      List.filter_eq_nil_iff.2 fun later hlater htitle =>
        hkept ⟨front, back, rfl, later, hlater, of_decide_eq_true htitle⟩
    rw [List.filter_append, List.filter_cons_of_pos (by simp), hnone, List.getLast?_concat]

section Forest

variable (hids : ((trees.flatMap all).map Query.id).Nodup)
include hids

theorem eq_of_mem_all {left right : Query} (hleft : left ∈ trees) (hright : right ∈ trees)
    (h : origin.id ∈ left.all.map Query.id) (h' : origin.id ∈ right.all.map Query.id) :
    left = right := by
  rw [List.map_flatMap] at hids
  exact Keyed.eq_of_mem_flatMap hids hleft hright h h'

theorem mem_ids_kept_iff {kept : List Query} (hkept : kept ⊆ trees) {tree : Query}
    (htree : tree ∈ trees) (horigin : origin ∈ tree.all) :
    (origin.id ∈ kept.flatMap fun child => child.resolve.all.map Query.id) ↔
      tree ∈ kept ∧ origin.id ∈ tree.resolve.all.map Query.id := by
  rw [List.mem_flatMap]
  constructor
  · rintro ⟨child, hchild, hid⟩
    obtain rfl := eq_of_mem_all hids (hkept hchild) htree (ids_resolve_subset child hid)
      (List.mem_map_of_mem horigin)
    exact ⟨hchild, hid⟩
  · exact fun h => ⟨tree, h⟩

theorem lostIn_flatMap_iff {tree : Query} (htree : tree ∈ trees) (horigin : origin ∈ tree.all) :
    LostIn title (trees.flatMap all) origin ↔ LostIn title tree.all origin := by
  constructor
  · rintro ⟨parent, hparent, lost, hlost, hin⟩
    obtain ⟨other, hother, hparent⟩ := List.mem_flatMap.1 hparent
    have hbelow : lost ∈ other.all := by
      rw [all_eq]
      exact List.mem_cons_of_mem _ (mem_below hparent (List.mem_append_left _ hlost.mem))
    obtain rfl := eq_of_mem_all hids hother htree (List.mem_map_of_mem (mem_all_trans hbelow hin))
      (List.mem_map_of_mem horigin)
    exact ⟨parent, hparent, lost, hlost, hin⟩
  · rintro ⟨parent, hparent, hlost⟩
    exact ⟨parent, List.mem_flatMap.2 ⟨tree, htree, hparent⟩, hlost⟩

theorem nodup_of_mem (hquery : query ∈ trees) : (query.all.map Query.id).Nodup := by
  rw [List.map_flatMap] at hids
  exact (List.nodup_flatMap.1 hids).1 query hquery

theorem nodup_trees : trees.Nodup := by
  rw [List.map_flatMap] at hids
  exact List.Nodup.of_map _
    (Keyed.nodup_map_of_flatMap (fun query => List.mem_map_of_mem (self_mem_all query)) hids)

end Forest

section Below

variable (hbelow : (((query.commonTables ++ query.subqueries).flatMap all).map Query.id).Nodup)
  (hchild : child ∈ query.commonTables ++ query.subqueries)
include hbelow hchild

theorem mem_kept_iff :
    child ∈ survivors title query.commonTables ++ query.subqueries ↔
    ¬ Superseded title query.commonTables child := by
  have hnodup := nodup_trees hbelow
  rcases List.mem_append.1 hchild with hcommon | hother
  · rw [← mem_survivors_iff hnodup.of_append_left hcommon, List.mem_append, or_iff_left]
    exact fun hother => hnodup.disjoint hcommon hother
  · exact iff_of_true (List.mem_append_right _ hother) fun hlost => hnodup.disjoint hlost.mem hother

theorem lostIn_all_iff (hin : origin ∈ child.all) :
    LostIn title query.all origin ↔ Superseded title query.commonTables child ∨
    LostIn title child.all origin := by
  rw [← lostIn_flatMap_iff hbelow hchild hin, all_eq]
  constructor
  · rintro ⟨parent, hparent, lost, hlost, hmem⟩
    rcases List.mem_cons.1 hparent with rfl | hparent
    · obtain rfl := eq_of_mem_all hbelow (List.mem_append_left _ hlost.mem) hchild
        (List.mem_map_of_mem hmem)
        (List.mem_map_of_mem hin)
      exact .inl hlost
    · exact .inr ⟨parent, hparent, lost, hlost, hmem⟩
  · rintro (hlost | ⟨parent, hparent, hlost⟩)
    · exact ⟨query, List.mem_cons_self, child, hlost, hin⟩
    · exact ⟨parent, List.mem_cons_of_mem _ hparent, hlost⟩

end Below

theorem mem_ids_resolve_iff (hids : (query.all.map Query.id).Nodup) (horigin : origin ∈ query.all) :
    origin.id ∈ query.resolve.all.map Query.id ↔ ¬ LostIn title query.all origin := by
  induction query using Query.induct with
  | step query ih =>
      have hall := all_eq query
      rw [hall, List.map_cons] at hids
      obtain ⟨hself, hbelow⟩ := List.nodup_cons.1 hids
      rw [ids_resolve]
      rw [hall] at horigin
      rcases List.mem_cons.1 horigin with rfl | horigin
      · refine iff_of_true List.mem_cons_self ?_
        rintro ⟨parent, hparent, lost, hlost, hin⟩
        obtain ⟨next, hnext, hmem⟩ :=
          List.mem_flatMap.1 (mem_below hparent (List.mem_append_left _ hlost.mem))
        exact hself (List.mem_map_of_mem (List.mem_flatMap.2 ⟨next, hnext, mem_all_trans hmem hin⟩))
      · obtain ⟨child, hchild, hin⟩ := List.mem_flatMap.1 horigin
        have hne : origin.id ≠ query.id := fun heq => hself (heq ▸ List.mem_map_of_mem horigin)
        have hkept : survivors title query.commonTables ++ query.subqueries ⊆ query.commonTables ++
            query.subqueries :=
          fun _ h => List.mem_append.2 ((List.mem_append.1 h).imp_left mem_of_mem_survivors)
        rw [List.mem_cons, or_iff_right hne, mem_ids_kept_iff hbelow hkept hchild hin,
          ih child hchild (nodup_of_mem hbelow hchild) hin, mem_kept_iff hbelow hchild,
          lostIn_all_iff hbelow hchild hin, not_or]

end Query

namespace Atlas

variable {drafts : List Draft} {tokens : List Excerpt} {diagnoses : List Diagnosis}

theorem exists_reduced_settled {query : Query}
    (h : query ∈ (settled drafts tokens diagnoses).allQueries) :
    ∃ origin ∈ (holding drafts tokens).allQueries, Query.Reduced Query.title origin query := by
  obtain ⟨top, htop, hquery⟩ := List.mem_flatMap.1 h
  obtain ⟨draft, hdraft, rfl⟩ := List.mem_map.1 htop
  obtain ⟨origin, horigin, hreduced⟩ := Query.exists_reduced (Query.alike_faulted _ _) hquery
  exact ⟨origin, List.mem_flatMap.2 ⟨_, List.mem_map_of_mem hdraft, horigin⟩, hreduced⟩

theorem ids_settled : (settled drafts tokens diagnoses).allQueries.map Query.id =
    (holding drafts tokens).queries.flatMap fun top => top.resolve.all.map Query.id := by
  rw [allQueries, settled, binding, holding, List.map_flatMap, List.flatMap_map, List.flatMap_map]
  simp only [(Query.alike_faulted _ _).ids]

end Atlas

theorem survey_supersedes {κ : Type} (reader : Reader κ) (script : String) :
    let lexing := reader.lex script
    let drafts := Draft.ofScript (reader.parse script lexing.tokens).trees
    let built := ((Atlas.ofDrafts drafts).assign (Reader.excerpts script lexing.tokens)).1
    let atlas := reader.survey script
    let nameOf := fun query : Query => match query.tokens with
      | token :: _ => Identifier.unquote token.text
      | [] => "#" ++ toString query.id
    built.allQueries.map (fun query =>
        (query.id, query.commonTables.map Query.id, query.subqueries.map Query.id)) =
      (Draft.allIn drafts).map (fun draft =>
        (draft.id, draft.commonTables.map Draft.id, draft.subqueries.map Draft.id)) ∧
    (built.allQueries.map Query.id).Nodup ∧
    (∀ query ∈ atlas.allQueries, ∃ origin ∈ built.allQueries, Query.Reduced nameOf origin query) ∧
    ∀ origin ∈ built.allQueries,
      origin.id ∉ atlas.allQueries.map Query.id ↔ Query.LostIn nameOf built.allQueries origin := by
  intro lexing drafts built atlas nameOf
  have hname : nameOf = Query.title := by
    funext query
    simp only [nameOf, Query.title]
    cases query.tokens <;> rfl
  have hbuilt : built = Atlas.holding drafts (reader.tokens script) :=
    congrArg Prod.fst (reader.assign_drafts script)
  have hids : (built.allQueries.map Query.id).Nodup := by
    rw [hbuilt, Atlas.map_allQueries_holding Query.id_held]
    exact Draft.nodup_ids_ofScript _
  have hatlas : atlas = Atlas.settled drafts (reader.tokens script)
      ((Reader.inOrder (reader.reported script)).map (Diagnosis.ofFault script)) :=
    reader.survey_eq_settled script
  rw [hname]
  refine ⟨?_, hids, fun query hquery => ?_, fun origin horigin => ?_⟩
  · rw [hbuilt]
    exact Atlas.map_allQueries_holding Query.shape_held drafts _
  · rw [hatlas] at hquery
    rw [hbuilt]
    exact Atlas.exists_reduced_settled hquery
  · obtain ⟨top, htop, hin⟩ := List.mem_flatMap.1 horigin
    have hkept : atlas.allQueries.map Query.id =
        built.queries.flatMap fun top => top.resolve.all.map Query.id := by
      rw [hatlas, hbuilt, Atlas.ids_settled]
    rw [hkept, Query.mem_ids_kept_iff hids (fun _ h => h) htop hin, and_iff_right htop,
      Query.mem_ids_resolve_iff (Query.nodup_of_mem hids htop) hin, not_not]
    exact (Query.lostIn_flatMap_iff hids htop hin).symm

end SqlAtlas

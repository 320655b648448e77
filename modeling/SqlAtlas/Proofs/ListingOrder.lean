import Mathlib.Data.List.Nodup
import SqlAtlas.Listing
import SqlAtlas.Proofs.Preorder

namespace SqlAtlas

namespace Query

inductive Slot where
  | commonTable (index : Nat)
  | subquery (index : Nat)
  deriving DecidableEq, Repr

def Slot.query? : Slot → Query → Option Query
  | .commonTable index, query => query.commonTables[index]?
  | .subquery index, query => query.subqueries[index]?

def inner? : Query → List Slot → Option Query
  | query, [] => some query
  | query, slot :: slots => (slot.query? query).bind (·.inner? slots)

structure Way where
  first : Nat
  inward : List Slot
  deriving DecidableEq, Repr

namespace Way

def depth (way : Way) : Nat := way.inward.length

def query? (queries : List Query) (way : Way) : Option Query :=
  (queries[way.first]?).bind (·.inner? way.inward)

def reach (index : Nat) (site : List Slot × Query) : Way × Query := (⟨index, site.1⟩, site.2)

def slots (slot : Nat → Slot) (way : Way) : List Slot := slot way.first :: way.inward

def enter (slot : Nat → Slot) (site : Way × Query) : List Slot × Query :=
  (site.1.slots slot, site.2)

theorem slots_injective {slot : Nat → Slot} (hslot : Function.Injective slot) :
    Function.Injective (slots slot) := by
  rintro ⟨first, inward⟩ ⟨first', inward'⟩ h
  obtain ⟨hfirst, rfl⟩ := List.cons.inj h
  obtain rfl : first = first' := hslot hfirst
  rfl

end Way

mutual

def sites : Query → List (List Slot × Query)
  | query@{ commonTables, subqueries, .. } =>
      ([], query) ::
        ((sitesAll 0 commonTables).map (Way.enter .commonTable) ++
          (sitesAll 0 subqueries).map (Way.enter .subquery))

def sitesAll (index : Nat) : List Query → List (Way × Query)
  | [] => []
  | query :: queries => (sites query).map (Way.reach index) ++ sitesAll (index + 1) queries

end

theorem sites_eq (query : Query) :
    query.sites = ([], query) :: ((sitesAll 0 query.commonTables).map (Way.enter .commonTable) ++
      (sitesAll 0 query.subqueries).map (Way.enter .subquery)) := by
  cases query
  rfl

theorem sitesAll_eq_flatMap (index : Nat) (queries : List Query) :
    sitesAll index queries =
      (queries.zipIdx index).flatMap fun entry => entry.1.sites.map (Way.reach entry.2) := by
  induction queries generalizing index with
  | nil => rfl
  | cons query queries ih => rw [sitesAll, ih, List.zipIdx_cons, List.flatMap_cons]

mutual

theorem map_snd_sites (query : Query) : query.sites.map Prod.snd = query.preorder := by
  match query with
  | { commonTables, subqueries, .. } =>
      rw [sites, preorder, List.map_cons, List.map_append, List.map_map, List.map_map,
        ← map_snd_sitesAll 0 commonTables, ← map_snd_sitesAll 0 subqueries]
      rfl

theorem map_snd_sitesAll (index : Nat) (queries : List Query) :
    (sitesAll index queries).map Prod.snd = preorderAll queries := by
  cases queries with
  | nil => rfl
  | cons query queries =>
      rw [sitesAll, preorderAll, List.map_append, List.map_map,
        map_snd_sitesAll (index + 1) queries, ← map_snd_sites query]
      rfl

end

section Sites

variable {query inner : Query} {queries : List Query} {slots : List Slot}

theorem mem_sitesAll_iff {way : Way} :
    (way, inner) ∈ sitesAll 0 queries ↔
      ∃ query, queries[way.first]? = some query ∧ (way.inward, inner) ∈ query.sites := by
  simp only [sitesAll_eq_flatMap, List.mem_flatMap, List.mem_map, Prod.exists,
    List.mk_mem_zipIdx_iff_getElem?]
  constructor
  · rintro ⟨query, first, hquery, inward, inner, hin, heq⟩
    obtain ⟨rfl, rfl⟩ := Prod.mk.inj heq
    exact ⟨query, hquery, hin⟩
  · rintro ⟨query, hquery, hin⟩
    exact ⟨query, way.first, hquery, way.inward, inner, hin, rfl⟩

theorem mem_map_enter_iff {slot : Nat → Slot} {first : Slot} :
    (first :: slots, inner) ∈ (sitesAll 0 queries).map (Way.enter slot) ↔
      ∃ index, slot index = first ∧
        ∃ query, queries[index]? = some query ∧ (slots, inner) ∈ query.sites := by
  constructor
  · intro h
    obtain ⟨⟨way, inner⟩, hin, heq⟩ := List.mem_map.1 h
    simp only [Way.enter, Way.slots, Prod.mk.injEq, List.cons.injEq] at heq
    obtain ⟨⟨hfirst, rfl⟩, rfl⟩ := heq
    exact ⟨way.first, hfirst, mem_sitesAll_iff.1 hin⟩
  · rintro ⟨index, rfl, hin⟩
    exact List.mem_map.2 ⟨(⟨index, slots⟩, inner), mem_sitesAll_iff.2 hin, rfl⟩

-- The sites of a query are all that can be reached from it. The induction is on the slots, since
-- going inward follows them and not the query.
theorem mem_sites_iff : (slots, inner) ∈ query.sites ↔ query.inner? slots = some inner := by
  induction slots generalizing query with
  | nil =>
      rw [sites_eq, inner?, Option.some.injEq, eq_comm (a := query)]
      simp [Way.enter, Way.slots]
  | cons slot slots ih =>
      have hchild (children : List Query) (index : Nat) :
          (∃ query, children[index]? = some query ∧ (slots, inner) ∈ query.sites) ↔
            (children[index]?).bind (·.inner? slots) = some inner := by
        simp only [ih, Option.bind_eq_some_iff]
      rw [sites_eq, List.mem_cons, List.mem_append, mem_map_enter_iff, mem_map_enter_iff]
      cases slot with
      | commonTable index => simp [inner?, Slot.query?, hchild]
      | subquery index => simp [inner?, Slot.query?, hchild]

theorem nodup_map_fst_sitesAll (h : ∀ query ∈ queries, (query.sites.map Prod.fst).Nodup) :
    ((sitesAll 0 queries).map Prod.fst).Nodup := by
  have hways : (sitesAll 0 queries).map Prod.fst =
      queries.zipIdx.flatMap fun entry => (entry.1.sites.map Prod.fst).map (Way.mk entry.2) := by
    simp [sitesAll_eq_flatMap, List.map_flatMap, Function.comp_def, Way.reach]
  have hindices : queries.zipIdx.Pairwise fun entry next => entry.2 ≠ next.2 := by
    rw [← List.pairwise_map, List.zipIdx_map_snd]
    exact List.nodup_range'
  rw [hways, List.nodup_flatMap]
  refine ⟨fun entry hentry => ?_, hindices.imp fun hne way hway hway' => hne ?_⟩
  · exact (h entry.1 (List.fst_mem_of_mem_zipIdx hentry)).map fun _ _ heq => (Way.mk.inj heq).2
  · obtain ⟨slots, -, rfl⟩ := List.mem_map.1 hway
    obtain ⟨slots', -, heq⟩ := List.mem_map.1 hway'
    exact (Way.mk.inj heq).1.symm

theorem map_fst_map_enter (slot : Nat → Slot) (sites : List (Way × Query)) :
    (sites.map (Way.enter slot)).map Prod.fst = (sites.map Prod.fst).map (Way.slots slot) := by
  rw [List.map_map, List.map_map]
  rfl

theorem nodup_map_fst_sites (query : Query) : (query.sites.map Prod.fst).Nodup := by
  induction query using Query.induct with
  | step query ih =>
      have hcommon := nodup_map_fst_sitesAll fun child hchild =>
        ih child (List.mem_append_left _ hchild)
      have hothers := nodup_map_fst_sitesAll fun child hchild =>
        ih child (List.mem_append_right _ hchild)
      rw [sites_eq, List.map_cons, List.map_append, map_fst_map_enter, map_fst_map_enter,
        List.nodup_cons, List.nodup_append]
      refine ⟨by simp [Way.slots],
        hcommon.map (Way.slots_injective fun _ _ => Slot.commonTable.inj),
        hothers.map (Way.slots_injective fun _ _ => Slot.subquery.inj), ?_⟩
      intro slots hslots slots' hslots' heq
      obtain ⟨way, -, rfl⟩ := List.mem_map.1 hslots
      obtain ⟨way', -, rfl⟩ := List.mem_map.1 hslots'
      exact nomatch (List.cons.inj heq).1

end Sites

def ownLines (depth : Nat) (query : Query) : List Line :=
  .query depth query :: query.diagnoses.map (.diagnosis depth)

mutual

theorem listing_eq_sites (depth : Nat) (query : Query) :
    query.listing depth = query.sites.flatMap fun site =>
      site.2.ownLines (depth + site.1.length) := by
  match query with
  | { commonTables, subqueries, .. } =>
      rw [listing, sites, List.flatMap_cons, List.flatMap_append, List.flatMap_map,
        List.flatMap_map, listingAll_eq_sites (depth + 1) 0 commonTables,
        listingAll_eq_sites (depth + 1) 0 subqueries]
      simp [ownLines, Way.enter, Way.slots, Way.depth, Nat.add_comm, Nat.add_left_comm]

theorem listingAll_eq_sites (depth index : Nat) (queries : List Query) :
    listingAll depth queries =
      (sitesAll index queries).flatMap fun site => site.2.ownLines (depth + site.1.depth) := by
  cases queries with
  | nil => rfl
  | cons query queries =>
      rw [listingAll, sitesAll, List.flatMap_append, List.flatMap_map, listing_eq_sites depth query,
        listingAll_eq_sites depth (index + 1) queries]
      rfl

end

end Query

namespace Line

def query? : Line → Option Query
  | .query _ shown => some shown
  | .diagnosis _ _ | .unbound _ => none

def diagnosis? : Line → Option Diagnosis
  | .query _ _ => none
  | .diagnosis _ found | .unbound found => some found

end Line

theorem Query.filterMap_query?_ownLines (depth : Nat) (query : Query) :
    (query.ownLines depth).filterMap Line.query? = [query] := by
  have hfaults : (query.diagnoses.map (Line.diagnosis depth)).filterMap Line.query? = [] := by
    rw [List.filterMap_map]
    exact List.filterMap_none _
  rw [ownLines, List.filterMap_cons, hfaults]
  rfl

theorem Query.filterMap_diagnosis?_ownLines (depth : Nat) (query : Query) :
    (query.ownLines depth).filterMap Line.diagnosis? = query.diagnoses := by
  rw [ownLines, List.filterMap_cons_none rfl, List.filterMap_map]
  exact List.filterMap_some

namespace Atlas

section Listing

variable (atlas : Atlas)

theorem allQueries_eq_preorderAll : atlas.allQueries = Query.preorderAll atlas.queries := by
  rw [allQueries, Query.preorderAll_eq_flatMap, funext Query.all_eq_preorder]

theorem map_snd_sites : (Query.sitesAll 0 atlas.queries).map Prod.snd = atlas.allQueries := by
  rw [Query.map_snd_sitesAll, allQueries_eq_preorderAll]

theorem listing_eq_sites :
    atlas.listing = ((Query.sitesAll 0 atlas.queries).flatMap fun site =>
      site.2.ownLines site.1.depth) ++
      atlas.unbound.map .unbound := by
  rw [listing, Query.listingAll_eq_sites 0 0]
  simp only [Nat.zero_add]

theorem map_text_listing :
    atlas.listing.map Line.text =
      ((Query.sitesAll 0 atlas.queries).flatMap fun site =>
        (Line.indent site.1.depth ++ Line.queryText site.2) ::
          site.2.diagnoses.map fun found => Line.indent (site.1.depth + 1) ++ "! " ++
          found.display) ++
      atlas.unbound.map fun found => "! " ++ found.display := by
  rw [listing_eq_sites, List.map_append, List.map_flatMap, List.map_map]
  simp only [Query.ownLines, List.map_cons, List.map_map]
  rfl

theorem filterMap_query?_listing : atlas.listing.filterMap Line.query? = atlas.allQueries := by
  have hunbound : (atlas.unbound.map Line.unbound).filterMap Line.query? = [] := by
    rw [List.filterMap_map]
    exact List.filterMap_none _
  rw [listing_eq_sites, List.filterMap_append, hunbound, List.append_nil, List.filterMap_flatMap,
    ← map_snd_sites, List.map_eq_flatMap]
  simp only [Query.filterMap_query?_ownLines]

theorem filterMap_diagnosis?_listing :
    atlas.listing.filterMap Line.diagnosis? = atlas.diagnoses := by
  have hunbound : (atlas.unbound.map Line.unbound).filterMap Line.diagnosis? = atlas.unbound := by
    rw [List.filterMap_map]
    exact List.filterMap_some
  rw [listing_eq_sites, List.filterMap_append, hunbound, List.filterMap_flatMap, diagnoses,
    ← map_snd_sites, List.flatMap_map]
  simp only [Query.filterMap_diagnosis?_ownLines]

theorem mem_sites_iff {way : Query.Way} {query : Query} :
    (way, query) ∈ Query.sitesAll 0 atlas.queries ↔ way.query? atlas.queries = some query := by
  simp only [Query.mem_sitesAll_iff, Query.mem_sites_iff, Query.Way.query?, Option.bind_eq_some_iff]

end Listing

theorem listing_follows_visits (atlas : Atlas) :
    (∀ query : Query, query.all = query.preorder) ∧
    atlas.allQueries = Query.preorderAll atlas.queries ∧
    (∃ ways : List Query.Way,
      ways.Nodup ∧ (∀ way, way ∈ ways ↔ (way.query? atlas.queries).isSome = true) ∧
      ways.map (Query.Way.query? atlas.queries) = atlas.allQueries.map some ∧
      atlas.listing.map Line.text =
        ((ways.zip atlas.allQueries).flatMap fun site =>
          (Line.indent site.1.depth ++ Line.queryText site.2) ::
            site.2.diagnoses.map fun found => Line.indent (site.1.depth + 1) ++ "! " ++
            found.display) ++
        atlas.unbound.map fun found => "! " ++ found.display) ∧
    atlas.listing.filterMap Line.query? = atlas.allQueries ∧
    atlas.listing.filterMap Line.diagnosis? = atlas.diagnoses := by
  have hzip : Query.sitesAll 0 atlas.queries =
      ((Query.sitesAll 0 atlas.queries).map Prod.fst).zip atlas.allQueries :=
    List.zip_of_prod rfl atlas.map_snd_sites
  refine ⟨Query.all_eq_preorder, atlas.allQueries_eq_preorderAll,
    ⟨(Query.sitesAll 0 atlas.queries).map Prod.fst, ?_, fun way => ?_, ?_, ?_⟩,
    atlas.filterMap_query?_listing, atlas.filterMap_diagnosis?_listing⟩
  · exact Query.nodup_map_fst_sitesAll fun query _ => query.nodup_map_fst_sites
  · simp only [List.mem_map, Prod.exists, exists_and_right, exists_eq_right, mem_sites_iff,
      Option.isSome_iff_exists]
  · rw [← map_snd_sites, List.map_map, List.map_map]
    exact List.map_congr_left fun site hsite => atlas.mem_sites_iff.1 hsite
  · rw [← hzip]
    exact atlas.map_text_listing

end Atlas

end SqlAtlas

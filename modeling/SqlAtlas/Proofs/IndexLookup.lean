import SqlAtlas.Atlas
import SqlAtlas.Proofs.Naming
import SqlAtlas.Proofs.SpanLookup

namespace SqlAtlas

namespace SpanIndex

variable {offset : Nat} {index : SpanIndex} {entry : Span × Nat}

theorem entries_insert (entry : Span × Nat) (index : SpanIndex) :
    (index.insert entry).entries = index.upTo entry.1.start ++ entry ::
      index.beyond entry.1.start := by
  simp only [insert, take_countFrom, drop_countFrom]

theorem lt_length_of_countFrom {count : Nat} (h : index.countFrom offset = count + 1) :
    count < index.entries.length := by
  have hle : (index.upTo offset).length ≤ index.entries.length := List.length_filter_le _ _
  rw [← countFrom_eq, h] at hle
  exact hle

theorem lastFrom?_eq (offset : Nat) (index : SpanIndex) :
    index.lastFrom? offset = (index.upTo offset).getLast? := by
  rw [lastFrom?, ← take_countFrom]
  cases hcount : index.countFrom offset with
  | zero => rfl
  | succ count =>
      rw [List.take_add_one, List.getElem?_eq_getElem (lt_length_of_countFrom hcount),
        Option.toList_some, List.getLast?_concat]
      exact List.getElem?_eq_getElem (lt_length_of_countFrom hcount)

theorem nearest?_eq (offset : Nat) (index : SpanIndex) :
    index.nearest? offset = (index.lastFrom? offset).or index.entries.head? := by
  cases hcount : index.countFrom offset with
  | zero => simp [nearest?, lastFrom?, hcount]
  | succ count =>
      simp [nearest?, lastFrom?, hcount, List.getElem?_eq_getElem (lt_length_of_countFrom hcount)]

section Insert

variable (offset : Nat) (entry : Span × Nat) (index : SpanIndex)

theorem upTo_eq_append (start : Nat) :
    index.upTo offset = (index.upTo start).filter (·.1.start ≤ offset) ++
      (index.beyond start).filter (·.1.start ≤ offset) := by
  rw [← List.filter_append, upTo_append_beyond]
  rfl

theorem upTo_insert : (index.insert entry).upTo offset =
    (index.upTo entry.1.start).filter (·.1.start ≤ offset) ++
      ((if entry.1.start ≤ offset then [entry] else []) ++
        (index.beyond entry.1.start).filter (·.1.start ≤ offset)) := by
  rw [upTo, entries_insert, List.filter_append, List.filter_cons]
  by_cases hstart : entry.1.start ≤ offset <;> simp [hstart]

theorem lastFrom?_insert :
    (index.insert entry).lastFrom? offset =
      Span.later Prod.fst offset (index.lastFrom? offset) entry := by
  rw [lastFrom?_eq, lastFrom?_eq, upTo_insert,
    upTo_eq_append offset index entry.1.start, Span.later]
  by_cases hstart : entry.1.start ≤ offset
  · rw [if_pos hstart]
    cases hrest : (index.beyond entry.1.start).filter (·.1.start ≤ offset) with
    | nil =>
        rw [List.append_nil, List.append_nil, List.getLast?_concat, if_pos]
        refine ⟨hstart, fun other hother => ?_⟩
        exact start_le_of_mem_upTo (List.mem_of_mem_filter (List.mem_of_getLast? hother))
    | cons first rest =>
        have hlast : ∀ front : List (Span × Nat),
            (front ++ first :: rest).getLast? = (first :: rest).getLast? :=
          fun front => List.getLast?_append_of_ne_nil _ (List.cons_ne_nil _ _)
        rw [hlast, ← List.append_assoc, hlast, if_neg]
        rintro ⟨-, hle⟩
        obtain ⟨last, hlast⟩ : ∃ last, (first :: rest).getLast? = some last :=
          Option.isSome_iff_exists.1 (by simp)
        have hmem : last ∈ (index.beyond entry.1.start).filter (·.1.start ≤ offset) :=
          hrest ▸ List.mem_of_getLast? hlast
        have hlt := lt_start_of_mem_beyond (List.mem_of_mem_filter hmem)
        exact Nat.not_le.2 hlt (hle last hlast)
  · rw [if_neg hstart, if_neg fun h => hstart h.1, List.nil_append]

theorem head?_insert :
    (index.insert entry).entries.head? = Span.earlier Prod.fst index.entries.head? entry := by
  rw [entries_insert, Span.earlier]
  cases hfront : index.upTo entry.1.start with
  | nil =>
      have hentries : index.entries = index.beyond entry.1.start := by
        rw [← upTo_append_beyond entry.1.start index, hfront, List.nil_append]
      rw [hentries, List.nil_append, List.head?_cons, if_pos]
      exact fun other hother => lt_start_of_mem_beyond (List.mem_of_mem_head? hother)
  | cons first rest =>
      have hhead : index.entries.head? = some first := by
        rw [← upTo_append_beyond entry.1.start index, hfront, List.cons_append, List.head?_cons]
      have hle : first.1.start ≤ entry.1.start := start_le_of_mem_upTo (hfront ▸ List.mem_cons_self)
      rw [hhead, List.cons_append, List.head?_cons, if_neg]
      exact fun hlt => Nat.not_lt.2 hle (hlt first rfl)

end Insert

def of (entries : List (Span × Nat)) : SpanIndex :=
  entries.foldl (fun index entry => index.insert entry) empty

theorem lastFrom?_of (offset : Nat) (entries : List (Span × Nat)) :
    (of entries).lastFrom? offset = Span.lastFrom Prod.fst offset entries := by
  have hempty : empty.lastFrom? offset = none := by rw [lastFrom?_eq]; rfl
  rw [of, ← List.foldl_hom (fun index => index.lastFrom? offset)
    (fun index entry => (lastFrom?_insert offset entry index).symm), hempty]
  rfl

theorem head?_of (entries : List (Span × Nat)) :
    (of entries).entries.head? = Span.earliest Prod.fst entries := by
  rw [of, ← List.foldl_hom (fun index => index.entries.head?)
    (fun index entry => (head?_insert entry index).symm)]
  rfl

theorem holder?_of (offset : Nat) (entries : List (Span × Nat)) :
    (of entries).holder? offset = Span.holder? Prod.fst offset entries := by
  rw [holder?, lastFrom?_of]
  rfl

theorem nearest?_of (offset : Nat) (entries : List (Span × Nat)) :
    (of entries).nearest? offset = Span.nearest? Prod.fst offset entries := by
  rw [nearest?_eq, lastFrom?_of, head?_of]
  rfl

end SpanIndex

namespace Atlas

variable {atlas : Atlas} {queries : List Query} {query : Query}

structure Indexed (atlas : Atlas) : Prop where
  ids : (atlas.queries.map Query.id).Nodup
  index : atlas.index = .of (atlas.queries.map fun query => (query.span, query.id))

namespace Indexed

theorem query?_id (h : atlas.Indexed) (hquery : query ∈ atlas.queries) :
    atlas.query? query.id = some query := by
  cases hfind : atlas.query? query.id with
  | none => exact absurd (decide_eq_true rfl) (List.find?_eq_none.1 hfind query hquery)
  | some found =>
      have hid : found.id = query.id := by simpa using List.find?_some hfind
      rw [List.inj_on_of_nodup_map h.ids (List.mem_of_find?_eq_some hfind) hquery hid]

theorem bind_query? (h : atlas.Indexed) {found? : Option Query}
    (hfound : ∀ query ∈ found?, query ∈ atlas.queries) :
    (found?.map fun query => (query.span, query.id)).bind (fun entry => atlas.query? entry.2) =
      found? := by
  cases found? with
  | none => rfl
  | some query => exact h.query?_id (hfound query rfl)

theorem queryAt (h : atlas.Indexed) (offset : Nat) :
    atlas.queryAt offset = Span.holder? Query.span offset atlas.queries := by
  rw [Atlas.queryAt, h.index, SpanIndex.holder?_of, Span.holder?_map]
  exact h.bind_query? fun query => Span.mem_of_holder?

theorem nearestTo (h : atlas.Indexed) (offset : Nat) :
    atlas.nearestTo offset = Span.nearest? Query.span offset atlas.queries := by
  rw [Atlas.nearestTo, h.index, SpanIndex.nearest?_of, Span.nearest?_map]
  exact h.bind_query? fun query => Span.mem_of_nearest?

end Indexed

theorem insertAll_eq (hids : (queries.map Query.id).Nodup) :
    insertAll queries = ⟨queries, [], .of (queries.map fun query => (query.span, query.id))⟩ := by
  induction queries using List.reverseRecOn with
  | nil => rfl
  | append_singleton queries query ih =>
      rw [List.map_append, List.map_singleton] at hids
      have hnew : ∀ other ∈ queries, other.id ≠ query.id := fun other hother heq =>
        (List.nodup_append.1 hids).2.2 _ (List.mem_map_of_mem hother) _ List.mem_cons_self heq
      rw [insertAll, List.foldl_append, ← insertAll, ih hids.of_append_left, List.foldl_cons,
        List.foldl_nil, insert, Query.putBy_eq_put, Keyed.put_of_notMem hnew, List.map_append,
        SpanIndex.of, SpanIndex.of, List.foldl_append]
      rfl

theorem indexed_insertAll (hids : (queries.map Query.id).Nodup) : (insertAll queries).Indexed := by
  rw [insertAll_eq hids]
  exact ⟨hids, rfl⟩

theorem lookup_insertAll (queries : List Query) (hids : (queries.map Query.id).Nodup)
    (hcovers : ∀ query ∈ queries, query.span.start ≤ query.span.stop)
    (hapart : queries.Pairwise fun query other => query.span.Apart other.span) (offset : Nat) :
    let atlas := insertAll queries
    (∀ query, atlas.queryAt offset = some query ↔ query ∈ queries ∧
      query.span.contains offset = true) ∧
    (atlas.queryAt offset = none ↔ ∀ query ∈ queries, query.span.contains offset = false) ∧
    (∀ query, atlas.nearestTo offset = some query ↔
      query ∈ queries ∧ Span.Nearest Query.span offset queries query) ∧
    (atlas.nearestTo offset = none ↔ queries = []) := by
  intro atlas
  have hqueries : atlas.queries = queries := congrArg Atlas.queries (insertAll_eq hids)
  have hindexed : atlas.Indexed := indexed_insertAll hids
  rw [hindexed.queryAt, hindexed.nearestTo, hqueries]
  refine ⟨fun query => Span.holder?_eq_some_iff hcovers hapart, ?_,
    fun query => Span.nearest?_eq_some_iff hcovers hapart, ?_⟩
  · simp only [Option.eq_none_iff_forall_ne_some, ne_eq,
      Span.holder?_eq_some_iff hcovers hapart, not_and, Bool.not_eq_true]
  · refine ⟨fun hnone => ?_, fun hnil => hnil ▸ rfl⟩
    by_contra hsome
    obtain ⟨query, hquery⟩ : ∃ query, Span.nearest? Query.span offset queries = some query :=
      Span.exists_nearest? hsome
    exact absurd (hnone.symm.trans hquery) (Option.some_ne_none query).symm

theorem lookup_insertAll_backwards :
    let query := fun id start stop =>
      (⟨id, none, .select, ⟨1, 1, start, stop⟩, none, [], [], [], [], []⟩ : Query)
    let atlas := insertAll [query 0 20 22, query 1 2 4, query 2 10 14]
    atlas.queryAt 12 = some (query 2 10 14) ∧ atlas.queryAt 16 = none ∧
      atlas.nearestTo 16 = some (query 2 10 14) ∧ atlas.nearestTo 0 = some (query 1 2 4) := by
  intro query atlas
  have hapart : [query 0 20 22, query 1 2 4, query 2 10 14].Pairwise
      fun query other => query.span.Apart other.span := by
    refine .cons ?_ (.cons ?_ (.cons ?_ .nil))
    · simpa using ⟨(Span.apart_of_lt (by decide)).symm, (Span.apart_of_lt (by decide)).symm⟩
    · simpa using Span.apart_of_lt (by decide)
    · simp
  have hlookup := lookup_insertAll _ (by decide) (by decide) hapart
  obtain ⟨hheld, -⟩ := hlookup 12
  obtain ⟨-, hfree, hbefore, -⟩ := hlookup 16
  obtain ⟨-, -, hfirst, -⟩ := hlookup 0
  refine ⟨(hheld _).2 ⟨by simp, by decide⟩, hfree.2 (by decide), (hbefore _).2 ⟨by simp, ?_⟩,
    (hfirst _).2 ⟨by simp, ?_⟩⟩
  · exact .inr ⟨by decide, .inl ⟨by decide, by decide⟩⟩
  · exact .inr ⟨by decide, .inr (by decide)⟩

end Atlas

end SqlAtlas

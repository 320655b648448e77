import SqlAtlas.Proofs.Assignment
import SqlAtlas.Proofs.DraftSpans

namespace SqlAtlas

namespace Query

variable {query child : Query} {queries : List Query} {all : List Excerpt} {offset : Nat}

theorem childAt_eq_find? (offset : Nat) (query : Query) :
    query.childAt offset =
      (query.commonTables ++ query.subqueries).find? (·.span.contains offset) := by
  rw [List.find?_append]
  rfl

inductive Shared (all : List Excerpt) : Query → Prop
  | mk {query : Query} : query.tokens = all.filter (query.span.contains ·.span.start) →
      ((query.commonTables ++ query.subqueries).Pairwise fun child other =>
        child.span.Apart other.span) →
      (∀ child ∈ query.commonTables ++ query.subqueries, query.span.encloses child.span = true) →
      (∀ child ∈ query.commonTables ++ query.subqueries, Shared all child) → Shared all query

theorem Shared.tokens_eq (h : query.Shared all) :
    query.tokens = all.filter (query.span.contains ·.span.start) := by
  cases h
  assumption

theorem Shared.of_mem_all (h : query.Shared all) (hmem : child ∈ query.all) :
    child.Shared all ∧ ∀ offset, child.span.contains offset = true →
      query.span.contains offset = true := by
  induction h generalizing child with
  | @mk query htokens hapart hinside hshared ih =>
      rw [all_eq] at hmem
      rcases List.mem_cons.1 hmem with rfl | hmem
      · exact ⟨.mk htokens hapart hinside hshared, fun _ hcontains => hcontains⟩
      · obtain ⟨inner, hinner, hmem⟩ := List.mem_flatMap.1 hmem
        obtain ⟨hchild, hcontains⟩ := ih inner hinner hmem
        exact ⟨hchild, fun offset h => Span.contains_of_encloses (hinside inner hinner)
          (hcontains offset h)⟩

def holds (offset : Nat) (query : Query) : Bool :=
  query.span.contains offset && (query.childAt offset).isNone

theorem flatMap_of_apart {β : Type} (f : Query → β)
    (hapart : queries.Pairwise fun query other => query.span.Apart other.span) :
    queries.flatMap (fun query => if query.span.contains offset then [f query] else []) =
      ((queries.find? (·.span.contains offset)).map f).toList := by
  induction queries with
  | nil => rfl
  | cons query queries ih =>
      obtain ⟨hfirst, hrest⟩ := List.pairwise_cons.1 hapart
      rw [List.flatMap_cons, ih hrest]
      cases hquery : query.span.contains offset with
      | false => simp [hquery]
      | true =>
          have hnone : queries.find? (·.span.contains offset) = none := by
            refine List.find?_eq_none.2 fun other hother => ?_
            simp [hfirst other hother offset hquery]
          simp [hquery, hnone]

theorem Shared.filter_holds (h : query.Shared all) (offset : Nat) :
    query.all.filter (holds offset) =
      if query.span.contains offset then [query.descend offset] else [] := by
  induction h with
  | @mk query _ hapart hinside _ ih =>
      have hchildren : ((query.commonTables ++ query.subqueries).flatMap Query.all).filter
          (holds offset) =
          ((query.childAt offset).map (descend offset)).toList := by
        rw [List.filter_flatMap, childAt_eq_find?, ← flatMap_of_apart _ hapart, List.flatMap_def,
          List.flatMap_def, List.map_congr_left ih]
      rw [all_eq, List.filter_cons, hchildren, descend_eq]
      cases hchild : query.childAt offset with
      | none =>
          cases hspan : query.span.contains offset <;> simp [holds, hchild, hspan]
      | some child =>
          rw [childAt_eq_find?] at hchild
          have hmem := List.mem_of_find?_eq_some hchild
          have hcontains : child.span.contains offset = true := by
            simpa using List.find?_some hchild
          have hspan := Span.contains_of_encloses (hinside child hmem) hcontains
          rw [← childAt_eq_find?] at hchild
          simp [holds, hchild, hspan]

theorem Shared.mem_ownTokens_iff (h : query.Shared all) {token : Excerpt} (htoken : token ∈ all) :
    token ∈ query.ownTokens ↔ query.holds token.span.start = true := by
  simp [ownTokens, holds, h.tokens_eq, htoken, and_comm]

section Naming

theorem Shared.named (h : query.Shared all) : query.named.Shared all := by
  cases h with
  | mk htokens hapart hinside hshared => exact .mk htokens hapart hinside hshared

theorem Shared.resolve (h : query.Shared all) : query.resolve.Shared all := by
  induction h with
  | @mk query htokens hapart hinside _ ih =>
      refine .mk ?_ (pairwise_resolve Query.span Span.Apart.symm (fun _ => rfl) span_resolve hapart)
        ?_ ?_
      · rw [tokens_resolve, span_resolve, htokens]
      · intro child hchild
        obtain ⟨origin, horigin, rfl | rfl⟩ := exists_origin_of_mem_resolve hchild
        · simpa [Query.named] using hinside origin horigin
        · simpa using hinside origin horigin
      · intro child hchild
        obtain ⟨origin, horigin, rfl | rfl⟩ := exists_origin_of_mem_resolve hchild
        · exact (ih origin horigin).named
        · exact ih origin horigin

theorem Shared.faulted (h : query.Shared all) (diagnoses : List Diagnosis) :
    (query.faulted diagnoses).Shared all := by
  cases h with
  | mk htokens hapart hinside hshared => exact .mk htokens hapart hinside hshared

end Naming

section Drafts

variable {draft : Draft} {drafts : List Draft}

def ofShare (all : List Excerpt) (draft : Draft) : Query :=
  held (all.filter (draft.span.contains ·.span.start)) draft

theorem filter_filter_of_imp {tokens : List Excerpt} {p q : Excerpt → Bool}
    (h : ∀ token, q token = true → p token = true) :
    (tokens.filter p).filter q = tokens.filter q := by
  rw [List.filter_filter]
  refine List.filter_congr fun token _ => ?_
  cases hq : q token with
  | false => simp
  | true => simp [h token hq]

theorem heldAll_eq (tokens : List Excerpt)
    (hapart : drafts.Pairwise fun draft other => draft.span.Apart other.span) :
    (heldAll tokens drafts).1 = drafts.map (ofShare tokens) ∧
      (heldAll tokens drafts).2 =
        tokens.filter fun token => drafts.all fun draft =>
          !draft.span.contains token.span.start := by
  induction drafts generalizing tokens with
  | nil => exact ⟨rfl, (List.filter_eq_self.2 fun _ _ => rfl).symm⟩
  | cons draft drafts ih =>
      obtain ⟨hfirst, hrest⟩ := List.pairwise_cons.1 hapart
      obtain ⟨hqueries, hleft⟩ := ih (tokens.filter (!draft.span.contains ·.span.start)) hrest
      simp only [heldAll, hqueries, hleft]
      constructor
      · rw [List.map_cons]
        refine congrArg (List.cons _) (List.map_congr_left fun other hother => ?_)
        rw [ofShare, ofShare, filter_filter_of_imp fun token htoken => ?_]
        simp [(hfirst other hother).symm _ htoken]
      · rw [List.filter_filter]
        refine List.filter_congr fun token _ => ?_
        rw [List.all_cons, Bool.and_comm]

theorem children_ofShare (hnested : draft.Nested) (all : List Excerpt) :
    (ofShare all draft).commonTables = draft.commonTables.map (ofShare all) ∧
      (ofShare all draft).subqueries = draft.subqueries.map (ofShare all) := by
  cases hnested with
  | mk hapart hinside _ =>
      obtain ⟨hcommon, hothers, hcross⟩ := List.pairwise_append.1 hapart
      have hchild (child : Draft) (hchild : child ∈ draft.commonTables ++ draft.subqueries) :
          ofShare (all.filter (draft.span.contains ·.span.start)) child = ofShare all child := by
        rw [ofShare, ofShare, filter_filter_of_imp fun token htoken => ?_]
        exact Span.contains_of_encloses (hinside child hchild) htoken
      rw [ofShare, commonTables_held, subqueries_held, (heldAll_eq _ hcommon).1,
        (heldAll_eq _ hcommon).2, (heldAll_eq _ hothers).1]
      constructor
      · exact List.map_congr_left fun child h => hchild child (List.mem_append_left _ h)
      · refine List.map_congr_left fun child h => ?_
        rw [← hchild child (List.mem_append_right _ h), ofShare, ofShare,
          filter_filter_of_imp fun token htoken => ?_]
        refine List.all_eq_true.2 fun common hcommon => ?_
        simp [(hcross common hcommon child h).symm _ htoken]

theorem shared_ofShare (hnested : draft.Nested) (all : List Excerpt) :
    (ofShare all draft).Shared all := by
  induction hnested with
  | @mk draft hapart hinside hnested ih =>
      obtain ⟨hcommon, hothers⟩ := children_ofShare (.mk hapart hinside hnested) all
      have hspan (child : Draft) : (ofShare all child).span = child.span := span_held _ child
      refine .mk (by rw [hspan, ofShare, tokens_held]) ?_ ?_ ?_ <;>
        rw [hcommon, hothers, ← List.map_append]
      · exact List.pairwise_map.2 (hapart.imp fun h => by rw [hspan, hspan]; exact h)
      · refine List.forall_mem_map.2 fun child hchild => ?_
        rw [hspan, hspan]
        exact hinside child hchild
      · exact List.forall_mem_map.2 ih

end Drafts

end Query

namespace Atlas

section Lookup

variable {atlas : Atlas} {all : List Excerpt} {offset : Nat}

structure Shared (all : List Excerpt) (atlas : Atlas) : Prop where
  indexed : atlas.Indexed
  queries : ∀ query ∈ atlas.queries, query.Shared all
  covers : ∀ query ∈ atlas.queries, query.span.start ≤ query.span.stop
  apart : atlas.queries.Pairwise fun query next => query.span.stop < next.span.start

theorem Shared.queryAt (h : atlas.Shared all) :
    atlas.queryAt offset = atlas.queries.find? (·.span.contains offset) :=
  (h.indexed.queryAt offset).trans (Span.holder?_eq_find? h.covers h.apart)

theorem Shared.innermostAt (h : atlas.Shared all) :
    atlas.innermostAt offset =
      (atlas.queries.find? (·.span.contains offset)).map (Query.descend offset) := by
  rw [Atlas.innermostAt, h.queryAt]
  cases hfind : atlas.queries.find? (·.span.contains offset) with
  | none => rfl
  | some query =>
      have hcontains : query.span.contains offset = true := by simpa using List.find?_some hfind
      simp only [Option.bind_some, Option.map_some, Query.innermostAt, hcontains, if_true]

theorem Shared.filter_holds (h : atlas.Shared all) (offset : Nat) :
    atlas.allQueries.filter (Query.holds offset) = (atlas.innermostAt offset).toList := by
  rw [allQueries, List.filter_flatMap, h.innermostAt,
    ← Query.flatMap_of_apart _ (h.apart.imp Span.apart_of_lt), List.flatMap_def, List.flatMap_def,
    List.map_congr_left fun query hquery => (h.queries query hquery).filter_holds offset]

theorem Shared.of_mem (h : atlas.Shared all) {query : Query} (hquery : query ∈ atlas.allQueries) :
    query.Shared all ∧ ∃ top ∈ atlas.queries, ∀ offset, query.span.contains offset = true →
      top.span.contains offset = true := by
  obtain ⟨top, htop, hmem⟩ := List.mem_flatMap.1 hquery
  obtain ⟨hshared, hcontains⟩ := (h.queries top htop).of_mem_all hmem
  exact ⟨hshared, top, htop, hcontains⟩

theorem Shared.holds_iff (h : atlas.Shared all) (offset : Nat) {query : Query}
    (hquery : query ∈ atlas.allQueries) :
    query.holds offset = true ↔ atlas.innermostAt offset = some query := by
  have hfilter := h.filter_holds offset
  constructor
  · intro hholds
    have hmem : query ∈ atlas.allQueries.filter (Query.holds offset) :=
      List.mem_filter.2 ⟨hquery, hholds⟩
    rw [hfilter] at hmem
    exact Option.mem_toList.1 hmem
  · intro hinnermost
    have hmem : query ∈ atlas.allQueries.filter (Query.holds offset) := by
      rw [hfilter, hinnermost]
      exact List.mem_singleton_self query
    exact (List.mem_filter.1 hmem).2

end Lookup

section Drafts

variable {drafts : List Draft} {draft : Draft} {lo hi lo' hi' : Nat}

theorem shareOf_eq (hspread : Draft.Spread lo hi drafts) (hnumbered : Draft.Numbered lo' hi' drafts)
    (hdraft : draft ∈ drafts) (tokens : List Excerpt) :
    shareOf (tokenTarget drafts) draft tokens =
      tokens.filter (draft.span.contains ·.span.start) := by
  have hholder (offset : Nat) :
      (Span.holder? Draft.span offset drafts).map Draft.id = some draft.id ↔
        draft.span.contains offset = true := by
    rw [Span.holder?_eq_find? (fun draft h => (hspread.within draft h).2.1) hspread.apart,
      Option.map_eq_some_iff]
    constructor
    · rintro ⟨found, hfound, hid⟩
      rw [← hnumbered.eq_of_id (List.mem_of_find?_eq_some hfound) hdraft hid]
      simpa using List.find?_some hfound
    · intro hcontains
      exact ⟨draft, Span.find?_of_apart (hspread.apart.imp Span.apart_of_lt) hdraft hcontains, rfl⟩
  refine List.filter_congr fun token _ => ?_
  rw [tokenTarget, Bool.eq_iff_iff, decide_eq_true_iff]
  exact hholder token.span.start

theorem span_settled (draft : Draft) (tokens : List Excerpt) (diagnoses : List Diagnosis) :
    ((Query.held tokens draft).resolve.faulted diagnoses).span = draft.span := by
  rw [Query.faulted, Query.span_resolve, Query.span_held]

theorem spans_settled (drafts : List Draft) (tokens : List Excerpt) (diagnoses : List Diagnosis) :
    (settled drafts tokens diagnoses).queries.map Query.span = drafts.map Draft.span := by
  rw [settled, binding, List.map_map]
  exact List.map_congr_left fun draft _ => span_settled draft _ _

theorem shared_settled (hspread : Draft.Spread lo hi drafts)
    (hnumbered : Draft.Numbered lo' hi' drafts) (tokens : List Excerpt)
    (diagnoses : List Diagnosis) :
    (settled drafts tokens diagnoses).Shared tokens := by
  refine ⟨indexed_settled (List.pairwise_map.2 (hnumbered.sorted.imp Nat.ne_of_lt)) tokens
    diagnoses, ?_, ?_, ?_⟩
  · intro query hquery
    obtain ⟨draft, hdraft, rfl⟩ := List.mem_map.1 hquery
    beta_reduce
    rw [shareOf_eq hspread hnumbered hdraft]
    exact (Query.shared_ofShare (hspread.nested draft hdraft) tokens).resolve.faulted _
  · intro query hquery
    obtain ⟨draft, hdraft, rfl⟩ := List.mem_map.1 hquery
    rw [span_settled]
    exact (hspread.within draft hdraft).2.1
  · refine List.pairwise_map.2 (hspread.apart.imp fun h => ?_)
    rw [span_settled, span_settled]
    exact h

end Drafts

end Atlas

def Dialect.worded (script : String) : List Excerpt :=
  ((generic.lex script).tokens.filter (·.kind ≠ .eof)).map fun token =>
    ⟨token.span, token.text script⟩

theorem excerpts_lex (script : String) :
    Reader.excerpts script (Dialect.generic.lex script).tokens = Dialect.worded script := by
  obtain ⟨tokens, htokens, hspread⟩ := lex_spread script
  have hlex : (Dialect.generic.lex script).tokens = tokens ++ [endToken script.toList] := htokens
  have hplain : tokens.filter (·.kind ≠ .eof) = tokens :=
    List.filter_eq_self.2 fun token htoken => decide_eq_true (hspread.placed token htoken).plain
  have hworded : ((tokens.map fun token => (⟨token.span, token.text script⟩ : Excerpt)).filter
      (·.text ≠ "")) = tokens.map fun token => ⟨token.span, token.text script⟩ := by
    refine List.filter_eq_self.2 fun excerpt hexcerpt => ?_
    obtain ⟨token, htoken, rfl⟩ := List.mem_map.1 hexcerpt
    exact decide_eq_true (hspread.placed token htoken).worded
  have hend : (endToken script.toList).kind = .eof := rfl
  rw [Reader.excerpts, Dialect.worded, hlex, List.map_append, List.filter_append,
    List.filter_append, hplain, hworded]
  simp [hend, text_endToken]

theorem spread_drafts (script : String) :
    ∃ hi, Draft.Spread 0 hi (Dialect.generic.drafts script) := by
  obtain ⟨tokens, htokens, hspread⟩ := lex_spread script
  have hlex : (Dialect.generic.lex script).tokens = tokens ++ [endToken script.toList] := htokens
  rw [Reader.drafts, hlex]
  exact ⟨_, Draft.spread_ofScript (fun tree htree => (roots_shaped hspread rfl htree).2)
    (roots_apart hspread rfl)⟩

theorem shared_survey (script : String) :
    (Dialect.generic.survey script).Shared (Dialect.worded script) := by
  obtain ⟨hi, hdrafts⟩ := spread_drafts script
  rw [← excerpts_lex, Reader.survey_eq_settled]
  exact Atlas.shared_settled hdrafts (Draft.numbered_ofScript _) _ _

theorem spans_survey (script : String) : (Dialect.generic.survey script).queries.map Query.span =
    (Dialect.generic.parse script (Dialect.generic.lex script).tokens).trees.map Node.extent := by
  obtain ⟨tokens, htokens, hspread⟩ := lex_spread script
  have hlex : (Dialect.generic.lex script).tokens = tokens ++ [endToken script.toList] := htokens
  rw [Reader.survey_eq_settled, Atlas.spans_settled, Reader.drafts, hlex]
  refine Draft.spans_ofScript fun tree htree => ?_
  obtain ⟨⟨type, htype⟩, -⟩ := roots_shaped hspread rfl htree
  rw [htype]
  rfl

open Classical in
theorem survey_shares_tokens (script : String) :
    let atlas := Dialect.generic.survey script
    let statements := (Dialect.generic.parse script (Dialect.generic.lex script).tokens).trees
    let tokens := ((Dialect.generic.lex script).tokens.filter (·.kind ≠ .eof)).map
      fun token => (⟨token.span, token.text script⟩ : Excerpt)
    (∀ query ∈ atlas.allQueries,
      query.tokens = tokens.filter (query.span.contains ·.span.start) ∧
      query.ownTokens = query.tokens.filter fun token =>
        atlas.innermostAt token.span.start = some query) ∧
    ∀ token ∈ tokens,
      ((∃ statement ∈ statements, statement.extent.contains token.span.start = true) →
        ∃ query, atlas.allQueries.filter (fun query => token ∈ query.ownTokens) = [query]) ∧
      ((∀ statement ∈ statements, statement.extent.contains token.span.start = false) →
        ∀ query ∈ atlas.allQueries, token ∉ query.tokens) := by
  intro atlas statements tokens
  have hshared : atlas.Shared tokens := shared_survey script
  have hspans : atlas.queries.map Query.span = statements.map Node.extent := spans_survey script
  refine ⟨fun query hquery => ⟨(hshared.of_mem hquery).1.tokens_eq, ?_⟩,
    fun token htoken => ⟨?_, ?_⟩⟩
  · refine List.filter_congr fun token htoken => ?_
    have hin : query.span.contains token.span.start = true := by
      rw [(hshared.of_mem hquery).1.tokens_eq] at htoken
      exact (List.mem_filter.1 htoken).2
    have hholds := hshared.holds_iff token.span.start hquery
    rw [Query.holds, hin, Bool.true_and] at hholds
    exact Bool.eq_iff_iff.2 (hholds.trans (decide_eq_true_iff).symm)
  · rintro ⟨statement, hstatement, hcontains⟩
    obtain ⟨top, htop, hspan⟩ : ∃ top ∈ atlas.queries, top.span = statement.extent :=
      List.mem_map.1 (hspans ▸ List.mem_map_of_mem hstatement)
    rw [← hspan] at hcontains
    have hfind := Span.find?_of_apart (hshared.apart.imp Span.apart_of_lt) htop hcontains
    have hfilter := hshared.filter_holds token.span.start
    rw [hshared.innermostAt, hfind] at hfilter
    refine ⟨top.descend token.span.start, ?_⟩
    rw [← Option.toList_some, ← Option.map_some, ← hfilter]
    refine List.filter_congr fun query hquery => ?_
    exact Bool.eq_iff_iff.2
      (decide_eq_true_iff.trans ((hshared.of_mem hquery).1.mem_ownTokens_iff htoken))
  · intro hout query hquery hmem
    obtain ⟨hquery, top, htop, hcontains⟩ := hshared.of_mem hquery
    rw [hquery.tokens_eq] at hmem
    have hin := hcontains _ (List.mem_filter.1 hmem).2
    obtain ⟨statement, hstatement, hspan⟩ : ∃ statement ∈ statements, statement.extent = top.span :=
      List.mem_map.1 (hspans ▸ List.mem_map_of_mem htop)
    rw [← hspan, hout statement hstatement] at hin
    cases hin

end SqlAtlas

import SqlAtlas.Proofs.Assignment
import SqlAtlas.Proofs.Trail

namespace SqlAtlas

namespace Excerpt

def places (pick : Excerpt → Bool) (tokens : List Excerpt) : List Nat :=
  (tokens.zipIdx.filter fun entry => pick entry.1).map Prod.snd

variable {pick : Excerpt → Bool} {tokens : List Excerpt} {i : Nat}

theorem mem_places : i ∈ places pick tokens ↔ ∃ token, tokens[i]? = some token ∧
    pick token = true := by
  simp only [places, List.mem_map, List.mem_filter, Prod.exists, exists_eq_right,
    List.mem_zipIdx_iff_getElem?]

theorem pairwise_places (pick : Excerpt → Bool) (tokens : List Excerpt) :
    (places pick tokens).Pairwise (· < ·) := by
  have hall : (tokens.zipIdx.map Prod.snd).Pairwise (· < ·) := by
    rw [List.zipIdx_map_snd]
    exact List.pairwise_lt_range'
  exact hall.sublist (List.filter_sublist.map _)

theorem filter_zipIdx (tokens : List Excerpt) (n k : Nat) :
    (tokens.zipIdx n).filter (fun entry => n + k ≤ entry.2) = (tokens.drop k).zipIdx (n + k) := by
  induction tokens generalizing n k with
  | nil => simp
  | cons token tokens ih =>
      cases k with
      | zero =>
          refine List.filter_eq_self.2 fun entry hentry => ?_
          simpa using (List.mem_zipIdx hentry).1
      | succ k =>
          have hrest := ih (n + 1) k
          rw [Nat.add_right_comm] at hrest
          rw [List.zipIdx_cons, List.filter_cons_of_neg (by simp), List.drop_succ_cons,
            ← Nat.add_assoc, hrest]

theorem map_places (pick : Excerpt → Bool) (tokens : List Excerpt) (k : Nat) :
    ((places pick tokens).filter (k ≤ ·)).map (tokens[·]?) =
      ((tokens.drop k).filter pick).map some := by
  have hentries : (tokens.zipIdx.filter fun entry => pick entry.1).filter (k ≤ ·.2) =
      ((tokens.drop k).zipIdx k).filter fun entry => pick entry.1 := by
    have hfrom := filter_zipIdx tokens 0 k
    rw [Nat.zero_add] at hfrom
    rw [List.filter_comm, hfrom]
  have hfirst : (tokens.drop k).filter pick =
      (((tokens.drop k).zipIdx k).filter fun entry => pick entry.1).map Prod.fst := by
    conv_lhs => rw [← List.zipIdx_map_fst k (tokens.drop k)]
    rw [List.filter_map]
    rfl
  rw [places, List.filter_map, Function.comp_def, hentries, hfirst, List.map_map, List.map_map]
  refine List.map_congr_left fun entry hentry => ?_
  rw [← hentries] at hentry
  exact List.mem_zipIdx_iff_getElem?.1 (List.mem_of_mem_filter (List.mem_of_mem_filter hentry))

end Excerpt

namespace Query

section First

theorem heldAll_append (tokens : List Excerpt) (left right : List Draft) :
    heldAll tokens (left ++ right) =
      ((heldAll tokens left).1 ++ (heldAll (heldAll tokens left).2 right).1,
        (heldAll (heldAll tokens left).2 right).2) := by
  induction left generalizing tokens with
  | nil => rfl
  | cons draft left ih => simp only [List.cons_append, heldAll, ih]

variable {drafts : List Draft} {draft : Draft}

theorem heldAll_eq_first (hids : (drafts.map Draft.id).Nodup) (tokens : List Excerpt) :
    (heldAll tokens drafts).1 = drafts.map fun draft =>
      held (tokens.filter fun token =>
        (drafts.find? (·.span.contains token.span.start)).map Draft.id = some draft.id) draft := by
  induction drafts generalizing tokens with
  | nil => rfl
  | cons first drafts ih =>
      obtain ⟨hfirst, hrest⟩ := List.nodup_cons.1 hids
      have hlater (draft : Draft) (hdraft : draft ∈ drafts) : first.id ≠ draft.id :=
        fun heq => hfirst (heq ▸ List.mem_map_of_mem hdraft)
      simp only [heldAll, ih hrest, List.map_cons]
      congr 1
      · refine congrArg (held · first) (List.filter_congr fun token _ => ?_)
        cases hinside : first.span.contains token.span.start with
        | true => simp [hinside]
        | false =>
            cases hfind : drafts.find? (·.span.contains token.span.start) with
            | none => simp [hinside, hfind]
            | some draft =>
                simpa [List.find?_cons, hinside, hfind] using
                  (hlater draft (List.mem_of_find?_eq_some hfind)).symm
      · refine List.map_congr_left fun draft hdraft => congrArg (held · draft) ?_
        rw [List.filter_filter]
        refine List.filter_congr fun token _ => ?_
        cases hinside : first.span.contains token.span.start with
        | true => simpa [List.find?_cons, hinside] using hlater draft hdraft
        | false => simp [hinside]

theorem children_held (hids : ((draft.commonTables ++ draft.subqueries).map Draft.id).Nodup)
    (tokens : List Excerpt) :
    (held tokens draft).commonTables ++ (held tokens draft).subqueries =
      (draft.commonTables ++ draft.subqueries).map fun child =>
        held (tokens.filter fun token =>
          (draft.childAt token.span.start).map Draft.id = some child.id) child := by
  have hchildren : (held tokens draft).commonTables ++ (held tokens draft).subqueries =
      (heldAll tokens (draft.commonTables ++ draft.subqueries)).1 := by
    cases draft
    rw [held, heldAll_append]
  rw [hchildren, heldAll_eq_first hids]
  rfl

end First

-- The queries hold the tokens that `on` lets through for them, and inward `on` lets through fewer:
-- for no two queries in a query the same.
inductive Linked (tokens : List Excerpt) (on : Nat → Excerpt → Bool) : Query → Prop
  | mk {query : Query} : query.tokens = tokens.filter (on query.id) →
      (∀ token ∈ query.tokens, query.span.contains token.span.start = true) →
      (∀ child ∈ query.commonTables ++ query.subqueries, ∀ token,
        on child.id token = true → on query.id token = true) →
      ((query.commonTables ++ query.subqueries).Pairwise fun child other =>
        ∀ token, ¬ (on child.id token = true ∧ on other.id token = true)) →
      (∀ child ∈ query.commonTables ++ query.subqueries, Linked tokens on child) →
      Linked tokens on query

section Linked

variable {query child : Query} {tokens : List Excerpt} {on : Nat → Excerpt → Bool}

theorem Linked.of_mem_all (h : query.Linked tokens on) (hmem : child ∈ query.all) :
    child.Linked tokens on := by
  induction h generalizing child with
  | @mk query htokens hinside hfewer hapart hchildren ih =>
      rw [all_eq] at hmem
      rcases List.mem_cons.1 hmem with rfl | hmem
      · exact .mk htokens hinside hfewer hapart hchildren
      · obtain ⟨inner, hinner, hmem⟩ := List.mem_flatMap.1 hmem
        exact ih inner hinner hmem

theorem Linked.named (h : query.Linked tokens on) : query.named.Linked tokens on := by
  cases h with
  | mk htokens hinside hfewer hapart hchildren => exact .mk htokens hinside hfewer hapart hchildren

theorem Linked.faulted (h : query.Linked tokens on) (diagnoses : List Diagnosis) :
    (query.faulted diagnoses).Linked tokens on := by
  cases h with
  | mk htokens hinside hfewer hapart hchildren => exact .mk htokens hinside hfewer hapart hchildren

theorem Linked.resolve (h : query.Linked tokens on) : query.resolve.Linked tokens on := by
  induction h with
  | @mk query htokens hinside hfewer hapart _ ih =>
      refine .mk ?_ ?_ ?_ ?_ ?_
      · rw [tokens_resolve, id_resolve, htokens]
      · rw [tokens_resolve, span_resolve]
        exact hinside
      · intro child hchild token hon
        rw [id_resolve]
        obtain ⟨origin, horigin, rfl | rfl⟩ := exists_origin_of_mem_resolve hchild <;>
        · simp only [Query.named, id_resolve] at hon
          exact hfewer origin horigin token hon
      · exact pairwise_resolve
          (R := fun id other => ∀ token, ¬ (on id token = true ∧ on other token = true))
          Query.id (fun h token hboth => h token hboth.symm) (fun _ => rfl) id_resolve hapart
      · intro child hchild
        obtain ⟨origin, horigin, rfl | rfl⟩ := exists_origin_of_mem_resolve hchild
        · exact (ih origin horigin).named
        · exact ih origin horigin

end Linked

theorem linked_held {drafts : List Draft} (hids : ((Draft.allIn drafts).map Draft.id).Nodup)
    {draft : Draft} (hdraft : ∀ node ∈ draft.all, node ∈ Draft.allIn drafts)
    (tokens : List Excerpt) :
    (held (tokens.filter fun token => draft.id ∈ Draft.trailIn drafts token.span.start)
      draft).Linked tokens
      fun id token => id ∈ Draft.trailIn drafts token.span.start := by
  induction draft using Draft.induct with
  | step draft ih =>
      have hself : draft ∈ Draft.allIn drafts :=
        hdraft draft (by rw [Draft.all_eq]; exact List.mem_cons_self)
      have hchildIds := Draft.nodup_childIds hids hself
      have hstep {child : Draft} (hchild : child ∈ draft.commonTables ++ draft.subqueries)
          (offset : Nat) :
          child.id ∈ Draft.trailIn drafts offset ↔ draft.id ∈ Draft.trailIn drafts offset ∧
            (draft.childAt offset).map Draft.id = some child.id := by
        rw [Draft.mem_trailIn_step hids hself hchild, Draft.map_id_childAt_iff hids hself hchild]
      have hshare {child : Draft} (hchild : child ∈ draft.commonTables ++ draft.subqueries) :
          ((tokens.filter fun token => draft.id ∈ Draft.trailIn drafts token.span.start).filter
              fun token =>
            (draft.childAt token.span.start).map Draft.id = some child.id) =
          tokens.filter fun token => child.id ∈ Draft.trailIn drafts token.span.start := by
        rw [List.filter_filter]
        refine List.filter_congr fun token _ => ?_
        rw [Bool.and_comm, ← Bool.decide_and]
        exact decide_eq_decide.2 (hstep hchild token.span.start).symm
      refine .mk ?_ ?_ ?_ ?_ ?_
      · rw [tokens_held, id_held]
      · intro token htoken
        rw [tokens_held] at htoken
        rw [span_held]
        exact Draft.contains_of_mem_trailIn hids hself
          (of_decide_eq_true (List.mem_filter.1 htoken).2)
      all_goals rw [children_held hchildIds]
      · refine List.forall_mem_map.2 fun child hchild token hon => ?_
        rw [id_held] at hon ⊢
        exact decide_eq_true ((hstep hchild _).1 (of_decide_eq_true hon)).1
      · refine List.pairwise_map.2 ((List.pairwise_map.1 hchildIds).imp_of_mem ?_)
        intro child other hchild hother hne token hboth
        rw [id_held, id_held] at hboth
        have hat := ((hstep hchild _).1 (of_decide_eq_true hboth.1)).2
        have hat' := ((hstep hother _).1 (of_decide_eq_true hboth.2)).2
        exact hne (Option.some.inj (hat.symm.trans hat'))
      · refine List.forall_mem_map.2 fun child hchild => ?_
        rw [hshare hchild]
        refine ih child hchild fun node hnode => hdraft node ?_
        rw [Draft.all_eq]
        exact List.mem_cons_of_mem _ (List.mem_flatMap.2 ⟨child, hchild, hnode⟩)

end Query

def Draft.placesOf (drafts : List Draft) (tokens : List Excerpt) (id : Nat) : List Nat :=
  Excerpt.places (fun token => id ∈ Draft.trailIn drafts token.span.start) tokens

namespace Atlas

structure Chained (tokens : List Excerpt) (places : Nat → List Nat) (atlas : Atlas) : Prop where
  increasing : ∀ query ∈ atlas.allQueries, (places query.id).Pairwise (· < ·)
  held : ∀ query ∈ atlas.allQueries, (places query.id).map (tokens[·]?) = query.tokens.map some
  inside : ∀ query ∈ atlas.allQueries, ∀ token ∈ query.tokens,
    query.span.contains token.span.start = true
  inward : ∀ query ∈ atlas.allQueries, ∀ child ∈ query.commonTables ++ query.subqueries,
    places child.id ⊆ places query.id
  apart : ∀ query ∈ atlas.allQueries, (query.commonTables ++ query.subqueries).Pairwise
    fun child other => (places child.id).Disjoint (places other.id)
  topApart : atlas.queries.Pairwise fun top other => (places top.id).Disjoint (places other.id)

section Chained

variable {drafts : List Draft} {atlas : Atlas} {tokens : List Excerpt}

theorem linked_of_mem_allQueries {on : Nat → Excerpt → Bool}
    (h : ∀ top ∈ atlas.queries, top.Linked tokens on) {query : Query}
    (hquery : query ∈ atlas.allQueries) : query.Linked tokens on := by
  obtain ⟨top, htop, hmem⟩ := List.mem_flatMap.1 hquery
  exact (h top htop).of_mem_all hmem

theorem chained_of_linked {on : Nat → Excerpt → Bool}
    (h : ∀ top ∈ atlas.queries, top.Linked tokens on)
    (htops : atlas.queries.Pairwise fun top other =>
      ∀ token, ¬ (on top.id token = true ∧ on other.id token = true)) :
    atlas.Chained tokens fun id => Excerpt.places (on id) tokens := by
  have hdisjoint {id other : Nat} (h : ∀ token, ¬ (on id token = true ∧ on other token = true)) :
      (Excerpt.places (on id) tokens).Disjoint (Excerpt.places (on other) tokens) := by
    intro i hi hother
    obtain ⟨token, htoken, hon⟩ := Excerpt.mem_places.1 hi
    obtain ⟨second, hsecond, hon'⟩ := Excerpt.mem_places.1 hother
    obtain rfl := Option.some.inj (htoken.symm.trans hsecond)
    exact h token ⟨hon, hon'⟩
  refine ⟨fun query _ => Excerpt.pairwise_places _ _, fun query hquery => ?_,
    fun query hquery => ?_,
    fun query hquery child hchild => ?_, fun query hquery => ?_, htops.imp hdisjoint⟩
  all_goals cases linked_of_mem_allQueries h hquery with | mk htokens hinside hfewer hapart _
  · have hall := Excerpt.map_places (on query.id) tokens 0
    rwa [List.filter_eq_self.2 (by simp), List.drop_zero, ← htokens] at hall
  · exact hinside
  · intro i hi
    obtain ⟨token, htoken, hon⟩ := Excerpt.mem_places.1 hi
    exact Excerpt.mem_places.2 ⟨token, htoken, hfewer child hchild token hon⟩
  · exact hapart.imp hdisjoint

variable (hids : ((Draft.allIn drafts).map Draft.id).Nodup)
include hids

theorem shareOf_tokenTarget {draft : Draft} (hdraft : draft ∈ drafts) (tokens : List Excerpt) :
    shareOf (tokenTarget drafts) draft tokens =
      tokens.filter fun token => draft.id ∈ Draft.trailIn drafts token.span.start :=
  List.filter_congr fun _ _ => decide_eq_decide.2 (Draft.map_id_holder?_iff hids hdraft)

theorem linked_holding (tokens : List Excerpt) :
    ∀ top ∈ (holding drafts tokens).queries,
      top.Linked tokens fun id token => id ∈ Draft.trailIn drafts token.span.start := by
  refine List.forall_mem_map.2 fun draft hdraft => ?_
  rw [shareOf_tokenTarget hids hdraft]
  refine Query.linked_held hids (fun node hnode => ?_) tokens
  rw [Draft.allIn_eq_flatMap]
  exact List.mem_flatMap.2 ⟨draft, hdraft, hnode⟩

theorem tops_apart : drafts.Pairwise fun top other => ∀ token : Excerpt,
    ¬ (decide (top.id ∈ Draft.trailIn drafts token.span.start) = true ∧
      decide (other.id ∈ Draft.trailIn drafts token.span.start) = true) := by
  refine (List.pairwise_map.1 (Draft.nodup_tops hids)).imp_of_mem fun {top other} htop hother hne
    token hboth => ?_
  have hholder := (Draft.mem_trailIn_top hids htop).1 (of_decide_eq_true hboth.1)
  have hholder' := (Draft.mem_trailIn_top hids hother).1 (of_decide_eq_true hboth.2)
  exact hne (congrArg Draft.id (Option.some.inj (hholder.symm.trans hholder')))

theorem chained_holding (tokens : List Excerpt) :
    (holding drafts tokens).Chained tokens (Draft.placesOf drafts tokens) := by
  refine chained_of_linked (linked_holding hids tokens) (List.pairwise_map.2 ?_)
  simpa only [Query.id_held] using tops_apart hids

theorem chained_settled (tokens : List Excerpt) (diagnoses : List Diagnosis) :
    (settled drafts tokens diagnoses).Chained tokens (Draft.placesOf drafts tokens) := by
  refine chained_of_linked (List.forall_mem_map.2 fun draft hdraft => ?_) (List.pairwise_map.2 ?_)
  · exact (List.forall_mem_map.1 (linked_holding hids tokens) draft hdraft).resolve.faulted _
  · simpa only [Query.faulted, Query.id_resolve, Query.id_held] using tops_apart hids

end Chained

end Atlas

theorem survey_chains_tokens {κ : Type} (reader : Reader κ) (script : String) :
    let lexing := reader.lex script
    let drafts := Draft.ofScript (reader.parse script lexing.tokens).trees
    let tokens := Reader.excerpts script lexing.tokens
    let places := Draft.placesOf drafts tokens
    let assigned := fun tokens => (Atlas.ofDrafts drafts).assign tokens
    (assigned tokens).2 = [] ∧
    ((assigned tokens).1.allQueries.map Query.id).Nodup ∧
    (∀ k, ∀ query ∈ (assigned (tokens.drop k)).1.allQueries,
      ((places query.id).filter (k ≤ ·)).map (tokens[·]?) = query.tokens.map some) ∧
    (assigned tokens).1.Chained tokens places ∧
    (reader.survey script).Chained tokens places := by
  intro lexing drafts tokens places assigned
  have hids : ((Draft.allIn drafts).map Draft.id).Nodup := Draft.nodup_ids_ofScript _
  have hassigned (tokens : List Excerpt) : assigned tokens = (Atlas.holding drafts tokens, []) :=
    Atlas.assign_ofDrafts (reader.nodup_drafts script) (fun _ => Draft.climbs_ofScript) tokens
  simp only [hassigned]
  refine ⟨trivial, ?_, fun k query hquery => ?_, Atlas.chained_holding hids tokens, ?_⟩
  · rwa [Atlas.map_allQueries_holding Query.id_held]
  · cases Atlas.linked_of_mem_allQueries (Atlas.linked_holding hids (tokens.drop k)) hquery with
    | mk htokens => rw [htokens]; exact Excerpt.map_places _ tokens k
  · rw [reader.survey_eq_settled]
    exact Atlas.chained_settled hids _ _

end SqlAtlas

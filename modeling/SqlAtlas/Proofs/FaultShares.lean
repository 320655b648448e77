import Mathlib.Data.List.Perm.Basic
import SqlAtlas.Proofs.TokenShares

namespace SqlAtlas

namespace Query

inductive Clear : Query → Prop
  | mk {query : Query} : query.diagnoses = [] →
      (∀ child ∈ query.commonTables ++ query.subqueries, Clear child) → Clear query

variable {query child : Query}

theorem Clear.diagnoses_eq_nil (h : query.Clear) : query.diagnoses = [] := by
  cases h
  assumption

theorem Clear.named (h : query.Clear) : query.named.Clear := by
  cases h with
  | mk hnone hchildren => exact .mk hnone hchildren

theorem Clear.of_mem_all (h : query.Clear) (hmem : child ∈ query.all) : child.Clear := by
  induction h generalizing child with
  | @mk query hnone hchildren ih =>
      rw [all_eq] at hmem
      rcases List.mem_cons.1 hmem with rfl | hmem
      · exact .mk hnone hchildren
      · obtain ⟨inner, hinner, hmem⟩ := List.mem_flatMap.1 hmem
        exact ih inner hinner hmem

theorem Clear.resolve (h : query.Clear) : query.resolve.Clear := by
  induction h with
  | @mk query hnone _ ih =>
      refine .mk (by rw [diagnoses_resolve, hnone]) fun child hchild => ?_
      obtain ⟨origin, horigin, rfl | rfl⟩ := exists_origin_of_mem_resolve hchild
      · exact (ih origin horigin).named
      · exact ih origin horigin

mutual

theorem clear_held (tokens : List Excerpt) (draft : Draft) : (held tokens draft).Clear := by
  match draft with
  | { commonTables, subqueries, .. } =>
      rw [held, ofDraft]
      refine .mk rfl fun child hchild => ?_
      rcases List.mem_append.1 hchild with hchild | hchild
      · exact clear_heldAll tokens commonTables child hchild
      · exact clear_heldAll _ subqueries child hchild

theorem clear_heldAll (tokens : List Excerpt) (drafts : List Draft) :
    ∀ query ∈ (heldAll tokens drafts).1, query.Clear := by
  cases drafts with
  | nil => simp [heldAll]
  | cons draft drafts =>
      intro query hquery
      rcases List.mem_cons.1 hquery with rfl | hquery
      · exact clear_held _ draft
      · exact clear_heldAll _ drafts query hquery

end

theorem Clear.nested_faulted (h : query.Clear) (diagnoses : List Diagnosis) {nested : Query}
    (hchild : child ∈ (query.faulted diagnoses).commonTables ++
      (query.faulted diagnoses).subqueries)
    (hnested : nested ∈ child.all) : nested.diagnoses = [] := by
  cases h with
  | mk _ hchildren => exact ((hchildren child hchild).of_mem_all hnested).diagnoses_eq_nil

theorem Clear.flatMap_all_faulted (h : query.Clear) (diagnoses : List Diagnosis) :
    (query.faulted diagnoses).all.flatMap Query.diagnoses = diagnoses := by
  rw [all_eq, List.flatMap_cons]
  refine List.append_right_eq_self.2 (List.flatMap_eq_nil_iff.2 fun nested hnested => ?_)
  obtain ⟨child, hchild, hnested⟩ := List.mem_flatMap.1 hnested
  exact h.nested_faulted diagnoses hchild hnested

end Query

namespace Atlas

variable {α : Type} {drafts : List Draft} {draft : Draft}

theorem flatMap_of_id (hids : (drafts.map Draft.id).Nodup) (hdraft : draft ∈ drafts) (item : α) :
    (drafts.flatMap fun other => if some draft.id = some other.id then [item] else []) =
      [item] := by
  induction drafts with
  | nil => cases hdraft
  | cons first drafts ih =>
      obtain ⟨hfirst, hids⟩ := List.nodup_cons.1 hids
      rw [List.flatMap_cons]
      rcases List.mem_cons.1 hdraft with rfl | hdraft
      · have hrest :
            (drafts.flatMap fun other => if some draft.id = some other.id then [item] else []) =
              [] := by
          refine List.flatMap_eq_nil_iff.2 fun other hother => if_neg fun hid => hfirst ?_
          rw [Option.some.inj hid]
          exact List.mem_map_of_mem hother
        rw [hrest]
        simp
      · have hother : draft.id ≠ first.id := fun hid => hfirst (hid ▸ List.mem_map_of_mem hdraft)
        simpa [hother] using ih hids hdraft

theorem flatMap_shareOf_perm (hids : (drafts.map Draft.id).Nodup) (target : α → Option Nat)
    (items : List α) (h : ∀ item ∈ items, ∃ draft ∈ drafts, target item = some draft.id) :
    (drafts.flatMap fun draft => shareOf target draft items).Perm items := by
  induction items with
  | nil => simp [shareOf]
  | cons item items ih =>
      obtain ⟨draft, hdraft, htarget⟩ := h item List.mem_cons_self
      have hrest := ih fun item hitem => h item (List.mem_cons_of_mem _ hitem)
      have hsplit (other : Draft) : shareOf target other (item :: items) =
          (if some draft.id = some other.id then [item] else []) ++ shareOf target other items := by
        rw [shareOf_cons, htarget]
        split <;> rfl
      simp only [hsplit]
      refine (List.flatMap_append_perm _ _ _).symm.trans ?_
      rw [flatMap_of_id hids hdraft]
      exact hrest.cons item

section Settled

variable {tokens : List Excerpt} {diagnoses : List Diagnosis}

theorem diagnoses_settled_perm (hids : (drafts.map Draft.id).Nodup) (hne : drafts ≠ [])
    (tokens : List Excerpt) (diagnoses : List Diagnosis) :
    ((settled drafts tokens diagnoses).queries.flatMap Query.diagnoses).Perm diagnoses := by
  have hshares := flatMap_shareOf_perm hids (faultTarget drafts) diagnoses fun diagnosis _ => by
    obtain ⟨draft, hdraft, hnearest⟩ := exists_nearest hne diagnosis.excerpt.span.start
    exact ⟨draft, hdraft, congrArg (Option.map Draft.id) hnearest⟩
  rw [settled, binding, List.flatMap_map]
  exact hshares

theorem diagnoses_sublist {query : Query}
    (hquery : query ∈ (settled drafts tokens diagnoses).queries) :
    query.diagnoses.Sublist diagnoses := by
  obtain ⟨draft, -, rfl⟩ := List.mem_map.1 hquery
  exact List.filter_sublist

theorem diagnoses_nested {query child nested : Query}
    (hquery : query ∈ (settled drafts tokens diagnoses).queries)
    (hchild : child ∈ query.commonTables ++ query.subqueries) (hnested : nested ∈ child.all) :
    nested.diagnoses = [] := by
  obtain ⟨draft, -, rfl⟩ := List.mem_map.1 hquery
  exact (Query.clear_held _ draft).resolve.nested_faulted _ hchild hnested

theorem flatMap_allQueries_settled :
    (settled drafts tokens diagnoses).allQueries.flatMap Query.diagnoses =
      (settled drafts tokens diagnoses).queries.flatMap Query.diagnoses := by
  rw [allQueries, List.flatMap_assoc]
  refine List.flatMap_congr fun query hquery => ?_
  obtain ⟨draft, -, rfl⟩ := List.mem_map.1 hquery
  exact (Query.clear_held _ draft).resolve.flatMap_all_faulted _

end Settled

end Atlas

namespace Reader

def before (left right : Fault) : Bool := left.span.start ≤ right.span.start

theorem before_trans (a b c : Fault) (hab : before a b = true) (hbc : before b c = true) :
    before a c = true := by
  simp only [before, decide_eq_true_eq] at hab hbc ⊢
  exact Nat.le_trans hab hbc

theorem before_total (a b : Fault) : (before a b || before b a) = true := by
  simpa [before] using Nat.le_total _ _

theorem pairwise_inOrder (faults : List Fault) :
    (inOrder faults).Pairwise fun fault next => fault.span.start ≤ next.span.start :=
  (List.pairwise_mergeSort before_trans before_total faults).imp of_decide_eq_true

-- Faults at one offset are in order already, so sorting leaves them as they are.
theorem filter_inOrder (faults : List Fault) (offset : Nat) :
    (inOrder faults).filter (·.span.start = offset) = faults.filter (·.span.start = offset) := by
  have hsame : (faults.filter (·.span.start = offset)).Pairwise fun left right =>
      before left right = true := by
    refine List.Pairwise.imp_of_mem (R := fun _ _ => True) (fun {left right} hleft hright _ => ?_)
      (List.pairwise_of_forall fun _ _ => trivial)
    simp only [List.mem_filter, decide_eq_true_eq] at hleft hright
    simp [before, hleft.2, hright.2]
  have hsub : (faults.filter (·.span.start = offset)).Sublist (inOrder faults) :=
    List.sublist_mergeSort before_trans before_total hsame List.filter_sublist
  have hkept := hsub.filter (·.span.start = offset)
  rw [List.filter_filter] at hkept
  simp only [Bool.and_self] at hkept
  exact (hkept.eq_of_length
    ((List.mergeSort_perm faults before).filter _).length_eq.symm).symm

end Reader

-- `held` resolves some of the reported faults, in the order of the script and, among faults at one
-- offset, in the order of the report.
def Fault.Kept (resolve : Fault → Diagnosis) (reported : List Fault) (held : List Diagnosis) :
    Prop :=
  ∃ faults : List Fault, held = faults.map resolve ∧
    faults.Pairwise (fun fault next => fault.span.start ≤ next.span.start) ∧
    ∀ offset, (faults.filter (·.span.start = offset)).Sublist reported

theorem Fault.kept_of_sublist {resolve : Fault → Diagnosis} (reported : List Fault)
    {held : List Diagnosis} (h : held.Sublist ((Reader.inOrder reported).map resolve)) :
    Kept resolve reported held := by
  obtain ⟨faults, hfaults, rfl⟩ := List.sublist_map_iff.1 h
  refine ⟨faults, rfl, (Reader.pairwise_inOrder reported).sublist hfaults, fun offset => ?_⟩
  have hkept := hfaults.filter (·.span.start = offset)
  rw [Reader.filter_inOrder] at hkept
  exact hkept.trans List.filter_sublist

theorem survey_conserves_faults {κ : Type} (reader : Reader κ) (script : String) :
    let lexing := reader.lex script
    let parsing := reader.parse script lexing.tokens
    let textOf := fun span : Span => (Text.slice? span.start (span.stop + 1) script).getD ""
    let resolve := fun fault : Fault =>
      (⟨fault.stage, ⟨fault.span, textOf fault.span⟩, fault.message⟩ : Diagnosis)
    let reported := lexing.faults ++ parsing.faults
    let atlas := reader.survey script
    atlas.diagnoses.Perm (reported.map resolve) ∧
    (atlas.queries = [] → atlas.unbound.Perm (reported.map resolve)) ∧
    (atlas.queries ≠ [] →
      atlas.unbound = [] ∧ (atlas.queries.flatMap Query.diagnoses).Perm (reported.map resolve)) ∧
    (∀ top ∈ atlas.queries, ∀ child ∈ top.commonTables ++ top.subqueries, ∀ nested ∈ child.all,
      nested.diagnoses = []) ∧
    Fault.Kept resolve reported atlas.unbound ∧
    ∀ top ∈ atlas.queries, Fault.Kept resolve reported top.diagnoses := by
  intro lexing parsing textOf resolve reported atlas
  have hatlas : atlas = Atlas.settled (reader.drafts script) (reader.tokens script)
      ((Reader.inOrder reported).map resolve) := reader.survey_eq_settled script
  have hsorted : ((Reader.inOrder reported).map resolve).Perm (reported.map resolve) :=
    (List.mergeSort_perm _ _).map _
  have hqueries : atlas.queries = [] ↔ reader.drafts script = [] := by
    rw [hatlas]
    exact List.map_eq_nil_iff
  have hunbound : atlas.unbound =
      if reader.drafts script = [] then (Reader.inOrder reported).map resolve else [] := by
    rw [hatlas]
    rfl
  have hnone (h : atlas.queries = []) : atlas.unbound.Perm (reported.map resolve) := by
    rw [hunbound, if_pos (hqueries.1 h)]
    exact hsorted
  have hsome (h : atlas.queries ≠ []) :
      atlas.unbound = [] ∧ (atlas.queries.flatMap Query.diagnoses).Perm (reported.map resolve) := by
    have hne : reader.drafts script ≠ [] := fun hdrafts => h (hqueries.2 hdrafts)
    rw [hunbound, if_neg hne, hatlas]
    exact ⟨rfl, (Atlas.diagnoses_settled_perm (reader.nodup_drafts script) hne _ _).trans hsorted⟩
  have hkept : Fault.Kept resolve reported atlas.unbound := by
    refine Fault.kept_of_sublist _ ?_
    rw [hunbound]
    split
    · exact List.Sublist.refl _
    · exact List.nil_sublist _
  refine ⟨?_, hnone, hsome, ?_, hkept, ?_⟩
  · have hall : atlas.allQueries.flatMap Query.diagnoses = atlas.queries.flatMap Query.diagnoses :=
      hatlas ▸ Atlas.flatMap_allQueries_settled
    rw [Atlas.diagnoses, hall]
    by_cases h : atlas.queries = []
    · simpa [h] using hnone h
    · obtain ⟨hempty, hheld⟩ := hsome h
      simpa [hempty] using hheld
  · rw [hatlas]
    exact fun top htop child hchild nested => Atlas.diagnoses_nested htop hchild
  · rw [hatlas]
    exact fun top htop => Fault.kept_of_sublist _ (Atlas.diagnoses_sublist htop)

end SqlAtlas

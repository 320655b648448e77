import SqlAtlas.Proofs.DraftRows
import SqlAtlas.Proofs.IndexLookup
import SqlAtlas.Proofs.Preorder

namespace SqlAtlas

namespace Query

mutual

/-- The query of a draft, given the tokens that fall to it. A token that starts inside a nested
query falls to that query too: to the first such one, common tables before others. -/
def held (tokens : List Excerpt) : Draft → Query
  | draft@{ commonTables, subqueries, .. } =>
      let common := heldAll tokens commonTables
      { ofDraft draft with
        tokens := tokens
        commonTables := common.1
        subqueries := (heldAll common.2 subqueries).1 }

def heldAll (tokens : List Excerpt) : List Draft → List Query × List Excerpt
  | [] => ([], tokens)
  | draft :: drafts =>
      let inside := fun token : Excerpt => draft.span.contains token.span.start
      let rest := heldAll (tokens.filter (!inside ·)) drafts
      (held (tokens.filter inside) draft :: rest.1, rest.2)

end

mutual

theorem held_nil (draft : Draft) : held [] draft = ofDraft draft := by
  match draft with
  | { commonTables, subqueries, .. } =>
      rw [held, ofDraft, heldAll_nil commonTables, heldAll_nil subqueries]

theorem heldAll_nil (drafts : List Draft) : heldAll [] drafts = (ofDrafts drafts, []) := by
  cases drafts with
  | nil => rfl
  | cons draft drafts =>
      rw [heldAll, ofDrafts, List.filter_nil, List.filter_nil, held_nil draft, heldAll_nil drafts]

end

theorem id_ofDraft (draft : Draft) : (ofDraft draft).id = draft.id := by
  cases draft
  rw [ofDraft]

theorem span_ofDraft (draft : Draft) : (ofDraft draft).span = draft.span := by
  cases draft
  rw [ofDraft]

section Step

variable {token : Excerpt} {drafts : List Draft}

@[simp] theorem id_held (tokens : List Excerpt) (draft : Draft) :
    (held tokens draft).id = draft.id := by
  cases draft
  rfl

@[simp] theorem span_held (tokens : List Excerpt) (draft : Draft) :
    (held tokens draft).span = draft.span := by
  cases draft
  rfl

@[simp] theorem tokens_held (tokens : List Excerpt) (draft : Draft) :
    (held tokens draft).tokens = tokens := by
  cases draft
  rfl

theorem commonTables_held (tokens : List Excerpt) (draft : Draft) :
    (held tokens draft).commonTables = (heldAll tokens draft.commonTables).1 := by
  cases draft
  rfl

theorem subqueries_held (tokens : List Excerpt) (draft : Draft) :
    (held tokens draft).subqueries =
      (heldAll (heldAll tokens draft.commonTables).2 draft.subqueries).1 := by
  cases draft
  rfl

theorem heldAll_cons_of_none
    (h : ∀ draft ∈ drafts, draft.span.contains token.span.start = false) (tokens : List Excerpt) :
    heldAll (token :: tokens) drafts =
      ((heldAll tokens drafts).1, token :: (heldAll tokens drafts).2) := by
  induction drafts generalizing tokens with
  | nil => rfl
  | cons draft drafts ih =>
      have hout := h draft List.mem_cons_self
      have hrest := ih (fun draft hdraft => h draft (List.mem_cons_of_mem _ hdraft))
      simp only [heldAll, List.filter_cons, hout, hrest, Bool.not_false, if_true, if_false,
        Bool.false_eq_true]

theorem giveAny_of_none (previous : Nat)
    (h : ∀ draft ∈ drafts, draft.span.contains token.span.start = false) (tokens : List Excerpt) :
    giveAny token previous (heldAll tokens drafts).1 = none := by
  induction drafts generalizing tokens with
  | nil => rfl
  | cons draft drafts ih =>
      have hout := h draft List.mem_cons_self
      rw [heldAll, giveAny, span_held, hout,
        ih fun draft hdraft => h draft (List.mem_cons_of_mem _ hdraft)]
      rfl

mutual

-- Giving a token to a query that holds some is the same as giving it out with them. No query is met
-- twice, since identifiers grow.
theorem give_held {previous? : Option Nat} {draft : Draft} (hclimbs : draft.Climbs)
    (hprevious : ∀ previous ∈ previous?, previous < draft.id) (token : Excerpt)
    (tokens : List Excerpt) :
    give token previous? (held tokens draft) = (held (token :: tokens) draft, []) := by
  match draft with
  | { id, commonTables, subqueries, .. } =>
      obtain ⟨hlt, hchildren⟩ : (∀ child ∈ commonTables ++ subqueries, id < child.id) ∧
          ∀ child ∈ commonTables ++ subqueries, child.Climbs := by
        cases hclimbs with
        | mk hlt hchildren => exact ⟨hlt, hchildren⟩
      have hguard : previous?.any (id ≤ ·) = false := by
        cases previous? with
        | none => rfl
        | some previous => simpa using hprevious previous rfl
      rw [held, held, ofDraft, give]
      simp only [hguard, Bool.false_eq_true, if_false]
      by_cases hcommon : ∃ draft ∈ commonTables, draft.span.contains token.span.start = true
      · obtain ⟨hgiven, hleft⟩ := giveAny_heldAll
          (fun child hchild => hchildren child (List.mem_append_left _ hchild))
          (fun child hchild => hlt child (List.mem_append_left _ hchild)) hcommon tokens
        rw [hgiven, hleft]
      · have hnone : ∀ draft ∈ commonTables, draft.span.contains token.span.start = false :=
          fun draft hdraft => Bool.eq_false_iff.2 fun hinside => hcommon ⟨draft, hdraft, hinside⟩
        rw [giveAny_of_none id hnone, heldAll_cons_of_none hnone]
        by_cases hothers : ∃ draft ∈ subqueries, draft.span.contains token.span.start = true
        · obtain ⟨hgiven, -⟩ := giveAny_heldAll
            (fun child hchild => hchildren child (List.mem_append_right _ hchild))
            (fun child hchild => hlt child (List.mem_append_right _ hchild)) hothers
            (heldAll tokens commonTables).2
          simp only [hgiven]
        · have hnone : ∀ draft ∈ subqueries, draft.span.contains token.span.start = false :=
            fun draft hdraft => Bool.eq_false_iff.2 fun hinside => hothers ⟨draft, hdraft, hinside⟩
          simp only [giveAny_of_none id hnone, heldAll_cons_of_none hnone]

theorem giveAny_heldAll {token : Excerpt} {previous : Nat} {drafts : List Draft}
    (hclimbs : ∀ draft ∈ drafts, draft.Climbs) (hprevious : ∀ draft ∈ drafts, previous < draft.id)
    (h : ∃ draft ∈ drafts, draft.span.contains token.span.start = true) (tokens : List Excerpt) :
    giveAny token previous (heldAll tokens drafts).1 =
      some ((heldAll (token :: tokens) drafts).1, []) ∧
      (heldAll (token :: tokens) drafts).2 = (heldAll tokens drafts).2 := by
  cases drafts with
  | nil => simp at h
  | cons draft drafts =>
      cases hinside : draft.span.contains token.span.start with
      | true =>
          have hgiven := give_held (hclimbs draft List.mem_cons_self)
            (fun id hid => Option.some.inj hid ▸ hprevious draft List.mem_cons_self) token
            (tokens.filter (draft.span.contains ·.span.start))
          simp only [heldAll, giveAny, span_held, hinside, List.filter_cons, if_true, hgiven,
            Bool.not_true, Bool.false_eq_true, if_false, and_self]
      | false =>
          have hlater : ∃ other ∈ drafts, other.span.contains token.span.start = true := by
            obtain ⟨other, hother, hcontains⟩ := h
            rcases List.mem_cons.1 hother with rfl | hother
            · rw [hinside] at hcontains
              cases hcontains
            · exact ⟨other, hother, hcontains⟩
          obtain ⟨hgiven, hleft⟩ := giveAny_heldAll
            (fun other hother => hclimbs other (List.mem_cons_of_mem _ hother))
            (fun other hother => hprevious other (List.mem_cons_of_mem _ hother)) hlater
            (tokens.filter (!draft.span.contains ·.span.start))
          simp only [heldAll, giveAny, span_held, hinside, List.filter_cons, hgiven, hleft,
            Bool.not_false, Bool.false_eq_true, if_true, if_false, Option.map_some, and_self]

end

end Step

mutual

theorem map_all_held {α : Type} {f : Query → α} {g : Draft → α}
    (h : ∀ tokens draft, f (held tokens draft) = g draft) (tokens : List Excerpt) (draft : Draft) :
    (held tokens draft).all.map f = draft.all.map g := by
  have hfirst := h tokens draft
  match draft with
  | { commonTables, subqueries, .. } =>
      rw [held] at hfirst
      rw [held, all_eq, Draft.all, List.flatMap_append, List.map_cons, List.map_cons,
        List.map_append, List.map_append, hfirst, map_flatMap_heldAll h tokens commonTables,
        map_flatMap_heldAll h _ subqueries]

theorem map_flatMap_heldAll {α : Type} {f : Query → α} {g : Draft → α}
    (h : ∀ tokens draft, f (held tokens draft) = g draft) (tokens : List Excerpt)
    (drafts : List Draft) :
    ((heldAll tokens drafts).1.flatMap Query.all).map f = (Draft.allIn drafts).map g := by
  cases drafts with
  | nil => rfl
  | cons draft drafts =>
      rw [heldAll, Draft.allIn, List.flatMap_cons, List.map_append, List.map_append,
        map_all_held h _ draft, map_flatMap_heldAll h _ drafts]

end

theorem diagnoses_held (tokens : List Excerpt) (draft : Draft) :
    (held tokens draft).diagnoses = [] := by
  cases draft
  rfl

def faulted (diagnoses : List Diagnosis) (query : Query) : Query :=
  { query with diagnoses := diagnoses }

theorem faulted_self (query : Query) : query.faulted query.diagnoses = query := by
  cases query
  rfl

end Query

namespace Atlas

def shareOf {α : Type} (target : α → Option Nat) (draft : Draft) (items : List α) : List α :=
  items.filter (target · = some draft.id)

def tokenTarget (drafts : List Draft) (token : Excerpt) : Option Nat :=
  (Span.holder? Draft.span token.span.start drafts).map Draft.id

def faultTarget (drafts : List Draft) (diagnosis : Diagnosis) : Option Nat :=
  (Span.nearest? Draft.span diagnosis.excerpt.span.start drafts).map Draft.id

theorem shareOf_cons {α : Type} (target : α → Option Nat) (draft : Draft) (item : α)
    (items : List α) :
    shareOf target draft (item :: items) =
      if target item = some draft.id then item :: shareOf target draft items
        else shareOf target draft items := by
  simp only [shareOf, List.filter_cons, decide_eq_true_eq]

variable {drafts : List Draft}

theorem adjust_map {base : Draft → Query} (hid : ∀ draft, (base draft).id = draft.id) (id : Nat)
    (change : Query → Query) (unbound : List Diagnosis) (index : SpanIndex) :
    adjust id change ⟨drafts.map base, unbound, index⟩ =
      ⟨drafts.map fun draft => if draft.id = id then change (base draft) else base draft,
        unbound, index⟩ := by
  simp only [adjust, List.map_map, Function.comp_def, hid]

def indexOf (drafts : List Draft) : SpanIndex :=
  .of (drafts.map fun draft => (draft.span, draft.id))

theorem indexed_map {base : Draft → Query} (hids : (drafts.map Draft.id).Nodup)
    (hid : ∀ draft, (base draft).id = draft.id) (hspan : ∀ draft, (base draft).span = draft.span)
    (unbound : List Diagnosis) : Indexed ⟨drafts.map base, unbound, indexOf drafts⟩ := by
  constructor
  · simpa only [List.map_map, Function.comp_def, hid] using hids
  · simp only [indexOf, List.map_map, Function.comp_def, hid, hspan]

def holding (drafts : List Draft) (tokens : List Excerpt) : Atlas :=
  ⟨drafts.map fun draft => Query.held (shareOf (tokenTarget drafts) draft tokens) draft, [],
    indexOf drafts⟩

theorem map_allQueries_holding {α : Type} {f : Query → α} {g : Draft → α}
    (h : ∀ tokens draft, f (Query.held tokens draft) = g draft) (drafts : List Draft)
    (tokens : List Excerpt) :
    (holding drafts tokens).allQueries.map f = (Draft.allIn drafts).map g := by
  rw [allQueries, holding, List.flatMap_map, List.map_flatMap, Draft.allIn_eq_flatMap,
    List.map_flatMap]
  exact List.flatMap_congr fun draft _ => Query.map_all_held h _ draft

section Assign

variable (hids : (drafts.map Draft.id).Nodup) (hclimbs : ∀ draft ∈ drafts, draft.Climbs)
include hids hclimbs

theorem give_holding (token : Excerpt) (tokens : List Excerpt) :
    (holding drafts tokens).give token = (holding drafts (token :: tokens), []) := by
  have hat : (holding drafts tokens).queryAt token.span.start =
      (Span.holder? Draft.span token.span.start drafts).map
        fun draft => Query.held (shareOf (tokenTarget drafts) draft tokens) draft := by
    have hindexed : (holding drafts tokens).Indexed :=
      indexed_map hids (fun _ => Query.id_held _ _) (fun _ => Query.span_held _ _) []
    rw [hindexed.queryAt, holding, Span.holder?_map]
    simp only [Query.span_held]
  rw [give, hat]
  cases hholder : Span.holder? Draft.span token.span.start drafts with
  | none =>
      have htarget : tokenTarget drafts token = none := by
        rw [tokenTarget, hholder, Option.map_none]
      simp only [Option.map_none, holding, shareOf_cons, htarget, reduceCtorEq, if_false]
  | some top =>
      have htop : top ∈ drafts := Span.mem_of_holder? hholder
      have htarget : tokenTarget drafts token = some top.id := by
        rw [tokenTarget, hholder, Option.map_some]
      have hgiven : Query.give token none
          (Query.held (shareOf (tokenTarget drafts) top tokens) top) =
          (Query.held (token :: shareOf (tokenTarget drafts) top tokens) top, []) :=
        Query.give_held (hclimbs top htop) (by simp) token _
      simp only [Option.map_some, hgiven, Query.id_held]
      rw [holding, adjust_map (fun draft => Query.id_held _ draft), holding]
      congr 2
      refine List.map_congr_left fun draft hdraft => ?_
      rw [shareOf_cons, htarget]
      by_cases hid : draft.id = top.id
      · obtain rfl := List.inj_on_of_nodup_map hids hdraft htop hid
        rw [if_pos rfl, if_pos rfl]
      · rw [if_neg hid, if_neg fun heq => hid (Option.some.inj heq).symm]

theorem assign_ofDrafts (tokens : List Excerpt) :
    (ofDrafts drafts).assign tokens = (holding drafts tokens, []) := by
  induction tokens with
  | nil =>
      have hnodup : ((drafts.map Query.ofDraft).map Query.id).Nodup := by
        simpa only [List.map_map, Function.comp_def, Query.id_ofDraft] using hids
      rw [assign, List.foldr_nil, ofDrafts, insertAll_eq hnodup]
      simp only [holding, indexOf, shareOf, List.filter_nil, List.map_map, Function.comp_def,
        Query.held_nil, Query.id_ofDraft, Query.span_ofDraft]
  | cons token tokens ih =>
      rw [assign, List.foldr_cons, ← assign, ih]
      simp only [give_holding hids hclimbs, List.append_nil]

end Assign

section Bind

variable {base : Draft → Query}

def binding (base : Draft → Query) (drafts : List Draft) (diagnoses : List Diagnosis) : Atlas :=
  ⟨drafts.map fun draft => (base draft).faulted (shareOf (faultTarget drafts) draft diagnoses),
    if drafts = [] then diagnoses else [], indexOf drafts⟩

theorem exists_nearest (hne : drafts ≠ []) (offset : Nat) :
    ∃ draft ∈ drafts, Span.nearest? Draft.span offset drafts = some draft := by
  obtain ⟨draft, hdraft⟩ : ∃ draft, Span.nearest? Draft.span offset drafts = some draft :=
    Span.exists_nearest? hne
  exact ⟨draft, Span.mem_of_nearest? hdraft, hdraft⟩

variable (hids : (drafts.map Draft.id).Nodup) (hid : ∀ draft, (base draft).id = draft.id)
  (hspan : ∀ draft, (base draft).span = draft.span)
include hids hid hspan

theorem indexed_binding (diagnoses : List Diagnosis) : (binding base drafts diagnoses).Indexed := by
  refine indexed_map hids ?_ ?_ _
  · exact hid
  · exact hspan

theorem bind_binding (diagnosis : Diagnosis) (diagnoses : List Diagnosis) :
    (binding base drafts diagnoses).bind diagnosis =
      binding base drafts (diagnosis :: diagnoses) := by
  have hnearest : (binding base drafts diagnoses).nearestTo diagnosis.excerpt.span.start =
      (Span.nearest? Draft.span diagnosis.excerpt.span.start drafts).map
        fun draft => (base draft).faulted (shareOf (faultTarget drafts) draft diagnoses) := by
    rw [(indexed_binding hids hid hspan diagnoses).nearestTo, binding, Span.nearest?_map]
    simp only [Query.faulted, hspan]
  rw [bind, hnearest]
  by_cases hnil : drafts = []
  · subst hnil
    rfl
  · obtain ⟨top, -, htop⟩ := exists_nearest hnil diagnosis.excerpt.span.start
    have htarget : faultTarget drafts diagnosis = some top.id := by
      rw [faultTarget, htop, Option.map_some]
    have hfaulted (draft : Draft) :
        ((base draft).faulted (shareOf (faultTarget drafts) draft diagnoses)).id = draft.id :=
          hid draft
    rw [htop, Option.map_some]
    simp only [hfaulted]
    rw [binding, adjust_map hfaulted, binding, if_neg hnil, if_neg hnil]
    congr 1
    refine List.map_congr_left fun draft _ => ?_
    rw [shareOf_cons, htarget]
    by_cases heq : draft.id = top.id
    · rw [if_pos heq, if_pos (congrArg some heq.symm)]
      rfl
    · rw [if_neg heq, if_neg fun h => heq (Option.some.inj h).symm]

theorem foldr_bind (hnone : ∀ draft, (base draft).diagnoses = []) (diagnoses : List Diagnosis) :
    diagnoses.foldr bind ⟨drafts.map base, [], indexOf drafts⟩ = binding base drafts diagnoses := by
  induction diagnoses with
  | nil =>
      have hbase (draft : Draft) : (base draft).faulted [] = base draft := by
        rw [← hnone draft, Query.faulted_self]
      simp only [List.foldr_nil, binding, shareOf, List.filter_nil, hbase, ite_self]
  | cons diagnosis diagnoses ih => rw [List.foldr_cons, ih, bind_binding hids hid hspan]

end Bind

def settled (drafts : List Draft) (tokens : List Excerpt) (diagnoses : List Diagnosis) : Atlas :=
  binding (fun draft => (Query.held (shareOf (tokenTarget drafts) draft tokens) draft).resolve)
    drafts diagnoses

theorem indexed_settled (hids : (drafts.map Draft.id).Nodup) (tokens : List Excerpt)
    (diagnoses : List Diagnosis) : (settled drafts tokens diagnoses).Indexed :=
  indexed_binding hids (by simp) (by simp) diagnoses

end Atlas

namespace Reader

variable {κ : Type} (reader : Reader κ) (script : String)

def drafts : List Draft := Draft.ofScript (reader.parse script (reader.lex script).tokens).trees

def tokens : List Excerpt := excerpts script (reader.lex script).tokens

def reported : List Fault :=
  (reader.lex script).faults ++ (reader.parse script (reader.lex script).tokens).faults

theorem nodup_drafts : ((reader.drafts script).map Draft.id).Nodup :=
  List.pairwise_map.2 ((Draft.numbered_ofScript _).sorted.imp Nat.ne_of_lt)

theorem assign_drafts : (Atlas.ofDrafts (reader.drafts script)).assign (reader.tokens script) =
    (Atlas.holding (reader.drafts script) (reader.tokens script), []) :=
  Atlas.assign_ofDrafts (reader.nodup_drafts script) (fun _ => Draft.climbs_ofScript) _

theorem survey_eq_settled : reader.survey script =
    Atlas.settled (reader.drafts script) (reader.tokens script)
      ((inOrder (reader.reported script)).map (Diagnosis.ofFault script)) := by
  have hassign := reader.assign_drafts script
  rw [drafts, tokens] at hassign
  simp only [survey, hassign]
  rw [Atlas.resolve, Atlas.holding, List.map_map, Atlas.settled, reported, drafts, tokens]
  exact Atlas.foldr_bind (reader.nodup_drafts script) (by simp) (by simp)
    (by simp [Query.diagnoses_held]) _

end Reader

end SqlAtlas

import SqlAtlas.Proofs.DraftRows
import SqlAtlas.Proofs.Keyed
import SqlAtlas.Proofs.SpanLookup

namespace SqlAtlas

namespace Draft

def childAt (offset : Nat) (draft : Draft) : Option Draft :=
  (draft.commonTables ++ draft.subqueries).find? (·.span.contains offset)

mutual

def trail (offset : Nat) : Draft → List Nat
  | { id, commonTables, subqueries, .. } =>
      id :: ((trailAny offset commonTables).or (trailAny offset subqueries)).getD []

def trailAny (offset : Nat) : List Draft → Option (List Nat)
  | [] => none
  | draft :: drafts =>
      if draft.span.contains offset then some (trail offset draft) else trailAny offset drafts

end

def trailIn (drafts : List Draft) (offset : Nat) : List Nat :=
  ((Span.holder? Draft.span offset drafts).map (trail offset)).getD []

variable {draft node child top : Draft} {drafts : List Draft} {offset id : Nat}

theorem mem_of_childAt (h : draft.childAt offset = some child) :
    child ∈ draft.commonTables ++ draft.subqueries := List.mem_of_find?_eq_some h

theorem contains_of_childAt (h : draft.childAt offset = some child) :
    child.span.contains offset = true := by
  simpa using List.find?_some h

theorem trailAny_eq_map_find? (offset : Nat) (drafts : List Draft) :
    trailAny offset drafts = (drafts.find? (·.span.contains offset)).map (trail offset) := by
  induction drafts with
  | nil => rfl
  | cons draft drafts ih =>
      cases h : draft.span.contains offset with
      | false => simpa [trailAny, List.find?_cons, h] using ih
      | true => simp only [trailAny, List.find?_cons, h, if_true, Option.map_some]

theorem trail_eq (offset : Nat) (draft : Draft) :
    draft.trail offset = draft.id :: ((draft.childAt offset).map (trail offset)).getD [] := by
  cases draft
  rw [trail, trailAny_eq_map_find?, trailAny_eq_map_find?, childAt, List.find?_append,
    ← Option.map_or]

theorem id_mem_trail (offset : Nat) (draft : Draft) : draft.id ∈ draft.trail offset := by
  rw [trail_eq]
  exact List.mem_cons_self

theorem id_mem_all (draft : Draft) : draft.id ∈ draft.all.map Draft.id := by
  rw [all_eq]
  exact List.mem_cons_self

theorem mem_trail_iff : id ∈ draft.trail offset ↔
    id = draft.id ∨ ∃ child, draft.childAt offset = some child ∧ id ∈ child.trail offset := by
  rw [trail_eq, List.mem_cons]
  cases draft.childAt offset <;> simp

theorem mem_trailIn_iff : id ∈ trailIn drafts offset ↔
    ∃ top, Span.holder? Draft.span offset drafts = some top ∧ id ∈ top.trail offset := by
  rw [trailIn]
  cases Span.holder? Draft.span offset drafts <;> simp

theorem mem_all_of_mem_trail (h : id ∈ draft.trail offset) : id ∈ draft.all.map Draft.id := by
  induction draft using Draft.induct with
  | step draft ih =>
      rcases mem_trail_iff.1 h with rfl | ⟨child, hchild, h⟩
      · exact id_mem_all draft
      · obtain ⟨inner, hinner, rfl⟩ := List.mem_map.1 (ih child (mem_of_childAt hchild) h)
        rw [all_eq]
        exact List.mem_map_of_mem
          (List.mem_cons_of_mem _ (List.mem_flatMap.2 ⟨child, mem_of_childAt hchild, hinner⟩))

section Distinct

theorem eq_of_mem_all {left right : Draft} (hids : ((drafts.flatMap all).map Draft.id).Nodup)
    (hleft : left ∈ drafts) (hright : right ∈ drafts) (h : id ∈ left.all.map Draft.id)
    (h' : id ∈ right.all.map Draft.id) : left = right := by
  rw [List.map_flatMap] at hids
  exact Keyed.eq_of_mem_flatMap hids hleft hright h h'

theorem nodup_children (hids : (draft.all.map Draft.id).Nodup) :
    draft.id ∉ ((draft.commonTables ++ draft.subqueries).flatMap all).map Draft.id ∧
      (((draft.commonTables ++ draft.subqueries).flatMap all).map Draft.id).Nodup := by
  rw [all_eq, List.map_cons] at hids
  exact List.nodup_cons.1 hids

theorem nodup_of_mem (hids : ((drafts.flatMap all).map Draft.id).Nodup) (hdraft : draft ∈ drafts) :
    (draft.all.map Draft.id).Nodup := by
  rw [List.map_flatMap] at hids
  exact (List.nodup_flatMap.1 hids).1 draft hdraft

theorem mem_trail_of_child (hids : (draft.all.map Draft.id).Nodup)
    (hchild : child ∈ draft.commonTables ++ draft.subqueries) (hid : id ∈ child.all.map Draft.id) :
    id ∈ draft.trail offset ↔ draft.childAt offset = some child ∧ id ∈ child.trail offset := by
  obtain ⟨hself, hchildren⟩ := nodup_children hids
  rw [mem_trail_iff]
  constructor
  · rintro (rfl | ⟨found, hfound, hmem⟩)
    · rw [List.map_flatMap] at hself
      exact absurd (List.mem_flatMap.2 ⟨child, hchild, hid⟩) hself
    · obtain rfl := eq_of_mem_all hchildren (mem_of_childAt hfound) hchild
        (mem_all_of_mem_trail hmem) hid
      exact ⟨hfound, hmem⟩
  · exact fun h => .inr ⟨child, h⟩

theorem mem_trailIn_of_top (hids : ((drafts.flatMap all).map Draft.id).Nodup) (htop : top ∈ drafts)
    (hid : id ∈ top.all.map Draft.id) : id ∈ trailIn drafts offset ↔
      Span.holder? Draft.span offset drafts = some top ∧ id ∈ top.trail offset := by
  rw [mem_trailIn_iff]
  constructor
  · rintro ⟨found, hfound, hmem⟩
    obtain rfl := eq_of_mem_all hids (Span.mem_of_holder? hfound) htop
      (mem_all_of_mem_trail hmem) hid
    exact ⟨hfound, hmem⟩
  · exact fun h => ⟨top, h⟩

theorem mem_trail_step (hids : (draft.all.map Draft.id).Nodup) (hnode : node ∈ draft.all)
    (hchild : child ∈ node.commonTables ++ node.subqueries) :
    child.id ∈ draft.trail offset ↔ node.id ∈ draft.trail offset ∧
    node.childAt offset = some child := by
  induction draft using Draft.induct with
  | step draft ih =>
      rw [all_eq] at hnode
      rcases List.mem_cons.1 hnode with rfl | hnode
      · rw [mem_trail_of_child hids hchild (id_mem_all child)]
        exact ⟨fun h => ⟨id_mem_trail offset node, h.1⟩, fun h => ⟨h.2, id_mem_trail offset child⟩⟩
      · obtain ⟨inner, hinner, hnode⟩ := List.mem_flatMap.1 hnode
        have hbelow : child.id ∈ inner.all.map Draft.id :=
          List.mem_map_of_mem (mem_all_of_child hnode hchild)
        rw [mem_trail_of_child hids hinner hbelow,
          mem_trail_of_child hids hinner (List.mem_map_of_mem hnode),
          ih inner hinner (nodup_of_mem (nodup_children hids).2 hinner) hnode, and_assoc]

theorem contains_of_mem_trail (hids : (draft.all.map Draft.id).Nodup) (hnode : node ∈ draft.all)
    (hdraft : draft.span.contains offset = true) (h : node.id ∈ draft.trail offset) :
    node.span.contains offset = true := by
  induction draft using Draft.induct with
  | step draft ih =>
      rw [all_eq] at hnode
      rcases List.mem_cons.1 hnode with rfl | hnode
      · exact hdraft
      · obtain ⟨inner, hinner, hnode⟩ := List.mem_flatMap.1 hnode
        obtain ⟨hat, hmem⟩ := (mem_trail_of_child hids hinner (List.mem_map_of_mem hnode)).1 h
        exact ih inner hinner (nodup_of_mem (nodup_children hids).2 hinner) hnode
          (contains_of_childAt hat) hmem

theorem nodup_all (hids : (draft.all.map Draft.id).Nodup) (hnode : node ∈ draft.all) :
    (node.all.map Draft.id).Nodup := by
  induction draft using Draft.induct with
  | step draft ih =>
      rw [all_eq] at hnode
      rcases List.mem_cons.1 hnode with rfl | hnode
      · exact hids
      · obtain ⟨inner, hinner, hnode⟩ := List.mem_flatMap.1 hnode
        exact ih inner hinner (nodup_of_mem (nodup_children hids).2 hinner) hnode

theorem nodup_ids_of_all (hids : ((drafts.flatMap all).map Draft.id).Nodup) :
    (drafts.map Draft.id).Nodup := by
  rw [List.map_flatMap] at hids
  exact Keyed.nodup_map_of_flatMap id_mem_all hids

end Distinct

section Forest

variable (hids : ((allIn drafts).map Draft.id).Nodup)
include hids

theorem nodup_tops : (drafts.map Draft.id).Nodup := by
  rw [allIn_eq_flatMap] at hids
  exact nodup_ids_of_all hids

theorem nodup_childIds (hnode : node ∈ allIn drafts) :
    ((node.commonTables ++ node.subqueries).map Draft.id).Nodup := by
  rw [allIn_eq_flatMap] at hids hnode
  obtain ⟨top, htop, hnode⟩ := List.mem_flatMap.1 hnode
  exact nodup_ids_of_all (nodup_children (nodup_all (nodup_of_mem hids htop) hnode)).2

theorem map_id_childAt_iff (hnode : node ∈ allIn drafts)
    (hchild : child ∈ node.commonTables ++ node.subqueries) :
    (node.childAt offset).map Draft.id = some child.id ↔ node.childAt offset = some child := by
  rw [Option.map_eq_some_iff]
  constructor
  · rintro ⟨found, hfound, hid⟩
    rwa [← List.inj_on_of_nodup_map (nodup_childIds hids hnode) (mem_of_childAt hfound) hchild hid]
  · exact fun h => ⟨child, h, rfl⟩

theorem mem_trailIn_top (htop : top ∈ drafts) :
    top.id ∈ trailIn drafts offset ↔ Span.holder? Draft.span offset drafts = some top := by
  rw [allIn_eq_flatMap] at hids
  rw [mem_trailIn_of_top hids htop (id_mem_all top)]
  exact and_iff_left (id_mem_trail offset top)

theorem map_id_holder?_iff (htop : top ∈ drafts) :
    (Span.holder? Draft.span offset drafts).map Draft.id = some top.id ↔
    top.id ∈ trailIn drafts offset := by
  rw [mem_trailIn_top hids htop, Option.map_eq_some_iff]
  constructor
  · rintro ⟨found, hfound, hid⟩
    rwa [← List.inj_on_of_nodup_map (nodup_tops hids) (Span.mem_of_holder? hfound) htop hid]
  · exact fun h => ⟨top, h, rfl⟩

theorem mem_trailIn_step (hnode : node ∈ allIn drafts)
    (hchild : child ∈ node.commonTables ++ node.subqueries) :
    child.id ∈ trailIn drafts offset ↔ node.id ∈ trailIn drafts offset ∧
    node.childAt offset = some child := by
  rw [allIn_eq_flatMap] at hids hnode
  obtain ⟨top, htop, hnode⟩ := List.mem_flatMap.1 hnode
  rw [mem_trailIn_of_top hids htop (List.mem_map_of_mem (mem_all_of_child hnode hchild)),
    mem_trailIn_of_top hids htop (List.mem_map_of_mem hnode),
    mem_trail_step (nodup_of_mem hids htop) hnode hchild, and_assoc]

theorem contains_of_mem_trailIn (hnode : node ∈ allIn drafts)
    (h : node.id ∈ trailIn drafts offset) :
    node.span.contains offset = true := by
  rw [allIn_eq_flatMap] at hids hnode
  obtain ⟨top, htop, hnode⟩ := List.mem_flatMap.1 hnode
  obtain ⟨hholder, hmem⟩ := (mem_trailIn_of_top hids htop (List.mem_map_of_mem hnode)).1 h
  exact contains_of_mem_trail (nodup_of_mem hids htop) hnode (Span.contains_of_holder? hholder) hmem

end Forest

end Draft

end SqlAtlas

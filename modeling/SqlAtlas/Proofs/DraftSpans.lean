import SqlAtlas.Proofs.Drafting
import SqlAtlas.Proofs.SpanLookup
import SqlAtlas.Proofs.TreeShape

namespace SqlAtlas

namespace Draft

inductive Nested : Draft → Prop
  | mk {draft : Draft} :
      ((draft.commonTables ++ draft.subqueries).Pairwise fun child other =>
        child.span.Apart other.span) →
      (∀ child ∈ draft.commonTables ++ draft.subqueries, draft.span.encloses child.span = true) →
      (∀ child ∈ draft.commonTables ++ draft.subqueries, Nested child) → Nested draft

structure Spread (lo hi : Nat) (drafts : List Draft) : Prop where
  within : ∀ draft ∈ drafts, lo ≤ draft.span.start ∧ draft.span.start ≤ draft.span.stop ∧
    draft.span.stop ≤ hi
  apart : drafts.Pairwise fun draft next => draft.span.stop < next.span.start
  nested : ∀ draft ∈ drafts, draft.Nested

-- A property of the drafts from an offset to another, with so many identifiers from a number on,
-- that goes over from adjoining stretches to the stretch that they make up.
structure Adjoins (P : Nat → Nat → Nat → Nat → List Draft → Prop) : Prop where
  nil (lo hi next : Nat) : P lo hi next 0 []
  append {lo mid hi next count more : Nat} {drafts drafts' : List Draft} :
    P lo mid next count drafts →
    P (mid + 1) hi (next + count) more drafts' → lo ≤ mid + 1 → mid ≤ hi →
    P lo hi next (count + more) (drafts ++ drafts')
  widen {lo lo' hi next count : Nat} {drafts : List Draft} : P lo hi next count drafts → lo' ≤ lo →
    P lo' hi next count drafts

section Walk

variable {P : Nat → Nat → Nat → Nat → List Draft → Prop} (hP : Adjoins P)
include hP

theorem Adjoins.trees {trees : List Tree} {lo hi : Nat}
    (htrees : ∀ tree ∈ trees, ∀ parent? next,
      P tree.extent.start tree.extent.stop next (count tree) (ofTree parent? next tree))
    (hcovers : ∀ tree ∈ trees, tree.extent.start ≤ tree.extent.stop)
    (hwithin : ∀ tree ∈ trees, lo ≤ tree.extent.start ∧ tree.extent.stop ≤ hi)
    (hapart : trees.Pairwise fun tree next => tree.extent.stop < next.extent.start)
    (parent? : Option Nat) (next : Nat) :
    P lo hi next (countAll trees) (ofTrees parent? next trees) := by
  induction trees generalizing lo next with
  | nil => exact hP.nil lo hi next
  | cons tree trees ih =>
      obtain ⟨hfirst, hrest⟩ := List.pairwise_cons.1 hapart
      have hbounds := hwithin tree List.mem_cons_self
      have hmore : P (tree.extent.stop + 1) hi (next + count tree) (countAll trees)
          (ofTrees parent? (next + count tree) trees) := ih
        (fun tree htree => htrees tree (List.mem_cons_of_mem _ htree))
        (fun tree htree => hcovers tree (List.mem_cons_of_mem _ htree))
        (fun tree htree => ⟨hfirst tree htree, (hwithin tree (List.mem_cons_of_mem _ htree)).2⟩)
        hrest (next + count tree)
      have hhead := hP.widen (htrees tree List.mem_cons_self parent? next) hbounds.1
      have hle := hcovers tree List.mem_cons_self
      exact hP.append hhead hmore (by omega) hbounds.2

variable {script : String} {tokens : List (Token Kind)}
  {T : Construct String → Span → List Tree → Prop}
  (hT : ∀ {construct span children}, T construct span children →
    Tree.Shaped script tokens construct span children)
  (hquery : ∀ {construct span children type} (parent? : Option Nat) (next : Nat),
    T construct span children → (∀ child ∈ children, child.All T) → typeOf? construct = some type →
    P (span.start + 1) span.stop (next + 1) (countAll children)
      (ofTrees (some next) (next + 1) children) →
    P span.start span.stop next (1 + countAll children)
      [⟨next, isCommonTableOf construct, type, span, parent?, mentionsInAll children,
        (ofTrees (some next) (next + 1) children).filter (·.isCommonTable),
        (ofTrees (some next) (next + 1) children).filter (!·.isCommonTable)⟩])
include hT

omit hP in
theorem start_le_stop_of_all {tree : Tree} (h : tree.All T) :
    tree.extent.start ≤ tree.extent.stop := by
  cases h with
  | node hnode _ => exact (hT hnode).start_le_stop

include hquery

theorem Adjoins.tree {tree : Tree} (h : tree.All T) (parent? : Option Nat) (next : Nat) :
    P tree.extent.start tree.extent.stop next (count tree) (ofTree parent? next tree) := by
  induction h generalizing parent? next with
  | @node construct span children hnode hchildren ih =>
      have hinner (parent? : Option Nat) (next : Nat) :
          P (span.start + 1) span.stop next (countAll children) (ofTrees parent? next children) :=
        hP.trees ih (fun child hchild => start_le_stop_of_all hT (hchildren child hchild))
          (hT hnode).inside
          (hT hnode).apart parent? next
      have hisQuery := isQuery_eq_isSome_typeOf? construct
      rw [ofTree, count]
      cases htype : typeOf? construct with
      | none =>
          rw [htype, Option.isSome_none] at hisQuery
          rw [hisQuery, if_neg Bool.false_ne_true, Nat.zero_add]
          exact hP.widen (hinner parent? next) (Nat.le_succ _)
      | some type =>
          rw [htype, Option.isSome_some] at hisQuery
          rw [hisQuery, if_pos rfl]
          exact hquery parent? next hnode hchildren htype (hinner (some next) (next + 1))

theorem Adjoins.roots {trees : List Tree} (htrees : ∀ tree ∈ trees, tree.All T)
    (hapart : trees.Pairwise fun tree next => tree.extent.stop < next.extent.start) :
    P 0 ((trees.map fun tree => tree.extent.stop).max?.getD 0) 0 (countAll trees)
      (ofScript trees) := by
  rw [ofScript_eq_ofTrees]
  refine hP.trees (fun tree htree => hP.tree hT hquery (htrees tree htree))
    (fun tree htree => start_le_stop_of_all hT (htrees tree htree))
      (fun tree htree => ?_) hapart none 0
  exact ⟨Nat.zero_le _, List.le_max?_getD_of_mem (List.mem_map_of_mem htree)⟩

end Walk

theorem adjoins_spread : Adjoins fun lo hi _ _ drafts => Spread lo hi drafts where
  nil _ _ _ := ⟨by simp, .nil, by simp⟩
  append {lo mid hi _ _ _ drafts drafts'} h₁ h₂ hlo hhi := by
    refine ⟨fun draft hdraft => ?_, ?_, fun draft hdraft => ?_⟩
    · rcases List.mem_append.1 hdraft with hdraft | hdraft
      · have hbounds := h₁.within draft hdraft
        omega
      · have hbounds := h₂.within draft hdraft
        omega
    · exact List.pairwise_append.2 ⟨h₁.apart, h₂.apart, fun draft hdraft next hnext =>
        Nat.lt_of_le_of_lt (h₁.within draft hdraft).2.2 (h₂.within next hnext).1⟩
    · exact (List.mem_append.1 hdraft).elim (h₁.nested draft) (h₂.nested draft)
  widen h hlo := ⟨fun draft hdraft => ⟨Nat.le_trans hlo (h.within draft hdraft).1,
    (h.within draft hdraft).2⟩, h.apart, h.nested⟩

theorem nested_of_spread {draft : Draft} {inner : List Draft}
    (hinner : Spread (draft.span.start + 1) draft.span.stop inner)
    (hcommon : draft.commonTables = inner.filter (·.isCommonTable))
    (hothers : draft.subqueries = inner.filter (!·.isCommonTable)) : draft.Nested := by
  have hperm : (draft.commonTables ++ draft.subqueries).Perm inner := by
    rw [hcommon, hothers]
    exact List.filter_append_perm _ _
  refine .mk ?_ ?_ ?_
  · refine (hperm.pairwise_iff fun h => h.symm).2 (hinner.apart.imp Span.apart_of_lt)
  · intro child hchild
    have hbounds := hinner.within child (hperm.mem_iff.1 hchild)
    simp only [Span.encloses, Bool.and_eq_true, decide_eq_true_eq]
    omega
  · exact fun child hchild => hinner.nested child (hperm.mem_iff.1 hchild)

theorem spread_ofScript {script : String} {tokens : List (Token Kind)} {trees : List Tree}
    (hshaped : ∀ tree ∈ trees, tree.All (Tree.Shaped script tokens))
    (hapart : trees.Pairwise fun tree next => tree.extent.stop < next.extent.start) :
    Spread 0 ((trees.map fun tree => tree.extent.stop).max?.getD 0) (ofScript trees) := by
  refine adjoins_spread.roots (fun h => h) ?_ hshaped hapart
  intro construct span children type parent? next hnode _ _ hinner
  refine ⟨?_, by simp, ?_⟩
  · intro draft hdraft
    rw [List.mem_singleton.1 hdraft]
    exact ⟨Nat.le_refl _, hnode.start_le_stop, Nat.le_refl _⟩
  · intro draft hdraft
    rw [List.mem_singleton.1 hdraft]
    exact nested_of_spread hinner rfl rfl

end Draft

end SqlAtlas

import Mathlib.Data.List.Nodup
import SqlAtlas.Draft

namespace SqlAtlas

namespace Draft

theorem isQuery_eq_isSome_typeOf? (construct : Construct String) :
    construct.isQuery = (typeOf? construct).isSome := by
  cases construct <;> rfl

mutual

def count : Tree → Nat
  | .node construct _ children => (if construct.isQuery then 1 else 0) + countAll children

def countAll : List Tree → Nat
  | [] => 0
  | tree :: trees => count tree + countAll trees

end

mutual

def mentionsIn : Tree → List Mention
  | .node construct _ children =>
      if construct.isQuery then [] else mentionOf construct ++ mentionsInAll children

def mentionsInAll : List Tree → List Mention
  | [] => []
  | tree :: trees => mentionsIn tree ++ mentionsInAll trees

end

mutual

def ofTree (parent? : Option Nat) (next : Nat) : Tree → List Draft
  | .node construct extent children =>
      match typeOf? construct with
      | none => ofTrees parent? next children
      | some type =>
          let inner := ofTrees (some next) (next + 1) children
          [⟨next, isCommonTableOf construct, type, extent, parent?, mentionsInAll children,
            inner.filter (·.isCommonTable), inner.filter (!·.isCommonTable)⟩]

def ofTrees (parent? : Option Nat) (next : Nat) : List Tree → List Draft
  | [] => []
  | tree :: trees => ofTree parent? next tree ++ ofTrees parent? (next + count tree) trees

end

end Draft

namespace Drafting

variable (drafting : Drafting)

-- What a stretch of a walk that leaves all it enters does to the work.
def add (count : Nat) (drafts : List Draft) (mentions : List Mention) : Drafting :=
  match drafting.entered with
  | [] => { drafting with next := drafting.next + count, finished := drafting.finished ++ drafts }
  | draft :: outer =>
      { drafting with
        next := drafting.next + count
        entered := { draft with
          mentions := draft.mentions ++ mentions
          commonTables := draft.commonTables ++ drafts.filter (·.isCommonTable)
          subqueries := draft.subqueries ++ drafts.filter (!·.isCommonTable) } :: outer }

@[simp] theorem next_add (count : Nat) (drafts : List Draft) (mentions : List Mention) :
    (drafting.add count drafts mentions).next = drafting.next + count := by
  unfold add
  split <;> rfl

@[simp] theorem innermost?_add (count : Nat) (drafts : List Draft) (mentions : List Mention) :
    (drafting.add count drafts mentions).innermost? = drafting.innermost? := by
  unfold add
  split
  · rfl
  · next h => simp [innermost?, h]

theorem add_nil : drafting.add 0 [] [] = drafting := by
  obtain ⟨next, entered, finished⟩ := drafting
  cases entered with
  | nil => simp [add]
  | cons draft outer =>
      obtain ⟨⟩ := draft
      simp [add]

theorem add_add (count count' : Nat) (drafts drafts' : List Draft)
    (mentions mentions' : List Mention) :
    (drafting.add count drafts mentions).add count' drafts' mentions' =
      drafting.add (count + count') (drafts ++ drafts') (mentions ++ mentions') := by
  obtain ⟨next, entered, finished⟩ := drafting
  cases entered <;> simp [add, Nat.add_assoc]

theorem enter_of_typeOf?_eq_none {construct : Construct String} (h : Draft.typeOf? construct = none)
    (span : Span) :
    drafting.enter construct span = drafting.add 0 [] (Draft.mentionOf construct) := by
  obtain ⟨next, entered, finished⟩ := drafting
  cases entered <;> simp [enter, h, add]

theorem exit_enter {construct : Construct String} {type : StatementType}
    (h : Draft.typeOf? construct = some type) (span : Span) (count : Nat) (drafts : List Draft)
    (mentions : List Mention) :
    ((drafting.enter construct span).add count drafts mentions).exit construct span =
      drafting.add (1 + count)
        [⟨drafting.next, Draft.isCommonTableOf construct, type, span, drafting.innermost?, mentions,
          drafts.filter (·.isCommonTable), drafts.filter (!·.isCommonTable)⟩] [] := by
  have hquery : construct.isQuery = true := by rw [Draft.isQuery_eq_isSome_typeOf?, h]; rfl
  obtain ⟨next, entered, finished⟩ := drafting
  cases entered with
  | nil => simp [enter, h, add, exit, hquery, Nat.add_assoc]
  | cons parent outer =>
      cases hcommon : Draft.isCommonTableOf construct with
      | true => simp [enter, h, add, exit, hquery, hcommon, Draft.adopt, Nat.add_assoc]
      | false => simp [enter, h, add, exit, hquery, hcommon, Draft.adopt, Nat.add_assoc]

open Draft

mutual

theorem walk_eq_add (tree : Tree) (drafting : Drafting) :
    tree.walk visitor drafting =
      drafting.add (count tree) (ofTree drafting.innermost? drafting.next tree)
        (mentionsIn tree) := by
  cases tree with
  | node construct span children =>
      have hquery := isQuery_eq_isSome_typeOf? construct
      have hvisit (drafting : Drafting) : drafting.enter construct span =
          visitor.enter construct span drafting := rfl
      rw [Node.walk, ← hvisit, walkAll_eq_add children, count, ofTree, mentionsIn]
      cases htype : typeOf? construct with
      | none =>
          rw [htype] at hquery
          simp only [hquery, Option.isSome_none, Bool.false_eq_true, if_false]
          rw [enter_of_typeOf?_eq_none drafting htype, innermost?_add, next_add, add_add]
          simp [visitor, exit, hquery]
      | some type =>
          rw [htype] at hquery
          have hnext : (drafting.enter construct span).next = drafting.next + 1 := by
            simp [enter, htype]
          have hinner : (drafting.enter construct span).innermost? = some drafting.next := by
            simp [enter, htype, innermost?]
          simp only [hquery, Option.isSome_some, if_true]
          rw [hnext, hinner]
          exact exit_enter drafting htype span _ _ _

theorem walkAll_eq_add (trees : List Tree) (drafting : Drafting) :
    Node.walkAll visitor trees drafting =
      drafting.add (countAll trees) (ofTrees drafting.innermost? drafting.next trees)
        (mentionsInAll trees) := by
  cases trees with
  | nil => exact (drafting.add_nil).symm
  | cons tree trees =>
      rw [Node.walkAll, walkAll_eq_add trees, walk_eq_add tree, innermost?_add, next_add, add_add]
      rfl

end

end Drafting

namespace Draft

theorem ofScript_eq_ofTrees (trees : List Tree) : ofScript trees = ofTrees none 0 trees := by
  rw [ofScript, Drafting.walkAll_eq_add]
  rfl

structure Numbered (lo hi : Nat) (drafts : List Draft) : Prop where
  within : ∀ draft ∈ drafts, lo ≤ draft.id ∧ draft.id < hi
  sorted : drafts.Pairwise fun draft next => draft.id < next.id

theorem Numbered.eq_of_id {lo hi : Nat} {drafts : List Draft} (h : Numbered lo hi drafts)
    {draft other : Draft} (hdraft : draft ∈ drafts) (hother : other ∈ drafts)
    (hid : draft.id = other.id) : draft = other :=
  List.inj_on_of_nodup_map (List.pairwise_map.2 (h.sorted.imp Nat.ne_of_lt)) hdraft hother hid

mutual

theorem numbered_ofTree (parent? : Option Nat) (next : Nat) (tree : Tree) :
    Numbered next (next + count tree) (ofTree parent? next tree) := by
  cases tree with
  | node construct span children =>
      have hinner := numbered_ofTrees parent? next children
      rw [ofTree]
      split
      · next htype =>
          have hquery : construct.isQuery = false := by
            cases construct <;> first | rfl | cases htype
          simpa [count, hquery] using hinner
      · next type htype =>
          have hquery : construct.isQuery = true := by
            cases construct <;> first | rfl | cases htype
          refine ⟨?_, by simp⟩
          intro draft hdraft
          rw [List.mem_singleton.1 hdraft]
          simp only [count, hquery, if_true]
          omega

theorem numbered_ofTrees (parent? : Option Nat) (next : Nat) (trees : List Tree) :
    Numbered next (next + countAll trees) (ofTrees parent? next trees) := by
  cases trees with
  | nil => exact ⟨by simp [ofTrees], by simp [ofTrees]⟩
  | cons tree trees =>
      have hfirst := numbered_ofTree parent? next tree
      have hrest := numbered_ofTrees parent? (next + count tree) trees
      rw [ofTrees]
      constructor
      · intro draft hdraft
        simp only [countAll]
        rcases List.mem_append.1 hdraft with hdraft | hdraft
        · have hbounds := hfirst.within draft hdraft
          omega
        · have hbounds := hrest.within draft hdraft
          omega
      · exact List.pairwise_append.2 ⟨hfirst.sorted, hrest.sorted, fun draft hdraft other hother =>
          Nat.lt_of_lt_of_le (hfirst.within draft hdraft).2 (hrest.within other hother).1⟩

end

theorem spans_ofScript {trees : List Tree} (h : ∀ tree ∈ trees, tree.construct.isQuery = true) :
    (ofScript trees).map Draft.span = trees.map Node.extent := by
  rw [ofScript_eq_ofTrees]
  generalize 0 = next
  induction trees generalizing next with
  | nil => rfl
  | cons tree trees ih =>
      obtain ⟨hfirst, hrest⟩ := List.forall_mem_cons.1 h
      have hspan : (ofTree none next tree).map Draft.span = [tree.extent] := by
        cases tree with
        | node construct extent children => cases construct <;> first | rfl | cases hfirst
      rw [ofTrees, List.map_append, hspan, ih hrest]
      rfl

theorem numbered_ofScript (trees : List Tree) : Numbered 0 (countAll trees) (ofScript trees) := by
  rw [ofScript_eq_ofTrees, ← Nat.zero_add (countAll trees)]
  exact numbered_ofTrees none 0 trees

theorem sizeOf_lt_of_mem {draft child : Draft}
    (h : child ∈ draft.commonTables ++ draft.subqueries) :
    sizeOf child < sizeOf draft := by
  match draft, h with
  | { commonTables, subqueries, .. }, h =>
      have hin : child ∈ commonTables ∨ child ∈ subqueries := List.mem_append.1 h
      rw [Draft.mk.sizeOf_spec]
      rcases hin with hin | hin <;>
      · have hlt := List.sizeOf_lt_of_mem hin
        omega

theorem induct {motive : Draft → Prop}
    (step : ∀ draft : Draft, (∀ child ∈ draft.commonTables ++ draft.subqueries, motive child) →
      motive draft)
    (draft : Draft) : motive draft :=
  step draft fun child _ => induct step child
termination_by sizeOf draft
decreasing_by
  apply sizeOf_lt_of_mem
  assumption

inductive Climbs : Draft → Prop
  | mk {draft : Draft} : (∀ child ∈ draft.commonTables ++ draft.subqueries, draft.id < child.id) →
      (∀ child ∈ draft.commonTables ++ draft.subqueries, Climbs child) → Climbs draft

mutual

theorem climbs_ofTree {parent? : Option Nat} {next : Nat} {tree : Tree} {draft : Draft}
    (h : draft ∈ ofTree parent? next tree) : draft.Climbs := by
  cases tree with
  | node construct span children =>
      rw [ofTree] at h
      split at h
      · exact climbs_ofTrees h
      · rw [List.mem_singleton.1 h]
        have hinner {child : Draft} (hchild : child ∈
            (ofTrees (some next) (next + 1) children).filter (·.isCommonTable) ++
              (ofTrees (some next) (next + 1) children).filter (!·.isCommonTable)) :
            child ∈ ofTrees (some next) (next + 1) children :=
          (List.mem_append.1 hchild).elim List.mem_of_mem_filter List.mem_of_mem_filter
        exact .mk (fun child hchild =>
          ((numbered_ofTrees _ _ children).within child (hinner hchild)).1)
          fun child hchild => climbs_ofTrees (hinner hchild)

theorem climbs_ofTrees {parent? : Option Nat} {next : Nat} {trees : List Tree} {draft : Draft}
    (h : draft ∈ ofTrees parent? next trees) : draft.Climbs := by
  cases trees with
  | nil => cases h
  | cons tree trees =>
      rw [ofTrees] at h
      rcases List.mem_append.1 h with h | h
      · exact climbs_ofTree h
      · exact climbs_ofTrees h

end

theorem climbs_ofScript {trees : List Tree} {draft : Draft} (h : draft ∈ ofScript trees) :
    draft.Climbs := by
  rw [ofScript_eq_ofTrees] at h
  exact climbs_ofTrees h

end Draft

end SqlAtlas

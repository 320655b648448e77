import Mathlib.Data.List.Infix
import SqlAtlas.Proofs.Growth
import SqlAtlas.Proofs.Places
import SqlAtlas.Source

namespace SqlAtlas

namespace Node

variable {ν μ σ τ : Type} {n m : Nat}

inductive Within : Nat → Node ν σ → Prop
  | query {n construct extent children} : construct.isQuery = true →
      (∀ child ∈ children, Within n child) → Within (n + 1) (.node construct extent children)
  | other {n construct extent children} : construct.isQuery = false →
      (∀ child ∈ children, Within n child) → Within n (.node construct extent children)

theorem Within.mono {node : Node ν σ} (h : node.Within n) (hle : n ≤ m) : node.Within m := by
  induction h generalizing m with
  | query hquery _ ih =>
      cases m with
      | zero => exact absurd hle (Nat.not_succ_le_zero _)
      | succ m =>
          exact .query hquery fun child hchild => ih child hchild (Nat.le_of_succ_le_succ hle)
  | other hother _ ih => exact .other hother fun child hchild => ih child hchild hle

theorem Within.map (f : ν → μ) (g : σ → τ) {node : Node ν σ} (h : node.Within n) :
    (node.map f g).Within n := by
  induction h with
  | query hquery _ ih =>
      rw [Node.map, mapAll_eq_map]
      exact .query ((Construct.isQuery_map f _).trans hquery) (List.forall_mem_map.2 ih)
  | other hother _ ih =>
      rw [Node.map, mapAll_eq_map]
      exact .other ((Construct.isQuery_map f _).trans hother) (List.forall_mem_map.2 ih)

theorem within_childrenAt {roots : List (Node ν σ)} (h : ∀ root ∈ roots, root.Within n)
    (path : Path) :
    ∃ left, path.tails.countP (isQueryAt roots) + left = n ∧
      ∀ child ∈ childrenAt roots path, child.Within left := by
  induction path with
  | nil => exact ⟨n, by simp [isQueryAt, at?], h⟩
  | cons i path ih =>
      obtain ⟨left, hcount, hchildren⟩ := ih
      rw [List.tails_cons, List.countP_cons, childrenAt, isQueryAt, at?]
      cases hnode : (childrenAt roots path)[i]? with
      | none => exact ⟨left, by simpa using hcount, by simp⟩
      | some node =>
          cases hchildren node (List.mem_of_getElem? hnode) with
          | @query left _ _ _ hquery hinner =>
              refine ⟨left, ?_, hinner⟩
              rw [Option.any_some, holdsQuery_eq, Node.construct, hquery, if_pos rfl]
              omega
          | other hother hinner =>
              refine ⟨left, ?_, hinner⟩
              rwa [Option.any_some, holdsQuery_eq, Node.construct, hother,
                if_neg Bool.false_ne_true]

theorem countP_isQueryAt_le {roots : List (Node ν σ)} (h : ∀ root ∈ roots, root.Within n)
    (path : Path) :
    path.tails.countP (isQueryAt roots) ≤ n := by
  obtain ⟨left, hcount, -⟩ := within_childrenAt h path
  exact hcount ▸ Nat.le_add_right _ left

end Node

def Shape.isQuery : Shape → Bool
  | .statement _ | .subquery | .commonTable => true
  | .table | .derived => false

theorem Frame.isQuery_construct (frame : Frame) (shape : Shape) :
    (frame.construct shape).isQuery = shape.isQuery := by
  cases shape <;> rfl

-- How many queries a phrase puts around one another, those of the rules it comes back to apart.
def Phrase.rise : Phrase → Nat
  | .seq first second => max first.rise second.rise
  | .ifElse test yes no => max test.rise (max yes.rise no.rise)
  | .many body | .rule _ body => body.rise
  | .node shape body => body.rise + shape.isQuery.toNat
  | _ => 0

namespace Grammar

theorem rise_body (again : Nest) : (body again).rise ≤ 1 := by
  cases again <;> decide

theorem rise_script : script.rise = 1 := by
  decide

end Grammar

namespace Reading

variable {input : Input} {r r' : Reading} {n m : Nat}

def layers (r : Reading) : List (List Outline) := r.frames.map Frame.children ++ [r.roots]

def Brings (n : Nat) (r r' : Reading) : Prop :=
  ∃ nodes : List Outline, (∀ node ∈ nodes, node.Within n) ∧
    r'.layers = r.layers.modifyHead (· ++ nodes)

theorem Brings.of_layers (h : r'.layers = r.layers) : Brings n r r' := by
  refine ⟨[], by simp, ?_⟩
  simp only [List.append_nil]
  exact h.trans (congrFun List.modifyHead_id _).symm

theorem Brings.trans {a b c : Reading} (h₁ : Brings n a b) (h₂ : Brings n b c) : Brings n a c := by
  obtain ⟨nodes₁, hwithin₁, hlayers₁⟩ := h₁
  obtain ⟨nodes₂, hwithin₂, hlayers₂⟩ := h₂
  refine ⟨nodes₁ ++ nodes₂, List.forall_mem_append.2 ⟨hwithin₁, hwithin₂⟩, ?_⟩
  rw [hlayers₂, hlayers₁, List.modifyHead_modifyHead]
  simp [Function.comp_def]

theorem Brings.mono (h : Brings n r r') (hle : n ≤ m) : Brings m r r' := by
  obtain ⟨nodes, hwithin, hlayers⟩ := h
  exact ⟨nodes, fun node hnode => (hwithin node hnode).mono hle, hlayers⟩

theorem Same.layers (h : Same r r') : r'.layers = r.layers := by
  rw [Reading.layers, h.frames, h.roots, Reading.layers]

theorem moves_brings (input : Input) (n : Nat) : Moves input (Brings n) where
  refl _ := .of_layers rfl
  trans := .trans
  bump r := .of_layers ((moves_same input).bump r).layers
  offer offer? r := .of_layers ((moves_same input).offer offer? r).layers
  complain cause r := .of_layers ((moves_same input).complain cause r).layers
  halt r := .of_layers ((moves_same input).halt r).layers

theorem layers_mark (note : Note) (r : Reading) : (r.mark note).layers = r.layers := by
  unfold mark
  split
  · next hframes _ => cases note <;> simp [layers, hframes]
  · rfl

theorem layers_attach (nodes : List Outline) (r : Reading) :
    (r.attach nodes).layers = r.layers.modifyHead (· ++ nodes) := by
  unfold attach
  split
  · next hframes => simp [layers, hframes]
  · next hframes => simp [layers, hframes]

theorem within_finished {shape : Shape} {frame : Frame} {last? : Option Nat}
    (h : ∀ child ∈ frame.children, child.Within n) :
    ∀ node ∈ finished shape frame last?, Node.Within (n + shape.isQuery.toNat) node := by
  unfold finished
  split
  · refine List.forall_mem_singleton.2 ?_
    cases hquery : shape.isQuery with
    | true => exact .query ((frame.isQuery_construct shape).trans hquery) h
    | false => exact .other ((frame.isQuery_construct shape).trans hquery) h
  · exact fun node hnode => (h node hnode).mono (Nat.le_add_right _ _)

theorem Brings.closeFrame (shape : Shape) (h : Brings n r.openFrame r') :
    Brings (n + shape.isQuery.toNat) r (r'.closeFrame shape) := by
  obtain ⟨nodes, hwithin, hlayers⟩ := h
  have hopen : r.openFrame.layers = [] :: r.layers := rfl
  rw [hopen, List.modifyHead_cons, List.nil_append] at hlayers
  cases hframes : r'.frames with
  | nil => simp [layers, hframes] at hlayers
  | cons frame frames =>
      rw [layers, hframes, List.map_cons, List.cons_append, List.cons.injEq] at hlayers
      obtain ⟨rfl, houter⟩ := hlayers
      refine ⟨finished shape frame r'.last?, within_finished hwithin, ?_⟩
      rw [Reading.closeFrame, hframes]
      simp only [layers_attach]
      exact congrArg _ houter

theorem read_brings {deeper : Nest → Reading → Reading}
    (hdeeper : ∀ again r, Brings n r (deeper again r)) (phrase : Phrase) (r : Reading) :
    Brings (phrase.rise + n) r (phrase.read input deeper r).2 := by
  have hmoves := moves_brings input
  induction phrase generalizing r with
  | nothing => exact (hmoves _).refl r
  | accept guard => exact (hmoves _).accept guard r
  | need kind => exact (hmoves _).need kind r
  | fail => exact (hmoves _).stuck _ r
  | stray => exact (hmoves _).stray r
  | note role => exact .of_layers (layers_mark role r)
  | seq first second ih₁ ih₂ =>
      refine ((ih₁ r).mono ?_).trans ((ih₂ _).mono ?_)
      · exact Nat.add_le_add_right (Nat.le_max_left _ _) n
      · exact Nat.add_le_add_right (Nat.le_max_right _ _) n
  | ifElse test yes no iht ihy ihn =>
      have htest := (iht r).mono (m := (Phrase.ifElse test yes no).rise + n)
        (by simp only [Phrase.rise]; omega)
      simp only [Phrase.read]
      split
      · next r₁ hr₁ =>
          rw [hr₁] at htest
          exact htest.trans ((ihy r₁).mono (by simp only [Phrase.rise]; omega))
      · next r₁ hr₁ =>
          rw [hr₁] at htest
          exact htest.trans ((ihn r₁).mono (by simp only [Phrase.rise]; omega))
  | many body ih => exact (hmoves _).turns ih _ r
  | rule name body ih => exact ih (r.enter name)
  | node shape body ih =>
      exact ((ih r.openFrame).closeFrame shape).mono (by simp only [Phrase.rise]; omega)
  | nest again => exact (hdeeper again r).mono (Nat.le_add_left _ _)

theorem nestRead_brings (levels : Nat) (again : Nest) (r : Reading) :
    Brings levels r (Nest.read input levels again r) := by
  induction levels generalizing again r with
  | zero => exact (moves_brings input 0).tooDeep r
  | succ levels ih =>
      refine (read_brings ih (Grammar.body again) (r.descend again)).mono ?_
      have hrise := Grammar.rise_body again
      omega

theorem inputRead_within (input : Input) :
    ∀ root ∈ input.read.roots, root.Within (nestingLimit + 1) := by
  have hbrings : Brings (nestingLimit + 1) begin input.read := by
    unfold Input.read
    split
    · exact .of_layers rfl
    · refine (read_brings (nestRead_brings nestingLimit) Grammar.script begin).mono
        (Nat.le_of_eq ?_)
      rw [Grammar.rise_script, Nat.add_comm]
  obtain ⟨nodes, hwithin, hlayers⟩ := hbrings
  have hroots : input.read.roots = nodes := by
    simpa [layers, begin] using congrArg List.getLast? hlayers
  rwa [hroots]

end Reading

theorem parse_countP_isQueryAt_le (script : String) (tokens : List (Token Kind)) (path : Path) :
    path.tails.countP (Node.isQueryAt (parse script tokens).trees) ≤ nestingLimit + 1 := by
  refine Node.countP_isQueryAt_le (List.forall_mem_map.2 fun root hroot => ?_) path
  exact (Reading.inputRead_within _ root hroot).map _ _

end SqlAtlas

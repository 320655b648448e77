import SqlAtlas.Reading

namespace SqlAtlas

inductive Node.All {ν σ : Type} (P : Construct ν → σ → List (Node ν σ) → Prop) : Node ν σ → Prop
  | node {construct extent children} : P construct extent children →
      (∀ child ∈ children, Node.All P child) → Node.All P (.node construct extent children)

theorem Node.All.map {ν μ σ τ : Type} {P : Construct ν → σ → List (Node ν σ) → Prop}
    {Q : Construct μ → τ → List (Node μ τ) → Prop} {f : ν → μ} {g : σ → τ} {S : σ → Prop}
    (hS : ∀ construct extent children, P construct extent children → S extent →
      ∀ child ∈ children, S child.extent)
    (hQ : ∀ construct extent children, P construct extent children → S extent →
      Q (construct.map f) (g extent) (children.map (Node.map f g)))
    {node : Node ν σ} (h : node.All P) (hnode : S node.extent) : (node.map f g).All Q := by
  induction h with
  | @node construct extent children hP _ ih =>
      rw [Node.map, mapAll_eq_map]
      refine .node (hQ construct extent children hP hnode) fun child hchild => ?_
      obtain ⟨origin, horigin, rfl⟩ := List.mem_map.1 hchild
      exact ih origin horigin (hS construct extent children hP hnode origin horigin)

def Construct.shape {ν : Type} : Construct ν → Shape
  | .statement type => .statement type
  | .subquery => .subquery
  | .commonTable => .commonTable
  | .table _ _ => .table
  | .derived _ => .derived

def Node.Leads {ν σ : Type} (node next : Node ν σ) : Prop :=
  next.construct.shape = .commonTable → node.construct.shape = .commonTable

@[simp] theorem Frame.shape_construct (frame : Frame) (shape : Shape) :
    (frame.construct shape).shape = shape := by
  cases shape <;> rfl

namespace Outline

def Laid (lo hi : Nat) : List Outline → Prop
  | [] => lo ≤ hi
  | node :: nodes => lo ≤ node.extent.first ∧ node.extent.first ≤ node.extent.last ∧
      Laid (node.extent.last + 1) hi nodes

namespace Laid

variable {lo mid hi : Nat} {nodes more : List Outline}

theorem le (h : Laid lo hi nodes) : lo ≤ hi := by
  induction nodes generalizing lo with
  | nil => exact h
  | cons node nodes ih =>
      have hrest := ih h.2.2
      have hfirst := h.1
      have hnode := h.2.1
      omega

theorem append (h₁ : Laid lo mid nodes) (h₂ : Laid mid hi more) : Laid lo hi (nodes ++ more) := by
  induction nodes generalizing lo with
  | nil =>
      cases more with
      | nil => exact Nat.le_trans h₁ h₂
      | cons node more => exact ⟨Nat.le_trans h₁ h₂.1, h₂.2⟩
  | cons node nodes ih => exact ⟨h₁.1, h₁.2.1, ih h₁.2.2⟩

theorem within (h : Laid lo hi nodes) {node : Outline} (hnode : node ∈ nodes) :
    lo ≤ node.extent.first ∧ node.extent.first ≤ node.extent.last ∧ node.extent.last < hi := by
  induction nodes generalizing lo with
  | nil => cases hnode
  | cons first rest ih =>
      have hrest := h.2.2
      rcases List.mem_cons.1 hnode with rfl | hmem
      · exact ⟨h.1, h.2.1, hrest.le⟩
      · obtain ⟨hlo, hnode, hhi⟩ := ih hrest hmem
        have hfirst := h.1
        have hcovers := h.2.1
        exact ⟨by omega, hnode, hhi⟩

theorem pairwise (h : Laid lo hi nodes) :
    nodes.Pairwise fun node next => node.extent.last < next.extent.first := by
  induction nodes generalizing lo with
  | nil => exact .nil
  | cons first rest ih => exact .cons (fun next hnext => (h.2.2.within hnext).1) (ih h.2.2)

theorem eq_nil (h : Laid lo hi nodes) (hle : hi ≤ lo) : nodes = [] := by
  refine List.eq_nil_iff_forall_not_mem.2 fun node hnode => ?_
  obtain ⟨hlo, hnode, hhi⟩ := h.within hnode
  omega

theorem after (h : Laid lo hi nodes) (hlt : lo < hi)
    (hlate : ∀ node ∈ nodes, lo < node.extent.first) : Laid (lo + 1) hi nodes := by
  cases nodes with
  | nil => exact hlt
  | cons node nodes => exact ⟨hlate node List.mem_cons_self, h.2⟩

end Laid

end Outline

structure Input.Names (input : Input) (lo hi : Nat) (parts : List Nat) : Prop where
  sorted : parts.Pairwise (· < ·)
  within : ∀ part ∈ parts, lo ≤ part ∧ part < hi
  named : ∀ part ∈ parts, input.kinds[part]? = some .identifier

namespace Input.Names

variable {input : Input} {lo mid hi : Nat} {parts more : List Nat}

theorem nil (lo hi : Nat) : input.Names lo hi [] :=
  ⟨.nil, by simp, by simp⟩

theorem singleton {part : Nat} (h : input.kinds[part]? = some .identifier) :
    input.Names part (part + 1) [part] :=
  ⟨by simp, by simp, by simpa using h⟩

theorem append (h₁ : input.Names lo mid parts) (h₂ : input.Names mid hi more) (hlo : lo ≤ mid)
    (hhi : mid ≤ hi) : input.Names lo hi (parts ++ more) where
  sorted := List.pairwise_append.2 ⟨h₁.sorted, h₂.sorted, fun part hpart next hnext =>
    Nat.lt_of_lt_of_le (h₁.within part hpart).2 (h₂.within next hnext).1⟩
  within part hpart := by
    rcases List.mem_append.1 hpart with hpart | hpart
    · have hbounds := h₁.within part hpart
      omega
    · have hbounds := h₂.within part hpart
      omega
  named part hpart := (List.mem_append.1 hpart).elim (h₁.named part) (h₂.named part)

end Input.Names

structure Outline.Proper (input : Input) (construct : Construct Nat) (extent : Extent)
    (children : List Outline) : Prop where
  covers : extent.first ≤ extent.last
  laid : Laid (extent.first + 1) (extent.last + 1) children
  nested : ∀ child ∈ children, ∀ type, child.construct.shape ≠ .statement type
  led : children.Pairwise Node.Leads
  table : ∀ name alias?, construct = .table name alias? →
    children = [] ∧ name.length ≤ 4 ∧ input.Names extent.first (extent.last + 1) name
  derived : ∀ alias?, construct = .derived alias? →
    children.length ≤ 1 ∧ ∀ child ∈ children, child.construct.shape = .subquery

end SqlAtlas

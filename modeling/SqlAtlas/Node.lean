namespace SqlAtlas

inductive StatementType where
  | select
  | insert
  | update
  | delete
  deriving DecidableEq, Repr

def StatementType.display : StatementType → String
  | .select => "SELECT"
  | .insert => "INSERT"
  | .update => "UPDATE"
  | .delete => "DELETE"

inductive Construct (ν : Type) where
  | statement (type : StatementType)
  | subquery
  | commonTable
  | table (name : List ν) (alias? : Option ν)
  | derived (alias? : Option ν)
  deriving DecidableEq, Repr

namespace Construct

variable {ν μ : Type}

def isQuery : Construct ν → Bool
  | .statement _ | .subquery | .commonTable => true
  | .table _ _ | .derived _ => false

def map (f : ν → μ) : Construct ν → Construct μ
  | .statement type => .statement type
  | .subquery => .subquery
  | .commonTable => .commonTable
  | .table name alias? => .table (name.map f) (alias?.map f)
  | .derived alias? => .derived (alias?.map f)

@[simp] theorem isQuery_map (f : ν → μ) (construct : Construct ν) :
    (construct.map f).isQuery = construct.isQuery := by
  cases construct <;> rfl

end Construct

inductive Node (ν σ : Type) where
  | node (construct : Construct ν) (extent : σ) (children : List (Node ν σ))
  deriving Repr

namespace Node

variable {ν μ σ τ : Type}

def construct : Node ν σ → Construct ν
  | .node construct _ _ => construct

def extent : Node ν σ → σ
  | .node _ extent _ => extent

def children : Node ν σ → List (Node ν σ)
  | .node _ _ children => children

mutual

def map (f : ν → μ) (g : σ → τ) : Node ν σ → Node μ τ
  | .node construct extent children => .node (construct.map f) (g extent) (mapAll f g children)

def mapAll (f : ν → μ) (g : σ → τ) : List (Node ν σ) → List (Node μ τ)
  | [] => []
  | first :: rest => map f g first :: mapAll f g rest

end

@[simp] theorem construct_map (f : ν → μ) (g : σ → τ) (node : Node ν σ) :
    (node.map f g).construct = node.construct.map f := by
  cases node
  rfl

@[simp] theorem extent_map (f : ν → μ) (g : σ → τ) (node : Node ν σ) :
    (node.map f g).extent = g node.extent := by
  cases node
  rfl

theorem mapAll_eq_map (f : ν → μ) (g : σ → τ) (nodes : List (Node ν σ)) :
    mapAll f g nodes = nodes.map (map f g) := by
  induction nodes with
  | nil => rfl
  | cons first rest ih => simp [mapAll, ih]

mutual

def preorder (depth : Nat) : Node ν σ → List (Nat × Construct ν × σ)
  | .node construct extent children =>
      (depth, construct, extent) :: preorderAll (depth + 1) children

def preorderAll (depth : Nat) : List (Node ν σ) → List (Nat × Construct ν × σ)
  | [] => []
  | first :: rest => preorder depth first ++ preorderAll depth rest

end

structure Visitor (ν σ α : Type) where
  enter : Construct ν → σ → α → α
  exit : Construct ν → σ → α → α

mutual

def walk {α : Type} (visitor : Visitor ν σ α) : Node ν σ → α → α
  | .node construct extent children, state =>
      visitor.exit construct extent
        (walkAll visitor children (visitor.enter construct extent state))

def walkAll {α : Type} (visitor : Visitor ν σ α) : List (Node ν σ) → α → α
  | [], state => state
  | first :: rest, state => walkAll visitor rest (walk visitor first state)

end

end Node

structure Extent where
  first : Nat
  last : Nat
  deriving DecidableEq, Repr

/-- A construct in terms of token indices: it covers tokens, and its names are tokens. -/
abbrev Outline := Node Nat Extent

end SqlAtlas

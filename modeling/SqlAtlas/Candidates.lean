namespace SqlAtlas

/-- What can come next at a caret: kinds, each with the kinds that must follow it, and the rules in
which the caret stands. Both are kept in the order in which they were found, once each. -/
structure Candidates (κ ρ : Type) where
  tokens : List (κ × List κ)
  rules : List ρ
  deriving DecidableEq, Repr

namespace Candidates

variable {κ ρ : Type}

def empty : Candidates κ ρ := ⟨[], []⟩

def isEmpty (candidates : Candidates κ ρ) : Bool :=
  candidates.tokens.isEmpty && candidates.rules.isEmpty

def addToken [DecidableEq κ] (candidates : Candidates κ ρ) (kind : κ) (follow : List κ) :
    Candidates κ ρ :=
  if kind ∈ candidates.tokens.map Prod.fst then candidates
  else ⟨candidates.tokens ++ [(kind, follow)], candidates.rules⟩

def addRule [DecidableEq ρ] (candidates : Candidates κ ρ) (rule : ρ) : Candidates κ ρ :=
  if rule ∈ candidates.rules then candidates else ⟨candidates.tokens, candidates.rules ++ [rule]⟩

end Candidates

end SqlAtlas

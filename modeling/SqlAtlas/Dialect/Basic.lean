import SqlAtlas.Atlas
import SqlAtlas.Candidates

namespace SqlAtlas

inductive Focus where
  | tables
  | columns
  deriving DecidableEq, Repr

structure Request (κ ρ : Type) where
  focus : Focus
  script : String
  tokens : List (Token κ)
  caret : Nat
  preferred : List ρ
  ignored : List κ
  deriving Repr

structure Dialect (κ ρ : Type) extends Reader κ where
  name : String
  display : κ → String
  tableRules : List ρ
  columnRules : List ρ
  ignored : List κ
  collect : Request κ ρ → Candidates κ ρ

namespace Dialect

variable {κ ρ : Type}

def rules (dialect : Dialect κ ρ) : Focus → List ρ
  | .tables => dialect.tableRules
  | .columns => dialect.columnRules

end Dialect

end SqlAtlas

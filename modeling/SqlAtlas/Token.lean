import SqlAtlas.Span
import SqlAtlas.Kind

namespace SqlAtlas

structure Token (κ : Type) where
  kind : κ
  span : Span
  deriving DecidableEq, Repr, Inhabited

namespace Token

variable {κ : Type}

def start (token : Token κ) : Nat := token.span.start

def text (token : Token κ) (script : String) : String := token.span.text script

end Token

inductive Stage where
  | lexical
  | syntactic
  deriving DecidableEq, Repr

def Stage.display : Stage → String
  | .lexical => "lexical"
  | .syntactic => "syntax"

structure Fault where
  stage : Stage
  span : Span
  message : String
  deriving DecidableEq, Repr

def Fault.display (fault : Fault) : String :=
  s!"{fault.stage.display} error at {fault.span.display}: {fault.message}"

structure Lexing (κ : Type) where
  tokens : List (Token κ)
  faults : List Fault
  deriving DecidableEq, Repr

end SqlAtlas

import SqlAtlas.Caret
import SqlAtlas.Dialect.Generic
import SqlAtlas.Suggestion

namespace SqlAtlas

structure Plan (κ ρ : Type) where
  typed : String
  requests : List (Request κ ρ)
  deriving Repr

namespace Dialect

variable {κ ρ : Type}

def request (dialect : Dialect κ ρ) (script : String) (tokens : List (Token κ)) (caret : Nat)
    (focus : Focus) : Request κ ρ :=
  ⟨focus, script, tokens, caret, dialect.rules focus, dialect.ignored⟩

def plan? (dialect : Dialect κ ρ) (script : String) (offset? : Option Nat) : Option (Plan κ ρ) :=
  let offset := offset?.getD script.utf8ByteSize
  let visible := Caret.visible offset script
  let tokens := (dialect.lex visible).tokens
  (Caret.place? tokens script offset).map fun caret =>
    ⟨caret.typed, [.tables, .columns].map (dialect.request visible tokens caret.token)⟩

def textOf (dialect : Dialect κ ρ) (candidate : κ × List κ) : String :=
  Suggestion.stitch (dialect.display candidate.1) (candidate.2.map dialect.display)

def addCandidates [DecidableEq ρ] (dialect : Dialect κ ρ) (gathering : Gathering)
    (candidates : Candidates κ ρ) : Gathering :=
  gathering.addPass (candidates.rules.any (· ∈ dialect.tableRules))
    (candidates.rules.any (· ∈ dialect.columnRules)) (candidates.tokens.map dialect.textOf)

def carryOut [DecidableEq ρ] (dialect : Dialect κ ρ) (plan : Plan κ ρ) : List Suggestion :=
  ((plan.requests.map dialect.collect).foldl dialect.addCandidates
    (Gathering.begin plan.typed)).suggestions

def complete [DecidableEq ρ] (dialect : Dialect κ ρ) (script : String) (offset? : Option Nat) :
    Option (List Suggestion) :=
  (dialect.plan? script offset?).map dialect.carryOut

end Dialect

end SqlAtlas

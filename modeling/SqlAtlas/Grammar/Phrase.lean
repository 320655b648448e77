import SqlAtlas.Kind
import SqlAtlas.Node
import SqlAtlas.Grammar.Rule

namespace SqlAtlas

/-- The rules that the grammar comes back to. Every unbounded descent goes through one of them. -/
inductive Nest where
  | expression
  | subquery
  | commonTable
  deriving DecidableEq, Repr

def Nest.rule : Nest → Rule
  | .expression => .expression
  | .subquery => .subquery
  | .commonTable => .commonTableExpression

inductive Guard where
  /-- Reads a token. At the caret the token is offered, with the ones that must come after it. -/
  | token (kind : Kind) (follow : List Kind)
  /-- The same test and offer without reading. -/
  | before (kind : Kind)
  /-- Reads these tokens, all of them or none, and offers nothing. -/
  | run (kinds : List Kind)
  /-- The same test without reading. -/
  | sight (kinds : List Kind)
  deriving DecidableEq, Repr

namespace Guard

def kinds : Guard → List Kind
  | .token kind _ | .before kind => [kind]
  | .run kinds | .sight kinds => kinds

def width : Guard → Nat
  | .token _ _ => 1
  | .before _ | .sight _ => 0
  | .run kinds => kinds.length

def offer? : Guard → Option (Kind × List Kind)
  | .token kind follow => some (kind, follow)
  | .before kind => some (kind, [])
  | .run _ | .sight _ => none

end Guard

inductive Note where
  | part
  | alias
  deriving DecidableEq, Repr

inductive Shape where
  | statement (type : StatementType)
  | subquery
  | commonTable
  | table
  | derived
  deriving DecidableEq, Repr

/-- A grammar as data. Reading a phrase tells whether it took a turn: a guard or a required token
that was there, a choice whose test took one. -/
inductive Phrase where
  | nothing
  | accept (guard : Guard)
  | need (kind : Kind)
  | fail
  | stray
  | note (note : Note)
  | seq (first second : Phrase)
  | ifElse (test yes no : Phrase)
  | many (body : Phrase)
  | rule (rule : Rule) (body : Phrase)
  | node (shape : Shape) (body : Phrase)
  | nest (nest : Nest)
  deriving Repr

namespace Phrase

def eat (kind : Kind) : Phrase := .accept (.token kind [])

def word (word : Keyword) : Phrase := eat (.keyword word)

def needWord (word : Keyword) : Phrase := .need (.keyword word)

def optional (test body : Phrase) : Phrase := .ifElse test body .nothing

def firstOf : List Phrase → Phrase
  | [] => .nothing
  | phrase :: phrases => .ifElse phrase .nothing (firstOf phrases)

def anyOf (kinds : List Kind) : Phrase := firstOf (kinds.map eat)

def anyBefore (kinds : List Kind) : Phrase := firstOf (kinds.map fun kind => .accept (.before kind))

def all : List Phrase → Phrase
  | [] => .nothing
  | [phrase] => phrase
  | phrase :: phrases => .seq phrase (all phrases)

def separated (kinds : List Kind) (item : Phrase) : Phrase :=
  .seq item (.many (optional (anyOf kinds) item))

def list (item : Phrase) : Phrase := separated [.comma] item

def needParens (body : Phrase) : Phrase :=
  optional (.need .openParen) (.seq body (.need .closeParen))

end Phrase

end SqlAtlas

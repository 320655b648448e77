import Mathlib.Computability.Language
import SqlAtlas.Grammar.Phrase

namespace SqlAtlas

open Computability

/-- A part of a derivation: a token, what the token before is to the construct around it, or a
construct with all that is derived for it. -/
inductive Piece where
  | token (kind : Kind)
  | note (note : Note)
  | group (shape : Shape) (pieces : List Piece)
  deriving Repr

mutual

def Piece.kinds : Piece → List Kind
  | .token kind => [kind]
  | .note _ => []
  | .group _ pieces => kindsOf pieces

def kindsOf : List Piece → List Kind
  | [] => []
  | piece :: pieces => piece.kinds ++ kindsOf pieces

end

section Projection

def Shape.construct (name : List Nat) (alias? : Option Nat) : Shape → Construct Nat
  | .statement type => .statement type
  | .subquery => .subquery
  | .commonTable => .commonTable
  | .table => .table name alias?
  | .derived => .derived alias?

-- The tokens that stand right before this note and in no construct of their own, by index.
def noted (role : Note) (start : Nat) : List Piece → List Nat
  | [] => []
  | .note note :: pieces =>
      (if note = role ∧ 0 < start then [start - 1] else []) ++ noted role start pieces
  | piece :: pieces => noted role (start + piece.kinds.length) pieces

mutual

def Piece.outlines (start : Nat) : Piece → List Outline
  | .token _ | .note _ => []
  | .group shape pieces =>
      [.node (shape.construct (noted .part start pieces) (noted .alias start pieces).getLast?)
        ⟨start, start + (kindsOf pieces).length - 1⟩ (outlines start pieces)]

def outlines (start : Nat) : List Piece → List Outline
  | [] => []
  | piece :: pieces => piece.outlines start ++ outlines (start + piece.kinds.length) pieces

end

end Projection

/-- What is derived for the rules that the grammar comes back to, and whether a lone name before a
parenthesis always begins a call. -/
structure Setting where
  forms : Nest → Language Piece
  callsOnly : Prop

/-- A part of the grammar in extended Backus-Naur form: `+` is a choice, `*` a sequence and `∗` a
repetition. -/
abbrev Production := Setting → Language Piece

def enclose (shape : Shape) (inner : Language Piece) : Language Piece :=
  {d | ∃ pieces ∈ inner, [.group shape pieces] = d}

namespace Production

def kind (kind : Kind) : Production := fun _ => {[.token kind]}

def word (word : Keyword) : Production := kind (.keyword word)

def oneOf (kinds : List Kind) : Production := (kinds.map kind).sum

def opt (production : Production) : Production := production + 1

def list (item : Production) : Production := item * (kind .comma * item)∗

def parens (inner : Production) : Production := kind .openParen * (inner * kind .closeParen)

/-- A sequence that does not put a parenthesis after a lone name where that begins a call. -/
def beside (first second : Production) : Production := fun setting =>
  {d | ∃ u ∈ first setting, ∃ v ∈ second setting,
    (setting.callsOnly →
      ¬ (kindsOf u = [.identifier] ∧ (kindsOf v).head? = some .openParen)) ∧ u ++ v = d}

def construct (shape : Shape) (inner : Production) : Production := fun setting =>
  enclose shape (inner setting)

section Expressions

def name : Production := kind .identifier

def expression : Production := fun setting => setting.forms .expression

def subquery : Production := fun setting => setting.forms .subquery

def expressions : Production := list expression

def column : Production := name * (kind .dot * name)∗

def call : Production :=
  name * parens (kind .star + opt (opt (word .DISTINCT) * expressions))

def branch : Production := word .WHEN * (expression * (word .THEN * expression))

def cases : Production :=
  word .CASE * ((expression * branch∗ + branch * branch∗) *
    (opt (word .ELSE * expression) * word .END))

def primary : Production :=
  call + column + oneOf [.number, .string, .keyword .NULL] + cases +
    word .EXISTS * parens subquery + parens (subquery + expressions)

def unary : Production := (oneOf [.plus, .minus])∗ * primary

def multiplicative : Production := unary * (oneOf [.star, .slash, .percent] * unary)∗

def additive : Production := multiplicative * (oneOf [.plus, .minus] * multiplicative)∗

def comparison : Production := oneOf Kind.comparisons * additive

def nullTest : Production := word .IS * (opt (word .NOT) * word .NULL)

def setTest : Production :=
  word .IN * parens (subquery + expressions) + word .LIKE * additive +
    word .BETWEEN * (additive * (word .AND * additive))

def predicate : Production :=
  additive * opt (comparison + nullTest + opt (word .NOT) * setTest)

def negation : Production := (word .NOT)∗ * predicate

def conjunction : Production := negation * (word .AND * negation)∗

def disjunction : Production := conjunction * (word .OR * conjunction)∗

end Expressions

section Queries

def names : Production := list name

def columnAlias : Production := opt (opt (word .AS) * oneOf [.identifier, .string])

def nameAs (role : Note) : Production := fun _ => {[.token .identifier, .note role]}

def tableAlias : Production := opt (opt (word .AS) * nameAs .alias)

def dotted : Nat → Production
  | 0 => nameAs .part
  | more + 1 => nameAs .part * opt (kind .dot * dotted more)

def tableName : Production := dotted 3

def tableItem : Production :=
  construct .derived (parens subquery * tableAlias) + construct .table (tableName * tableAlias)

def joinType : Production :=
  word .INNER + oneOf [.keyword .LEFT, .keyword .RIGHT, .keyword .FULL] * opt (word .OUTER)

def join : Production :=
  word .CROSS * (word .JOIN * tableItem) +
    opt joinType * (word .JOIN * (tableItem * (word .ON * expression)))

def tableSource : Production := tableItem * join∗

def tableSources : Production := list tableSource

def columnElem : Production :=
  kind .star + name * (kind .dot * kind .star) + expression * columnAlias

def selectList : Production := list columnElem

def clause (words : List Keyword) (inner : Production) : Production :=
  opt (words.foldr (fun first rest => word first * rest) inner)

def selection : Production :=
  selectList * (clause [.FROM] tableSources * (clause [.WHERE] expression *
    (clause [.GROUP, .BY] expressions * clause [.HAVING] expression)))

def specification : Production :=
  word .SELECT * (opt (oneOf [.keyword .ALL, .keyword .DISTINCT]) *
    (word .TOP * beside primary selection + selection))

def setOperator : Production :=
  word .UNION * opt (word .ALL) + oneOf [.keyword .EXCEPT, .keyword .INTERSECT]

def orderElem : Production := expression * opt (oneOf [.keyword .ASC, .keyword .DESC])

def commonTable : Production := fun setting => setting.forms .commonTable

def select : Production :=
  clause [.WITH] (list commonTable) *
    (specification * (setOperator * specification)∗ * clause [.ORDER, .BY] (list orderElem))

def commonTableBody : Production :=
  construct .commonTable (name * (opt (parens names) * (word .AS * parens select)))

end Queries

section Scripts

def target : Production := construct .table tableName

def insert : Production :=
  word .INSERT * (opt (word .INTO) * (target * (opt (parens names) *
    (word .VALUES * list (parens expressions) + parens subquery + subquery))))

def assignment : Production := column * (kind .equals * expression)

def update : Production :=
  word .UPDATE * (target * (word .SET * (list assignment *
    (clause [.FROM] tableSources * clause [.WHERE] expression))))

def delete : Production :=
  word .DELETE * (opt (word .FROM) * (target * clause [.WHERE] expression))

def statement : Production :=
  construct (.statement .insert) insert + construct (.statement .update) update +
    construct (.statement .delete) delete + construct (.statement .select) select

def file : Production := (kind .semicolon + statement)∗

end Scripts

def body : Nest → Production
  | .expression => disjunction
  | .subquery => construct .subquery select
  | .commonTable => commonTableBody

end Production

/-- The derivations in which no path goes through more than this many of the rules that the grammar
comes back to. -/
def Setting.upTo (callsOnly : Prop) : Nat → Setting
  | 0 => ⟨fun _ => 0, callsOnly⟩
  | levels + 1 => ⟨fun again => Production.body again (upTo callsOnly levels), callsOnly⟩

end SqlAtlas

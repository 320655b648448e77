import SqlAtlas.Text.Blank
import SqlAtlas.Text.Upper

namespace SqlAtlas

inductive Suggestion where
  | keyword (text : String)
  | table
  | column
  deriving DecidableEq, Repr

namespace Suggestion

def display : Suggestion → String
  | .keyword text => text
  | .table => "<TABLE>"
  | .column => "<COLUMN>"

def keyword? : Suggestion → Option String
  | .keyword text => some text
  | .table | .column => none

def bare : List Char → List Char
  | '\'' :: rest => if rest.getLast? = some '\'' then rest.dropLast else '\'' :: rest
  | name => name

def stripQuotes (name : String) : String := String.ofList (bare name.toList)

def isGlued : List Char → Bool
  | [c] => !(c.isAlphanum || c == '_' || Text.isBlank c)
  | _ => false

def joined (text next : List Char) : List Char :=
  text ++ (if isGlued next then next else ' ' :: next)

def stitch (name : String) (follow : List String) : String :=
  String.ofList ((follow.map (bare ·.toList)).foldl joined (bare name.toList))

end Suggestion

/-- The suggestions gathered so far for what has been typed, which is kept in upper case, and the
texts that have been suggested. -/
structure Gathering where
  typed : List Char
  seen : List String
  suggestions : List Suggestion
  deriving DecidableEq, Repr

namespace Gathering

def begin (typed : String) : Gathering := ⟨Text.upper typed.toList, [], []⟩

def accepts (typed : List Char) (text : String) : Bool :=
  typed.isPrefixOf (Text.upper text.toList)

def suggest (typed : List Char) (done : List String × List Suggestion) (text : String) :
    List String × List Suggestion :=
  if accepts typed text && !done.1.contains text
    then (text :: done.1, done.2 ++ [.keyword text]) else done

def addPass (table column : Bool) (texts : List String) (gathering : Gathering) : Gathering :=
  let done := texts.foldl (suggest gathering.typed) (gathering.seen, [])
  let tabled := if table then .table :: done.2 else done.2
  let pass := if column then .column :: tabled else tabled
  { gathering with seen := done.1, suggestions := gathering.suggestions ++ pass }

end Gathering

end SqlAtlas

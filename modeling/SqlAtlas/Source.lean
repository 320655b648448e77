import SqlAtlas.Identifier
import SqlAtlas.Lexeme
import SqlAtlas.Reading
import SqlAtlas.Tree

namespace SqlAtlas

def Cause.message (found : String) : Cause → String
  | .missing kind => s!"missing {kind.display} at '{found}'"
  | .extraneous kind => s!"extraneous input '{found}' expecting {kind.display}"
  | .noAlternative => s!"no viable alternative at input '{found}'"
  | .stray =>
      let starts := ", ".intercalate (Keyword.statementStarts.map Keyword.spelling)
      s!"extraneous input '{found}' expecting \x7b<EOF>, ';', {starts}\x7d"
  | .tooDeep => "maximum nesting depth exceeded"

structure Source where
  script : String
  tokens : Array (Token Kind)

namespace Source

variable (source : Source)

def spanAt (index : Nat) : Span := ((source.tokens[index]?).map Token.span).getD default

def kindAt (index : Nat) : Kind := ((source.tokens[index]?).map Token.kind).getD .eof

def textAt (index : Nat) : String := (source.spanAt index).text source.script

def quoteAt (index : Nat) : String :=
  if source.kindAt index = .eof then Kind.display .eof else source.textAt index

def nameAt (index : Nat) : String := Identifier.unquote (source.textAt index)

def spanOf (extent : Extent) : Span :=
  (source.spanAt extent.first).through (source.spanAt extent.last)

def tree (outline : Outline) : Tree := outline.map source.nameAt source.spanOf

def fault (complaint : Complaint) : Fault :=
  ⟨.syntactic, source.spanAt complaint.index,
    complaint.cause.message (source.quoteAt complaint.index)⟩

section Lookup

variable {script : String} {tokens : List (Token Kind)} {index : Nat} {token : Token Kind}

theorem spanAt_eq (h : tokens[index]? = some token) :
    (Source.mk script tokens.toArray).spanAt index = token.span := by
  rw [spanAt, List.getElem?_toArray, h, Option.map_some, Option.getD_some]

theorem textAt_eq (h : tokens[index]? = some token) :
    (Source.mk script tokens.toArray).textAt index = token.text script := by
  rw [textAt, spanAt_eq h, Token.text]

theorem spanAt_of_lt (h : index < tokens.length) (rest : List (Token Kind)) :
    (Source.mk script (tokens ++ rest).toArray).spanAt index = tokens[index].span :=
  spanAt_eq (by rw [List.getElem?_append_left h, List.getElem?_eq_getElem h])

end Lookup

end Source

def parse (script : String) (tokens : List (Token Kind)) : Parsing :=
  let source : Source := ⟨script, tokens.toArray⟩
  let reading := Input.read ⟨(tokens.map Token.kind).toArray, none⟩
  ⟨reading.roots.map source.tree, reading.complaints.map source.fault⟩

def collect (tokens : List (Token Kind)) (watch : Watch) : Candidates Kind Rule :=
  (Input.read ⟨(tokens.map Token.kind).toArray, some watch⟩).candidates

end SqlAtlas

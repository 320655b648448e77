import SqlAtlas.Query
import SqlAtlas.SpanIndex

namespace SqlAtlas

structure Atlas where
  queries : List Query
  unbound : List Diagnosis
  index : SpanIndex
  deriving Repr

namespace Atlas

def empty : Atlas := ⟨[], [], .empty⟩

def insert (query : Query) (atlas : Atlas) : Atlas :=
  { atlas with
    queries := query.putBy Query.id atlas.queries
    index := atlas.index.insert (query.span, query.id) }

def insertAll (queries : List Query) : Atlas :=
  queries.foldl (fun atlas query => atlas.insert query) empty

def query? (id : Nat) (atlas : Atlas) : Option Query := atlas.queries.find? (·.id = id)

def queryAt (offset : Nat) (atlas : Atlas) : Option Query :=
  (atlas.index.holder? offset).bind fun entry => atlas.query? entry.2

def nearestTo (offset : Nat) (atlas : Atlas) : Option Query :=
  (atlas.index.nearest? offset).bind fun entry => atlas.query? entry.2

def innermostAt (offset : Nat) (atlas : Atlas) : Option Query :=
  (atlas.queryAt offset).bind (·.innermostAt offset)

def allQueries (atlas : Atlas) : List Query := atlas.queries.flatMap Query.all

def diagnoses (atlas : Atlas) : List Diagnosis :=
  atlas.allQueries.flatMap Query.diagnoses ++ atlas.unbound

def isEmpty (atlas : Atlas) : Bool := atlas.queries.isEmpty

def ofDrafts (drafts : List Draft) : Atlas := insertAll (drafts.map Query.ofDraft)

def adjust (id : Nat) (change : Query → Query) (atlas : Atlas) : Atlas :=
  { atlas with queries :=
    atlas.queries.map fun query => if query.id = id then change query else query }

def give (token : Excerpt) (atlas : Atlas) : Atlas × List Query.Revisit :=
  match atlas.queryAt token.span.start with
  | none => (atlas, [])
  | some top =>
      let given := top.give token none
      (atlas.adjust top.id fun _ => given.1, given.2)

def assign (tokens : List Excerpt) (atlas : Atlas) : Atlas × List Query.Revisit :=
  tokens.foldr (fun token done =>
    let given := done.1.give token
    (given.1, given.2 ++ done.2)) (atlas, [])

def resolve (atlas : Atlas) : Atlas := { atlas with queries := atlas.queries.map Query.resolve }

def bind (diagnosis : Diagnosis) (atlas : Atlas) : Atlas :=
  match atlas.nearestTo diagnosis.excerpt.span.start with
  | none => { atlas with unbound := diagnosis :: atlas.unbound }
  | some top => atlas.adjust top.id fun query =>
      { query with diagnoses := diagnosis :: query.diagnoses }

end Atlas

structure Reader (κ : Type) where
  lex : String → Lexing κ
  parse : String → List (Token κ) → Parsing

namespace Reader

variable {κ : Type}

def excerpts (script : String) (tokens : List (Token κ)) : List Excerpt :=
  (tokens.map fun token => ⟨token.span, token.text script⟩).filter (·.text ≠ "")

def inOrder (faults : List Fault) : List Fault :=
  faults.mergeSort (fun left right => left.span.start ≤ right.span.start)

def survey (reader : Reader κ) (script : String) : Atlas :=
  let lexing := reader.lex script
  let parsing := reader.parse script lexing.tokens
  let assigned := (Atlas.ofDrafts (Draft.ofScript parsing.trees)).assign
    (excerpts script lexing.tokens)
  let diagnoses := (inOrder (lexing.faults ++ parsing.faults)).map (Diagnosis.ofFault script)
  diagnoses.foldr Atlas.bind assigned.1.resolve

end Reader

end SqlAtlas

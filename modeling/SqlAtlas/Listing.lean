import SqlAtlas.Atlas

namespace SqlAtlas

inductive Line where
  | query (depth : Nat) (query : Query)
  | diagnosis (depth : Nat) (diagnosis : Diagnosis)
  | unbound (diagnosis : Diagnosis)
  deriving Repr

namespace Line

def indent (depth : Nat) : String := String.ofList (List.replicate (2 * depth) ' ')

def queryText (query : Query) : String :=
  let name := (query.name?.map (" " ++ ·)).getD ""
  let tables := ", ".intercalate (query.tables.map Table.qualified)
  s!"{query.label} {query.type.display}{name} [{query.span.display}] tables: {tables}"

def text : Line → String
  | .query depth shown => indent depth ++ queryText shown
  | .diagnosis depth found => indent (depth + 1) ++ "! " ++ found.display
  | .unbound found => "! " ++ found.display

end Line

namespace Query

mutual

def listing (depth : Nat) : Query → List Line
  | query@{ diagnoses, commonTables, subqueries, .. } =>
      .query depth query ::
        (diagnoses.map (.diagnosis depth) ++ listingAll (depth + 1) commonTables ++
          listingAll (depth + 1) subqueries)

def listingAll (depth : Nat) : List Query → List Line
  | [] => []
  | query :: queries => listing depth query ++ listingAll depth queries

end

end Query

namespace Atlas

def listing (atlas : Atlas) : List Line :=
  Query.listingAll 0 atlas.queries ++ atlas.unbound.map .unbound

end Atlas

end SqlAtlas

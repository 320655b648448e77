import SqlAtlas.Draft
import SqlAtlas.Identifier

namespace SqlAtlas

structure Excerpt where
  span : Span
  text : String
  deriving DecidableEq, Repr

def Excerpt.display (excerpt : Excerpt) : String :=
  s!"'{excerpt.text}' at {excerpt.span.display}"

structure Diagnosis where
  stage : Stage
  excerpt : Excerpt
  message : String
  deriving DecidableEq, Repr

namespace Diagnosis

def ofFault (script : String) (fault : Fault) : Diagnosis :=
  ⟨fault.stage, ⟨fault.span, fault.span.text script⟩, fault.message⟩

def display (diagnosis : Diagnosis) : String :=
  s!"{diagnosis.message} at {diagnosis.excerpt.display}"

end Diagnosis

structure Query where
  id : Nat
  name? : Option String
  type : StatementType
  span : Span
  parent? : Option Nat
  tables : List Table
  tokens : List Excerpt
  diagnoses : List Diagnosis
  commonTables : List Query
  subqueries : List Query
  deriving Repr

namespace Query

def label (query : Query) : String := s!"#{query.id}"

def title (query : Query) : String :=
  ((query.tokens.head?).map fun token => Identifier.unquote token.text).getD query.label

def named (query : Query) : Query := { query with name? := some query.title }

def putBy {κ : Type} [DecidableEq κ] (key : Query → κ) (query : Query) : List Query → List Query
  | [] => [query]
  | first :: rest => if key first = key query then query :: rest else first :: putBy key query rest

def nameAll (queries : List Query) : List Query :=
  (queries.map named).foldl (fun kept query => query.putBy name? kept) []

mutual

def ofDraft : Draft → Query
  | { id, type, span, parent?, mentions, commonTables, subqueries, .. } =>
      { id, type, span, parent?
        name? := none
        tables := Table.consolidate mentions
        tokens := []
        diagnoses := []
        commonTables := ofDrafts commonTables
        subqueries := ofDrafts subqueries }

def ofDrafts : List Draft → List Query
  | [] => []
  | draft :: drafts => ofDraft draft :: ofDrafts drafts

end

/-- Where a token on its way inward comes to a query that is not further in than the one before. -/
structure Revisit where
  id : Nat
  offset : Nat
  deriving DecidableEq, Repr

mutual

/-- Gives a token to a query, before those that it has, and then to the first query in it that is
around the start of the token, common tables before others. Identifiers grow on the way inward from
`previous?`: a query where they do not is not entered. -/
def give (token : Excerpt) (previous? : Option Nat) : Query → Query × List Revisit
  | query@{ id, tokens, commonTables, subqueries, .. } =>
      if previous?.any (id ≤ ·) then (query, [⟨id, token.span.start⟩])
      else
        match giveAny token id commonTables with
        | some (given, revisits) =>
            ({ query with tokens := token :: tokens, commonTables := given }, revisits)
        | none =>
            match giveAny token id subqueries with
            | some (given, revisits) =>
                ({ query with tokens := token :: tokens, subqueries := given }, revisits)
            | none => ({ query with tokens := token :: tokens }, [])

def giveAny (token : Excerpt) (previous : Nat) : List Query → Option (List Query × List Revisit)
  | [] => none
  | query :: queries =>
      if query.span.contains token.span.start then
        let given := give token (some previous) query
        some (given.1 :: queries, given.2)
      else (giveAny token previous queries).map fun given => (query :: given.1, given.2)

end

mutual

def resolve : Query → Query
  | query@{ commonTables, subqueries, .. } =>
      { query with
        commonTables := nameAll (resolveAll commonTables)
        subqueries := resolveAll subqueries }

def resolveAll : List Query → List Query
  | [] => []
  | query :: queries => resolve query :: resolveAll queries

end

def commonTableAt (offset : Nat) (query : Query) : Option Query :=
  query.commonTables.find? (·.span.contains offset)

def subqueryAt (offset : Nat) (query : Query) : Option Query :=
  query.subqueries.find? (·.span.contains offset)

def childAt (offset : Nat) (query : Query) : Option Query :=
  (query.commonTableAt offset).or (query.subqueryAt offset)

mutual

def descend (offset : Nat) : Query → Query
  | query@{ commonTables, subqueries, .. } =>
      ((descendAny offset commonTables).or (descendAny offset subqueries)).getD query

def descendAny (offset : Nat) : List Query → Option Query
  | [] => none
  | query :: queries =>
      if query.span.contains offset then some (descend offset query) else descendAny offset queries

end

theorem descendAny_eq_map_find? (offset : Nat) (queries : List Query) :
    descendAny offset queries = (queries.find? (·.span.contains offset)).map (descend offset) := by
  induction queries with
  | nil => rfl
  | cons query queries ih =>
      cases h : query.span.contains offset with
      | false => simpa [descendAny, List.find?_cons, h] using ih
      | true => simp only [descendAny, List.find?_cons, h, if_true, Option.map_some]

theorem descend_eq (offset : Nat) (query : Query) :
    query.descend offset = ((query.childAt offset).map (descend offset)).getD query := by
  cases query
  rw [descend, descendAny_eq_map_find?, descendAny_eq_map_find?, ← Option.map_or]
  rfl

def innermostAt (offset : Nat) (query : Query) : Option Query :=
  if query.span.contains offset then some (query.descend offset) else none

def ownTokens (query : Query) : List Excerpt :=
  query.tokens.filter fun token => (query.childAt token.span.start).isNone

def table? (name : String) (query : Query) : Option Table := Table.named? name query.tables

mutual

def size : Query → Nat
  | { commonTables, subqueries, .. } => 1 + sizeAll commonTables + sizeAll subqueries

def sizeAll : List Query → Nat
  | [] => 0
  | query :: queries => size query + sizeAll queries

end

theorem size_eq (query : Query) :
    query.size = 1 + sizeAll query.commonTables + sizeAll query.subqueries := by
  cases query
  rfl

@[simp] theorem sizeAll_append (left right : List Query) :
    sizeAll (left ++ right) = sizeAll left + sizeAll right := by
  induction left with
  | nil => simp [sizeAll]
  | cons query queries ih => simp [sizeAll, ih, Nat.add_assoc]

@[simp] theorem sizeAll_reverse (queries : List Query) :
    sizeAll queries.reverse = sizeAll queries := by
  induction queries with
  | nil => rfl
  | cons query queries ih => simp [sizeAll, ih, Nat.add_comm]

/-- Takes the last query that waits. Those in it wait in its place, its common tables last, so that
the first of these is the next one. -/
def next? (pending : Array Query) : Option (Query × Array Query) :=
  pending.back?.map fun query =>
    (query, pending.pop ++ query.subqueries.reverse ++ query.commonTables.reverse)

theorem exists_push_of_next? {pending rest : Array Query} {query : Query}
    (h : next? pending = some (query, rest)) :
    ∃ below : Array Query, pending = below.push query ∧
      rest = below ++ query.subqueries.reverse ++ query.commonTables.reverse := by
  obtain ⟨last, hlast, htaken⟩ := Option.map_eq_some_iff.1 h
  obtain ⟨below, rfl⟩ := Array.back?_eq_some_iff.1 hlast
  obtain ⟨rfl, rfl⟩ := Prod.mk.inj htaken
  exact ⟨below, rfl, by rw [Array.pop_push]⟩

theorem sizeAll_lt_of_next? {pending rest : Array Query} {query : Query}
    (h : next? pending = some (query, rest)) : sizeAll rest.toList < sizeAll pending.toList := by
  obtain ⟨below, rfl, rfl⟩ := exists_push_of_next? h
  simp only [Array.toList_push, Array.toList_appendList, sizeAll_append, sizeAll_reverse,
    sizeAll, size_eq]
  omega

def visit (pending : Array Query) : List Query :=
  match _h : next? pending with
  | none => []
  | some (query, rest) => query :: visit rest
termination_by sizeAll pending.toList
decreasing_by exact sizeAll_lt_of_next? ‹_›

def all (query : Query) : List Query := visit #[query]

end Query

end SqlAtlas

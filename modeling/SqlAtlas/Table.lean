namespace SqlAtlas

structure Mention where
  name : List String
  alias? : Option String
  deriving DecidableEq, Repr

structure Table where
  name : String
  schema? : Option String
  database? : Option String
  aliases : List String
  deriving DecidableEq, Repr

namespace Table

def ofParts? (parts : List String) : Option Table :=
  match parts.reverse with
  | [] => none
  | [name] => some ⟨name, none, none, []⟩
  | [name, schema] => some ⟨name, some schema, none, []⟩
  | name :: schema :: database =>
      some ⟨name, some schema, some (".".intercalate database.reverse), []⟩

theorem ofParts?_eq_none_iff {parts : List String} : ofParts? parts = none ↔ parts = [] := by
  constructor
  · intro h
    have hnil : parts.reverse = [] := by
      unfold ofParts? at h
      split at h <;> simp_all
    simpa using hnil
  · rintro rfl
    rfl

def qualified (table : Table) : String :=
  ".".intercalate (table.database?.toList ++ table.schema?.toList ++ [table.name])

def addAlias (alias? : Option String) (table : Table) : Table :=
  match alias? with
  | none => table
  | some name =>
      if name ∈ table.aliases then table else { table with aliases := table.aliases ++ [name] }

def merge (table : Table) (alias? : Option String) : List Table → List Table
  | [] => [table.addAlias alias?]
  | first :: rest =>
      if first.qualified = table.qualified then first.addAlias alias? :: rest
      else first :: merge table alias? rest

def mention (tables : List Table) (mention : Mention) : List Table :=
  match ofParts? mention.name with
  | none => tables
  | some table => table.merge mention.alias? tables

def consolidate (mentions : List Mention) : List Table := mentions.foldl mention []

def sameWord (left right : String) : Bool :=
  left.toList.map Char.toLower == right.toList.map Char.toLower

def named? (name : String) (tables : List Table) : Option Table :=
  (tables.find? fun table => table.aliases.any (sameWord name)).or
    (tables.find? fun table => sameWord name table.name)

end Table

end SqlAtlas

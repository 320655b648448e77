namespace SqlAtlas

inductive Keyword where
  | ALL | AND | AS | ASC | BETWEEN | BY | CASE | CROSS | DELETE | DESC | DISTINCT | ELSE | END
  | EXCEPT | EXISTS | FROM | FULL | GROUP | HAVING | IN | INNER | INSERT | INTERSECT | INTO
  | IS | JOIN | LEFT | LIKE | NOT | NULL | ON | OR | ORDER | OUTER | RIGHT | SELECT | SET
  | THEN | TOP | UNION | UPDATE | VALUES | WHEN | WHERE | WITH
  deriving DecidableEq, Repr

namespace Keyword

def all : List Keyword :=
  [.ALL, .AND, .AS, .ASC, .BETWEEN, .BY, .CASE, .CROSS, .DELETE, .DESC, .DISTINCT, .ELSE, .END,
   .EXCEPT, .EXISTS, .FROM, .FULL, .GROUP, .HAVING, .IN, .INNER, .INSERT, .INTERSECT, .INTO,
   .IS, .JOIN, .LEFT, .LIKE, .NOT, .NULL, .ON, .OR, .ORDER, .OUTER, .RIGHT, .SELECT, .SET,
   .THEN, .TOP, .UNION, .UPDATE, .VALUES, .WHEN, .WHERE, .WITH]

theorem mem_all (word : Keyword) : word ∈ all := by
  cases word <;> decide

def spelling : Keyword → String
  | .ALL => "ALL"
  | .AND => "AND"
  | .AS => "AS"
  | .ASC => "ASC"
  | .BETWEEN => "BETWEEN"
  | .BY => "BY"
  | .CASE => "CASE"
  | .CROSS => "CROSS"
  | .DELETE => "DELETE"
  | .DESC => "DESC"
  | .DISTINCT => "DISTINCT"
  | .ELSE => "ELSE"
  | .END => "END"
  | .EXCEPT => "EXCEPT"
  | .EXISTS => "EXISTS"
  | .FROM => "FROM"
  | .FULL => "FULL"
  | .GROUP => "GROUP"
  | .HAVING => "HAVING"
  | .IN => "IN"
  | .INNER => "INNER"
  | .INSERT => "INSERT"
  | .INTERSECT => "INTERSECT"
  | .INTO => "INTO"
  | .IS => "IS"
  | .JOIN => "JOIN"
  | .LEFT => "LEFT"
  | .LIKE => "LIKE"
  | .NOT => "NOT"
  | .NULL => "NULL"
  | .ON => "ON"
  | .OR => "OR"
  | .ORDER => "ORDER"
  | .OUTER => "OUTER"
  | .RIGHT => "RIGHT"
  | .SELECT => "SELECT"
  | .SET => "SET"
  | .THEN => "THEN"
  | .TOP => "TOP"
  | .UNION => "UNION"
  | .UPDATE => "UPDATE"
  | .VALUES => "VALUES"
  | .WHEN => "WHEN"
  | .WHERE => "WHERE"
  | .WITH => "WITH"

def ofSpelling? (text : String) : Option Keyword :=
  all.find? (·.spelling == text)

theorem ofSpelling?_spelling (word : Keyword) : ofSpelling? word.spelling = some word := by
  cases word <;> decide

def statementStarts : List Keyword := [.WITH, .SELECT, .INSERT, .UPDATE, .DELETE]

end Keyword

end SqlAtlas

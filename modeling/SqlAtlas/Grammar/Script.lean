import SqlAtlas.Grammar.Query

namespace SqlAtlas.Grammar

open Phrase

def tableReference : Phrase := .node .table tableName

/-- A parenthesis before a query belongs to the query, any other one to a list of columns. -/
def insertColumns : Phrase :=
  .ifElse (firstOf (Kind.queryStarts.map fun kind => .accept (.sight [.openParen, kind]))) .nothing
    (optional (eat .openParen) (.seq columnNameList (.need .closeParen)))

def insertSource : Phrase :=
  .ifElse (word .VALUES) (list (needParens expressionList))
    (.ifElse (eat .openParen) (.seq subquery (.need .closeParen))
      (.ifElse (anyBefore Kind.queryStarts) subquery .fail))

def insertStatement : Phrase :=
  .rule .insertStatement
    (all [needWord .INSERT, word .INTO, tableReference, insertColumns, insertSource])

def updateElem : Phrase :=
  .rule .updateElem (.ifElse fullColumnName (.seq (.need .equals) expression) .fail)

def updateStatement : Phrase :=
  .rule .updateStatement
    (all [needWord .UPDATE, tableReference, needWord .SET, list updateElem,
      optional (word .FROM) tableSources,
      optional (word .WHERE) expression])

def deleteStatement : Phrase :=
  .rule .deleteStatement
    (all [needWord .DELETE, word .FROM, tableReference,
      optional (word .WHERE) expression])

def starts? (word : Keyword) : Phrase := .accept (.sight [.keyword word])

def statement : Phrase :=
  .rule .statement
    (.ifElse (starts? .INSERT) (.node (.statement .insert) insertStatement)
      (.ifElse (starts? .UPDATE) (.node (.statement .update) updateStatement)
        (.ifElse (starts? .DELETE) (.node (.statement .delete) deleteStatement)
          (.node (.statement .select) selectStatement))))

def scriptItem : Phrase :=
  .ifElse (eat .semicolon) .nothing
    (.ifElse (anyBefore Kind.statementStarts) statement .stray)

def script : Phrase := .rule .file (.many scriptItem)

end SqlAtlas.Grammar

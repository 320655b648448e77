import SqlAtlas.Grammar.Expression

namespace SqlAtlas.Grammar

open Phrase

def columnNameList : Phrase := .rule .columnNameList (list (.need .identifier))

def columnAlias : Phrase :=
  .ifElse (word .AS)
    (.rule .columnAlias (.ifElse (anyOf [.identifier, .string]) .nothing (.need .identifier)))
    (.rule .columnAlias (anyOf [.identifier, .string]))

def tableAlias : Phrase :=
  .ifElse (word .AS)
    (.rule .tableAlias (.ifElse (eat .identifier) (.note .alias) (.need .identifier)))
    (.rule .tableAlias (optional (eat .identifier) (.note .alias)))

def namePart : Phrase :=
  .ifElse (eat .identifier) (.note .part) (.seq (.need .identifier) .nothing)

def dottedName : Nat → Phrase
  | 0 => namePart
  | more + 1 => optional namePart (optional (eat .dot) (dottedName more))

def tableName : Phrase := .rule .tableName (.rule .fullTableName (dottedName 3))

def derivedTable : Phrase :=
  .node .derived (all [.need .openParen, subquery, .need .closeParen, tableAlias])

def tableSourceItem : Phrase :=
  .rule .tableSourceItem
    (.ifElse (.accept (.before .openParen)) derivedTable (.node .table (.seq tableName tableAlias)))

def joinCondition : Phrase := optional (needWord .ON) expression

def crossJoin? : Phrase := .accept (.token (.keyword .CROSS) [.keyword .JOIN])

def joinType : Phrase :=
  .ifElse (word .INNER) .nothing
    (optional (anyOf [.keyword .LEFT, .keyword .RIGHT, .keyword .FULL]) (word .OUTER))

def joinPart : Phrase :=
  .rule .joinPart
    (.ifElse crossJoin? (.seq (needWord .JOIN) tableSourceItem)
      (.ifElse joinType (all [needWord .JOIN, tableSourceItem, joinCondition])
        (optional (word .JOIN) (.seq tableSourceItem joinCondition))))

def tableSource : Phrase := .rule .tableSource (.seq tableSourceItem (.many joinPart))

def tableSources : Phrase := .rule .tableSources (list tableSource)

def columnElem : Phrase :=
  .rule .columnElem
    (.ifElse (eat .star) .nothing
      (.ifElse (.accept (.run [.identifier, .dot, .star])) .nothing
        (.seq expression columnAlias)))

def selectList : Phrase := .rule .selectList (list columnElem)

def groupBy? : Phrase := .accept (.token (.keyword .GROUP) [.keyword .BY])

def groupByClause : Phrase := .rule .groupByClause (.seq (needWord .BY) expressionList)

def querySpecification : Phrase :=
  .rule .querySpecification
    (optional (needWord .SELECT)
      (all [anyOf [.keyword .ALL, .keyword .DISTINCT],
        optional (word .TOP) primary,
        selectList,
        optional (word .FROM) tableSources,
        optional (word .WHERE) expression,
        optional groupBy? groupByClause,
        optional (word .HAVING) expression]))

def setOperator : Phrase :=
  .ifElse (word .UNION) (word .ALL) (anyOf [.keyword .EXCEPT, .keyword .INTERSECT])

def queryExpression : Phrase :=
  .rule .queryExpression
    (.seq querySpecification (.many (optional setOperator querySpecification)))

def orderBy? : Phrase := .accept (.token (.keyword .ORDER) [.keyword .BY])

def orderByElem : Phrase :=
  .rule .orderByElem (.seq expression (anyOf [.keyword .ASC, .keyword .DESC]))

def orderByClause : Phrase := .rule .orderByClause (.seq (needWord .BY) (list orderByElem))

def withClause : Phrase := .rule .withClause (list (.nest .commonTable))

def selectStatement : Phrase :=
  .rule .selectStatement
    (all [optional (word .WITH) withClause, queryExpression, optional orderBy? orderByClause])

def commonTable : Phrase :=
  .node .commonTable
    (all [.need .identifier,
      optional (eat .openParen) (.seq columnNameList (.need .closeParen)),
      needWord .AS,
      needParens selectStatement])

def body : Nest → Phrase
  | .expression => disjunction
  | .subquery => .node .subquery selectStatement
  | .commonTable => commonTable

end SqlAtlas.Grammar

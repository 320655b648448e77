namespace SqlAtlas

inductive Rule where
  | file
  | statement
  | selectStatement
  | withClause
  | commonTableExpression
  | queryExpression
  | querySpecification
  | selectList
  | columnElem
  | columnAlias
  | tableSources
  | tableSource
  | tableSourceItem
  | tableName
  | fullTableName
  | tableAlias
  | joinPart
  | expression
  | fullColumnName
  | functionCall
  | caseExpression
  | subquery
  | groupByClause
  | orderByClause
  | orderByElem
  | insertStatement
  | updateStatement
  | updateElem
  | deleteStatement
  | columnNameList
  deriving DecidableEq, Repr

namespace Rule

def all : List Rule :=
  [.file, .statement, .selectStatement, .withClause, .commonTableExpression, .queryExpression,
   .querySpecification, .selectList, .columnElem, .columnAlias, .tableSources, .tableSource,
   .tableSourceItem, .tableName, .fullTableName, .tableAlias, .joinPart, .expression,
   .fullColumnName, .functionCall, .caseExpression, .subquery, .groupByClause, .orderByClause,
   .orderByElem, .insertStatement, .updateStatement, .updateElem, .deleteStatement,
   .columnNameList]

theorem mem_all (rule : Rule) : rule ∈ all := by
  cases rule <;> decide

def display : Rule → String
  | .file => "File"
  | .statement => "Statement"
  | .selectStatement => "SelectStatement"
  | .withClause => "WithClause"
  | .commonTableExpression => "CommonTableExpression"
  | .queryExpression => "QueryExpression"
  | .querySpecification => "QuerySpecification"
  | .selectList => "SelectList"
  | .columnElem => "ColumnElem"
  | .columnAlias => "ColumnAlias"
  | .tableSources => "TableSources"
  | .tableSource => "TableSource"
  | .tableSourceItem => "TableSourceItem"
  | .tableName => "TableName"
  | .fullTableName => "FullTableName"
  | .tableAlias => "TableAlias"
  | .joinPart => "JoinPart"
  | .expression => "Expression"
  | .fullColumnName => "FullColumnName"
  | .functionCall => "FunctionCall"
  | .caseExpression => "CaseExpression"
  | .subquery => "Subquery"
  | .groupByClause => "GroupByClause"
  | .orderByClause => "OrderByClause"
  | .orderByElem => "OrderByElem"
  | .insertStatement => "InsertStatement"
  | .updateStatement => "UpdateStatement"
  | .updateElem => "UpdateElem"
  | .deleteStatement => "DeleteStatement"
  | .columnNameList => "ColumnNameList"

def ofDisplay? (name : String) : Option Rule := all.find? (·.display == name)

theorem ofDisplay?_display (rule : Rule) : ofDisplay? rule.display = some rule := by
  cases rule <;> decide

def ofTables : List Rule := [.tableName, .fullTableName]

def ofColumns : List Rule := [.fullColumnName, .columnNameList]

end Rule

end SqlAtlas

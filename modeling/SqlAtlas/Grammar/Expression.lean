import SqlAtlas.Grammar.Phrase

namespace SqlAtlas.Grammar

open Phrase

def expression : Phrase := .nest .expression

def subquery : Phrase := .nest .subquery

def expressionList : Phrase := list expression

def queryOrList : Phrase := .ifElse (anyBefore Kind.queryStarts) subquery expressionList

def fullColumnName : Phrase :=
  .rule .fullColumnName
    (optional (eat .identifier) (.many (optional (eat .dot) (.need .identifier))))

def callArguments : Phrase :=
  .ifElse (eat .star) .nothing
    (.ifElse (.accept (.before .closeParen)) .nothing
      (.seq (word .DISTINCT) expressionList))

def functionCall : Phrase := .rule .functionCall (.seq callArguments (.need .closeParen))

def caseBranch : Phrase := all [expression, needWord .THEN, expression]

def caseExpression : Phrase :=
  .rule .caseExpression
    (all [.ifElse (.accept (.before (.keyword .WHEN)))
      (.seq (needWord .WHEN) caseBranch) expression, .many (optional (word .WHEN) caseBranch),
      optional (word .ELSE) expression,
      needWord .END])

def exists? : Phrase := .accept (.token (.keyword .EXISTS) [.openParen])

/-- A name before a parenthesis is a function; this is seen before any other choice is offered. -/
def primary : Phrase :=
  .ifElse (.accept (.run [.identifier, .openParen])) functionCall
    (.ifElse fullColumnName .nothing
      (.ifElse (anyOf [.number, .string, .keyword .NULL]) .nothing
        (.ifElse (word .CASE) caseExpression
          (.ifElse exists? (needParens subquery)
            (.ifElse (eat .openParen) (.seq queryOrList (.need .closeParen)) .fail)))))

def unary : Phrase := .seq (.many (anyOf [.plus, .minus])) primary

def multiplicative : Phrase := separated [.star, .slash, .percent] unary

def additive : Phrase := separated [.plus, .minus] multiplicative

def setTest (otherwise : Phrase) : Phrase :=
  .ifElse (word .IN) (needParens queryOrList)
    (.ifElse (word .LIKE) additive
      (.ifElse (word .BETWEEN) (all [additive, needWord .AND, additive]) otherwise))

def nullTest : Phrase := .seq (word .NOT) (needWord .NULL)

def predicate : Phrase :=
  .seq additive
    (.ifElse (anyOf Kind.comparisons) additive
      (.ifElse (word .IS) nullTest
        (.ifElse (word .NOT) (setTest .fail) (setTest .nothing))))

def negation : Phrase := .seq (.many (word .NOT)) predicate

def conjunction : Phrase := separated [.keyword .AND] negation

def disjunction : Phrase := separated [.keyword .OR] conjunction

end SqlAtlas.Grammar

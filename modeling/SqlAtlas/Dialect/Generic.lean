import SqlAtlas.Dialect.Basic
import SqlAtlas.Source

namespace SqlAtlas.Dialect

def generic : Dialect Kind Rule where
  lex := SqlAtlas.lex
  parse := SqlAtlas.parse
  name := "generic"
  display := Kind.display
  tableRules := Rule.ofTables
  columnRules := Rule.ofColumns
  ignored := [.dot, .identifier, .openParen, .closeParen, .string, .number]
  collect request := SqlAtlas.collect request.tokens
    ⟨request.caret, request.preferred, request.ignored⟩

end SqlAtlas.Dialect

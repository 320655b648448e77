import SqlAtlas.Node
import SqlAtlas.Token

namespace SqlAtlas

abbrev Tree := Node String Span

structure Parsing where
  trees : List Tree
  faults : List Fault
  deriving Repr

end SqlAtlas

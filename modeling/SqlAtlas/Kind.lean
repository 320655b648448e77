import SqlAtlas.Keyword

namespace SqlAtlas

inductive Kind where
  | identifier
  | keyword (word : Keyword)
  | string
  | number
  | comma
  | dot
  | openParen
  | closeParen
  | semicolon
  | star
  | plus
  | minus
  | slash
  | percent
  | equals
  | notEquals
  | less
  | lessEquals
  | greater
  | greaterEquals
  | eof
  deriving DecidableEq, Repr, Inhabited

namespace Kind

def display : Kind → String
  | .identifier => "ID"
  | .keyword word => word.spelling
  | .string => "STRING"
  | .number => "DECIMAL"
  | .comma => "','"
  | .dot => "'.'"
  | .openParen => "'('"
  | .closeParen => "')'"
  | .semicolon => "';'"
  | .star => "'*'"
  | .plus => "'+'"
  | .minus => "'-'"
  | .slash => "'/'"
  | .percent => "'%'"
  | .equals => "'='"
  | .notEquals => "'<>'"
  | .less => "'<'"
  | .lessEquals => "'<='"
  | .greater => "'>'"
  | .greaterEquals => "'>='"
  | .eof => "<EOF>"

def all : List Kind :=
  [.identifier] ++ Keyword.all.map .keyword ++
    [.string, .number, .comma, .dot, .openParen, .closeParen, .semicolon, .star, .plus, .minus,
     .slash, .percent, .equals, .notEquals, .less, .lessEquals, .greater, .greaterEquals, .eof]

theorem mem_all (kind : Kind) : kind ∈ all := by
  cases kind with
  | keyword word => cases word <;> decide
  | _ => decide

def ofDisplay? (name : String) : Option Kind :=
  all.find? (·.display == name)

theorem ofDisplay?_display (kind : Kind) : ofDisplay? kind.display = some kind := by
  cases kind with
  | keyword word => cases word <;> decide
  | _ => decide

def isIdentifier (kind : Kind) : Bool := kind == .identifier

def isPunctuation (kind : Kind) : Bool :=
  [comma, dot, openParen, closeParen, semicolon].contains kind

def isKeyword (kind : Kind) (word : Keyword) : Bool := kind == .keyword word

def comparisons : List Kind := [.equals, .notEquals, .less, .lessEquals, .greater, .greaterEquals]

def queryStarts : List Kind := [.keyword .SELECT, .keyword .WITH]

def statementStarts : List Kind := Keyword.statementStarts.map .keyword

end Kind

end SqlAtlas

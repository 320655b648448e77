namespace SqlAtlas.Identifier

def collapse : List Char → List Char
  | '"' :: '"' :: cs => '"' :: collapse cs
  | c :: cs => c :: collapse cs
  | [] => []

def dropClose (close : Char) (cs : List Char) : List Char :=
  if cs.getLast? = some close then cs.dropLast else cs

def nameOf : List Char → List Char
  | '[' :: cs => dropClose ']' cs
  | '"' :: cs => collapse (dropClose '"' cs)
  | cs => cs

def unquote (text : String) : String := String.ofList (nameOf text.toList)

end SqlAtlas.Identifier

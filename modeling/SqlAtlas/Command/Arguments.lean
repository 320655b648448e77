namespace SqlAtlas

inductive Command where
  | survey (file? : Option String)
  | complete (file? : Option String) (offset? : Option Nat)
  | version
  deriving DecidableEq, Repr

namespace Command

def file? : Command → Option String
  | .survey file? | .complete file? _ => file?
  | .version => none

def word : Nat := Nat.pow 2 64

def digits? : List Char → Option Nat
  | [] => none
  | c :: cs =>
      if (c :: cs).all Char.isDigit then
        some ((c :: cs).foldl (fun value d => 10 * value + (d.toNat - '0'.toNat)) 0)
      else none

def number? (text : List Char) : Option Nat :=
  (digits? (if text.head? = some '+' then text.tail else text)).filter (· < word)

structure Given where
  file? : Option String
  offset? : Option Nat
  deriving DecidableEq, Repr

namespace Given

def none : Given := ⟨.none, .none⟩

def withFile? (file : String) (given : Given) : Option Given :=
  if file = "" ∨ given.file?.isSome then .none else some { given with file? := some file }

def withOffset? (text : List Char) (given : Given) : Option Given :=
  if given.offset?.isSome then .none
  else (number? text).map fun offset => { given with offset? := some offset }

def withFiles? (given : Given) : List String → Option Given
  | [] => some given
  | file :: files => (given.withFile? file).bind (·.withFiles? files)

end Given

inductive Argument where
  | file (name : String)
  | offset (text : List Char)
  | offsetNext
  | noMoreOptions
  | unknown
  deriving DecidableEq, Repr

namespace Argument

def attached : List Char → List Char
  | '=' :: value => value
  | value => value

def ofText (text : String) : Argument :=
  match text.toList with
  | ['-', '-'] => .noMoreOptions
  | ['-', '-', 'a', 't'] | ['-', 'a'] => .offsetNext
  | '-' :: '-' :: 'a' :: 't' :: '=' :: value => .offset value
  | '-' :: '-' :: _ => .unknown
  | '-' :: 'a' :: value => .offset (attached value)
  | ['-'] => .file text
  | '-' :: _ => .unknown
  | _ => .file text

end Argument

def given? (takesOffset : Bool) (given : Given) : List String → Option Given
  | [] => some given
  | text :: texts =>
      match Argument.ofText text with
      | .file name => (given.withFile? name).bind fun given => given? takesOffset given texts
      | .noMoreOptions => given.withFiles? texts
      | .offset value =>
          if takesOffset then
            (given.withOffset? value).bind fun given => given? takesOffset given texts
          else none
      | .offsetNext =>
          match takesOffset, texts with
          | true, value :: texts =>
              (given.withOffset? value.toList).bind fun given => given? takesOffset given texts
          | _, _ => none
      | .unknown => none

def ofArguments? : List String → Option Command
  | [] => none
  | "survey" :: texts => (given? false Given.none texts).map fun given => .survey given.file?
  | "complete" :: texts =>
      (given? true Given.none texts).map fun given => .complete given.file? given.offset?
  | text :: _ =>
      if text = "--version" ∨ text.toList.take 2 = ['-', 'V'] then some .version else none

end Command

end SqlAtlas

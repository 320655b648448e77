import SqlAtlas.Token
import SqlAtlas.Word

namespace SqlAtlas

structure Caret where
  typed : String
  token : Nat
  deriving DecidableEq, Repr

namespace Caret

variable {κ : Type}

def visible (offset : Nat) (script : String) : String :=
  String.ofList (Text.covering (offset + 1) script.toList)

def lastIdx? (p : Word → Bool) (words : List Word) : Option Nat :=
  (words.reverse.findIdx? p).map (words.length - 1 - ·)

/-- The word that an offset belongs to: the one before the first word that starts after it. With no
such word, the end after a script that ends blank, and the last word otherwise. -/
def wordIndex? (words : List Word) (script : String) (offset : Nat) : Option Nat :=
  match words.findIdx? fun word => !word.isFinish && offset < word.start with
  | some 0 => none
  | some (index + 1) => some index
  | none =>
      if Text.endsBlank script.toList then words.findIdx? Word.isFinish
      else lastIdx? (!·.isFinish) words

def typedOf (word : Word) (script : String) (offset : Nat) : String :=
  if word.isFinish || offset == 0 then ""
  else Span.text ⟨word.line, word.line, word.start, min word.stop (offset - 1)⟩ script

def isPast (word : Word) (script : String) (offset : Nat) : Bool :=
  !word.isFinish && word.stop + 1 < offset &&
    (Text.slice? (word.stop + 1) offset script).any (Text.allBlank ·.toList)

def tokenFrom (tokens : List (Token κ)) (offset : Nat) : Nat :=
  (tokens.findIdx? (offset ≤ ·.start)).getD (tokens.length - 1)

def tokenOf (tokens : List (Token κ)) (word : Word) : Nat :=
  if word.isFinish then tokens.length - 1 else tokenFrom tokens word.start

def ofWord (tokens : List (Token κ)) (script : String) (offset : Nat) (word : Word) : Caret :=
  if isPast word script offset then ⟨"", tokenFrom tokens offset⟩
  else ⟨typedOf word script offset, tokenOf tokens word⟩

def place? (tokens : List (Token κ)) (script : String) (offset : Nat) : Option Caret :=
  let words := Word.split script
  ((wordIndex? words script offset).bind (words[·]?)).map (ofWord tokens script offset)

end Caret

end SqlAtlas

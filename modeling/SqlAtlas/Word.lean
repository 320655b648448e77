import SqlAtlas.Text.Blank
import SqlAtlas.Span

namespace SqlAtlas

inductive WordKind where
  | run
  | terminator
  | finish
  deriving DecidableEq, Repr

/-- Offsets are inclusive; the end starts and stops just past the last byte. -/
structure Word where
  kind : WordKind
  start : Nat
  stop : Nat
  line : Nat
  deriving DecidableEq, Repr

namespace Word

def isFinish (word : Word) : Bool := word.kind == .finish

def span (word : Word) : Span := ⟨word.line, word.line, word.start, word.stop⟩

def text (word : Word) (script : String) : String := word.span.text script

def quotedAfter (previous : Option Char) (quoted : Bool) (c : Char) : Bool :=
  if c = '\'' ∧ previous ≠ some '\\' then !quoted else quoted

def inWord (quoted : Bool) (c : Char) : Bool := quoted || !(Text.isBlank c || c == ';')

structure Place where
  previous : Option Char
  quoted : Bool
  offset : Nat
  line : Nat
  deriving DecidableEq, Repr

namespace Place

def begin : Place := ⟨none, false, 0, 1⟩

def quotedBy (place : Place) (c : Char) : Bool := quotedAfter place.previous place.quoted c

def pass (place : Place) (c : Char) : Place :=
  ⟨some c, place.quotedBy c, place.offset + c.utf8Size, place.line + Text.lineFeeds [c]⟩

/-- Reads on to the end of the word under way, if there is one, whose offset and line are given, or
else of the next one. Gives the word, and where and before what the search stands then. The
character that ends a word is looked at again later. -/
def seek (place : Place) (open? : Option (Nat × Nat)) : List Char → Word × Place × List Char
  | [] =>
      match open? with
      | some (start, line) => (⟨.run, start, place.offset - 1, line⟩, place, [])
      | none => (⟨.finish, place.offset, place.offset, place.line⟩, place, [])
  | c :: cs =>
      if inWord (place.quotedBy c) c then
        (place.pass c).seek (open?.or (some (place.offset, place.line))) cs
      else
        match open? with
        | some (start, line) =>
            (⟨.run, start, place.offset - 1, line⟩,
              { place with quoted := place.quotedBy c }, c :: cs)
        | none =>
            if c = ';' then (⟨.terminator, place.offset, place.offset, place.line⟩,
              place.pass c, cs)
            else (place.pass c).seek none cs

end Place

structure Supply where
  script : String
  place : Place
  unread : List Char
  finished : Bool
  deriving DecidableEq, Repr

namespace Supply

def ofScript (script : String) : Supply := ⟨script, .begin, script.toList, false⟩

def next (supply : Supply) : Option Word × Supply :=
  if supply.finished then (none, supply)
  else
    match supply.place.seek none supply.unread with
    | (word, place, unread) => (some word, ⟨supply.script, place, unread, word.isFinish⟩)

def take : Nat → Supply → List Word × Supply
  | 0, supply => ([], supply)
  | count + 1, supply =>
      match supply.next with
      | (none, supply) => ([], supply)
      | (some word, supply) =>
          let taken := take count supply
          (word :: taken.1, taken.2)

/-- All words that are left. Every word but the end has a character of its own. -/
def rest (supply : Supply) : List Word × Supply := supply.take (supply.unread.length + 1)

def rewind (supply : Supply) : Supply := ofScript supply.script

end Supply

def split (script : String) : List Word := (Supply.ofScript script).rest.1

end Word

end SqlAtlas

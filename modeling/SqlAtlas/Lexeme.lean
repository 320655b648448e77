import SqlAtlas.Text.Bytes
import SqlAtlas.Token

namespace SqlAtlas

/-- What a lexeme looks like. `closed` is false when the script ends before the closing mark. -/
inductive Form where
  | layout
  | lineComment
  | blockComment (closed : Bool)
  | string (closed : Bool)
  | quotedName (closed : Bool)
  | number
  | word
  | symbol (kind : Kind)
  | unknown
  deriving DecidableEq, Repr

structure Lexeme where
  form : Form
  text : List Char
  deriving DecidableEq, Repr

namespace Lexeme

def isLayout (c : Char) : Bool :=
  c == ' ' || c == '\t' || c == '\n' || c == '\x0c' || c == '\r'

def isWordStart (c : Char) : Bool := c.isAlpha || c == '_' || c == '@' || c == '#'

def isWordPart (c : Char) : Bool := c.isAlphanum || c == '_' || c == '@' || c == '#' || c == '$'

def throughMark? (close : Char) (cs : List Char) : Option Nat :=
  (cs.findIdx? (· == close)).map (· + 1)

def throughComment? (count : Nat) : List Char → Option Nat
  | [] => none
  | '*' :: '/' :: _ => some (count + 2)
  | _ :: cs => throughComment? (count + 1) cs

def throughString? (count : Nat) : List Char → Option Nat
  | [] => none
  | '\'' :: '\'' :: cs => throughString? (count + 2) cs
  | '\'' :: _ => some (count + 1)
  | _ :: cs => throughString? (count + 1) cs

def delimited (form : Bool → Form) (reach : Option Nat) (cs : List Char) : Form × Nat :=
  match reach with
  | some n => (form true, n)
  | none => (form false, cs.length)

def fractionLength : List Char → Nat
  | '.' :: d :: cs => if d.isDigit then 2 + (cs.takeWhile (·.isDigit)).length else 0
  | _ => 0

def numberLength (cs : List Char) : Nat :=
  (cs.takeWhile (·.isDigit)).length + fractionLength (cs.dropWhile (·.isDigit))

def symbol? : Char → List Char → Option (Kind × Nat)
  | '<', '>' :: _ => some (.notEquals, 1)
  | '!', '=' :: _ => some (.notEquals, 1)
  | '<', '=' :: _ => some (.lessEquals, 1)
  | '>', '=' :: _ => some (.greaterEquals, 1)
  | '<', _ => some (.less, 0)
  | '>', _ => some (.greater, 0)
  | '=', _ => some (.equals, 0)
  | ',', _ => some (.comma, 0)
  | '.', _ => some (.dot, 0)
  | '(', _ => some (.openParen, 0)
  | ')', _ => some (.closeParen, 0)
  | ';', _ => some (.semicolon, 0)
  | '*', _ => some (.star, 0)
  | '+', _ => some (.plus, 0)
  | '-', _ => some (.minus, 0)
  | '/', _ => some (.slash, 0)
  | '%', _ => some (.percent, 0)
  | _, _ => none

/-- The form of the lexeme that begins with `c`, and how many of the following characters belong
to it. -/
def measure (c : Char) (cs : List Char) : Form × Nat :=
  if isLayout c then (.layout, 0)
  else if c = '-' ∧ cs.head? = some '-' then (.lineComment, (cs.takeWhile (· ≠ '\n')).length)
  else if c = '/' ∧ cs.head? = some '*' then
    delimited .blockComment (throughComment? 1 cs.tail) cs
  else if c = '\'' then delimited .string (throughString? 0 cs) cs
  else if (c = 'N' ∨ c = 'n') ∧ cs.head? = some '\'' then
    delimited .string (throughString? 1 cs.tail) cs
  else if c = '[' then delimited .quotedName (throughMark? ']' cs) cs
  else if c = '"' then delimited .quotedName (throughMark? '"' cs) cs
  else if c.isDigit then (.number, numberLength cs)
  else if isWordStart c then (.word, (cs.takeWhile isWordPart).length)
  else
    match symbol? c cs with
    | some (kind, more) => (.symbol kind, more)
    | none => (.unknown, 0)

def first (c : Char) (cs : List Char) : Lexeme := ⟨(measure c cs).1, c :: cs.take (measure c cs).2⟩

def rest (c : Char) (cs : List Char) : List Char := cs.drop (measure c cs).2

theorem first_append_rest (c : Char) (cs : List Char) :
    (first c cs).text ++ rest c cs = c :: cs := by
  simp [first, rest]

theorem length_rest_le (c : Char) (cs : List Char) : (rest c cs).length ≤ cs.length := by
  simp [rest]

def cutOnto (done : List Lexeme) : List Char → List Lexeme
  | [] => done.reverse
  | c :: cs => cutOnto (first c cs :: done) (rest c cs)
termination_by cs => cs.length
decreasing_by exact Nat.lt_succ_of_le (length_rest_le c cs)

def cut (cs : List Char) : List Lexeme := cutOnto [] cs

theorem cutOnto_eq_append (done : List Lexeme) (cs : List Char) :
    cutOnto done cs = done.reverse ++ cut cs := by
  unfold cut
  induction h : cs.length using Nat.strongRecOn generalizing done cs with
  | ind n ih =>
      cases cs with
      | nil => simp [cutOnto]
      | cons c cs =>
          have hlt : (rest c cs).length < n := by
            rw [← h]
            exact Nat.lt_succ_of_le (length_rest_le c cs)
          rw [cutOnto, cutOnto, ih _ hlt _ _ rfl, ih _ hlt [first c cs] _ rfl]
          simp

@[simp] theorem cut_nil : cut [] = [] := by
  simp [cut, cutOnto]

theorem cut_cons (c : Char) (cs : List Char) : cut (c :: cs) = first c cs :: cut (rest c cs) := by
  rw [cut, cutOnto, cutOnto_eq_append]
  rfl

theorem cut_induction {motive : List Char → Prop} (nil : motive [])
    (cons : ∀ c cs, motive (rest c cs) → motive (c :: cs)) (cs : List Char) : motive cs := by
  induction h : cs.length using Nat.strongRecOn generalizing cs with
  | ind n ih =>
      cases cs with
      | nil => exact nil
      | cons c cs =>
          refine cons c cs (ih _ ?_ _ rfl)
          rw [← h]
          exact Nat.lt_succ_of_le (length_rest_le c cs)

theorem flatten_cut (cs : List Char) : ((cut cs).map text).flatten = cs := by
  induction cs using cut_induction with
  | nil => simp
  | cons c cs ih => rw [cut_cons, List.map_cons, List.flatten_cons, ih, first_append_rest]

theorem text_ne_nil_of_mem_cut {cs : List Char} {lexeme : Lexeme} (h : lexeme ∈ cut cs) :
    lexeme.text ≠ [] := by
  induction cs using cut_induction with
  | nil => simp at h
  | cons c cs ih =>
      rw [cut_cons] at h
      rcases List.mem_cons.mp h with rfl | h
      · simp [first]
      · exact ih h

def wordKind (text : List Char) : Kind :=
  match Keyword.ofSpelling? (String.ofList (text.map Char.toUpper)) with
  | some word => .keyword word
  | none => .identifier

def kind? (lexeme : Lexeme) : Option Kind :=
  match lexeme.form with
  | .string _ => some .string
  | .quotedName _ => some .identifier
  | .number => some .number
  | .word => some (wordKind lexeme.text)
  | .symbol kind => some kind
  | .layout | .lineComment | .blockComment _ | .unknown => none

end Lexeme

inductive Flaw where
  | openComment
  | openString
  | openName
  | unknown (text : List Char)
  deriving DecidableEq, Repr

def Flaw.message : Flaw → String
  | .openComment => "unterminated block comment"
  | .openString => "unterminated string literal"
  | .openName => "unterminated quoted identifier"
  | .unknown text => s!"token recognition error at: '{String.ofList text}'"

namespace Lexeme

def flaw? (lexeme : Lexeme) : Option Flaw :=
  match lexeme.form with
  | .blockComment false => some .openComment
  | .string false => some .openString
  | .quotedName false => some .openName
  | .unknown => some (.unknown lexeme.text)
  | _ => none

def spanAt (line offset : Nat) (lexeme : Lexeme) : Span :=
  ⟨line, line + Text.lineFeeds lexeme.text, offset, offset + Text.bytes lexeme.text - 1⟩

def locateOnto (done : List (Lexeme × Span)) (line offset : Nat) :
    List Lexeme → List (Lexeme × Span)
  | [] => done.reverse
  | lexeme :: lexemes =>
      locateOnto ((lexeme, lexeme.spanAt line offset) :: done) (line + Text.lineFeeds lexeme.text)
        (offset + Text.bytes lexeme.text) lexemes

def locate (line offset : Nat) (lexemes : List Lexeme) : List (Lexeme × Span) :=
  locateOnto [] line offset lexemes

theorem locateOnto_eq_append (done : List (Lexeme × Span)) (line offset : Nat)
    (lexemes : List Lexeme) :
    locateOnto done line offset lexemes = done.reverse ++ locate line offset lexemes := by
  unfold locate
  induction lexemes generalizing done line offset with
  | nil => simp [locateOnto]
  | cons lexeme lexemes ih =>
      rw [locateOnto, locateOnto, ih, ih [_]]
      simp

@[simp] theorem locate_nil (line offset : Nat) : locate line offset [] = [] := rfl

@[simp] theorem locate_cons (line offset : Nat) (lexeme : Lexeme) (lexemes : List Lexeme) :
    locate line offset (lexeme :: lexemes) =
      (lexeme, lexeme.spanAt line offset) ::
        locate (line + Text.lineFeeds lexeme.text) (offset + Text.bytes lexeme.text) lexemes := by
  rw [locate, locateOnto, locateOnto_eq_append]
  rfl

def token? (located : Lexeme × Span) : Option (Token Kind) :=
  located.1.kind?.map (⟨·, located.2⟩)

def fault? (located : Lexeme × Span) : Option Fault :=
  located.1.flaw?.map fun flaw => ⟨.lexical, located.2, flaw.message⟩

end Lexeme

def endToken (script : List Char) : Token Kind :=
  ⟨.eof, 1 + Text.lineFeeds script, 1 + Text.lineFeeds script, Text.bytes script, Text.bytes script⟩

def lex (script : String) : Lexing Kind :=
  let located := Lexeme.locate 1 0 (Lexeme.cut script.toList)
  ⟨located.filterMap Lexeme.token? ++ [endToken script.toList], located.filterMap Lexeme.fault?⟩

end SqlAtlas

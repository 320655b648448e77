import SqlAtlas.Candidates
import SqlAtlas.Grammar.Script

namespace SqlAtlas

/-- A caret before a token. What the preferred rules cover is offered as the rule, and ignored kinds
are not offered. -/
structure Watch where
  caret : Nat
  preferred : List Rule
  ignored : List Kind
  deriving DecidableEq, Repr

/-- The kinds to read, ending in `eof`, and the caret if there is one. -/
structure Input where
  kinds : Array Kind
  watch? : Option Watch
  deriving DecidableEq, Repr

inductive Cause where
  | missing (kind : Kind)
  | extraneous (kind : Kind)
  | noAlternative
  | stray
  | tooDeep
  deriving DecidableEq, Repr

structure Complaint where
  cause : Cause
  index : Nat
  deriving DecidableEq, Repr

structure Frame where
  start : Nat
  children : List Outline
  parts : List Nat
  alias? : Option Nat
  deriving Repr

def Frame.construct (frame : Frame) : Shape → Construct Nat
  | .statement type => .statement type
  | .subquery => .subquery
  | .commonTable => .commonTable
  | .table => .table frame.parts frame.alias?
  | .derived => .derived frame.alias?

/-- How far the reading of an input has come. Rules and frames are listed from the innermost out;
`nesting` counts the active rules that the grammar comes back to and `deepest` is its highest value
so far. Once halted, nothing more is read, reported or offered. -/
structure Reading where
  pos : Nat
  last? : Option Nat
  rules : List Rule
  nesting : Nat
  deepest : Nat
  frames : List Frame
  roots : List Outline
  complaints : List Complaint
  candidates : Candidates Kind Rule
  halted : Bool
  deriving Repr

namespace Reading

def begin : Reading := ⟨0, none, [], 0, 0, [], [], [], .empty, false⟩

section Tokens

variable (input : Input)

def atCaret (reading : Reading) : Bool := input.watch?.any fun watch => watch.caret ≤ reading.pos

def peek (reading : Reading) (ahead : Nat) : Kind :=
  if reading.halted || input.watch?.any (fun watch => watch.caret ≤ reading.pos + ahead) then .eof
  else (input.kinds[reading.pos + ahead]?).getD .eof

def sees (reading : Reading) : Nat → List Kind → Bool
  | _, [] => true
  | ahead, kind :: kinds => reading.peek input ahead == kind && reading.sees (ahead + 1) kinds

def bump (reading : Reading) : Reading :=
  if reading.pos + 1 < input.kinds.size then
    { reading with pos := reading.pos + 1, last? := some reading.pos }
  else reading

def bumps : Nat → Reading → Reading
  | 0, reading => reading
  | n + 1, reading => bumps n (reading.bump input)

end Tokens

def halt (reading : Reading) : Reading := { reading with halted := true }

def complain (cause : Cause) (reading : Reading) : Reading :=
  { reading with complaints := reading.complaints ++ [⟨cause, reading.pos⟩] }

def preferredRule? (watch : Watch) (reading : Reading) : Option Rule :=
  reading.rules.reverse.find? (· ∈ watch.preferred)

def offerTo (watch : Watch) (kind : Kind) (follow : List Kind) (reading : Reading) : Reading :=
  match reading.preferredRule? watch with
  | some rule => { reading with candidates := reading.candidates.addRule rule }
  | none =>
      if kind ∈ watch.ignored then reading
      else { reading with candidates := reading.candidates.addToken kind follow }

def offer (input : Input) (offer? : Option (Kind × List Kind)) (reading : Reading) : Reading :=
  match input.watch?, offer? with
  | some watch, some (kind, follow) => reading.offerTo watch kind follow
  | _, _ => reading

section Tests

variable (input : Input)

def accept (guard : Guard) (reading : Reading) : Bool × Reading :=
  if reading.halted then (false, reading)
  else if reading.atCaret input then (false, reading.offer input guard.offer?)
  else if reading.sees input 0 guard.kinds then (true, reading.bumps input guard.width)
  else (false, reading)

def stuck (cause : Cause) (reading : Reading) : Reading :=
  if reading.halted then reading
  else if reading.atCaret input then reading.halt
  else reading.complain cause

def need (kind : Kind) (reading : Reading) : Bool × Reading :=
  match reading.accept input (.token kind []) with
  | (true, reading) => (true, reading)
  | (false, reading) =>
      if reading.peek input 0 ≠ .eof ∧ reading.peek input 1 = kind then
        (true, (reading.complain (.extraneous kind)).bumps input 2)
      else (false, reading.stuck input (.missing kind))

def atBoundary (reading : Reading) : Bool :=
  let kind := reading.peek input 0
  kind == .eof || kind == .semicolon || Kind.statementStarts.contains kind

def skipToBoundary : Nat → Reading → Reading
  | 0, reading => reading
  | rounds + 1, reading =>
      if reading.atBoundary input then reading else skipToBoundary rounds (reading.bump input)

def stray (reading : Reading) : Bool × Reading :=
  if reading.peek input 0 = .eof then (false, reading)
  else (true, ((reading.complain .stray).bump input).skipToBoundary input input.kinds.size)

/-- Takes turns until one is not taken. Every turn reads a token, so the input's size bounds them.
-/
def turns (step : Reading → Bool × Reading) : Nat → Reading → Reading
  | 0, reading => reading
  | rounds + 1, reading =>
      match step reading with
      | (true, reading) => turns step rounds reading
      | (false, reading) => reading

end Tests

section Structure

def enter (rule : Rule) (reading : Reading) : Reading :=
  { reading with rules := rule :: reading.rules }

def leave (reading : Reading) : Reading := { reading with rules := reading.rules.tail }

def descend (nest : Nest) (reading : Reading) : Reading :=
  { reading with
    rules := nest.rule :: reading.rules
    nesting := reading.nesting + 1
    deepest := max reading.deepest (reading.nesting + 1) }

def ascend (reading : Reading) : Reading :=
  { reading with rules := reading.rules.tail, nesting := reading.nesting - 1 }

def tooDeep (reading : Reading) : Reading :=
  if reading.halted then reading else (reading.complain .tooDeep).halt

def openFrame (reading : Reading) : Reading :=
  { reading with frames := ⟨reading.pos, [], [], none⟩ :: reading.frames }

def attach (nodes : List Outline) (reading : Reading) : Reading :=
  match reading.frames with
  | [] => { reading with roots := reading.roots ++ nodes }
  | frame :: frames =>
      { reading with frames := { frame with children := frame.children ++ nodes } :: frames }

def finished (shape : Shape) (frame : Frame) (last? : Option Nat) : List Outline :=
  match last?.filter (frame.start ≤ ·) with
  | some last => [.node (frame.construct shape) ⟨frame.start, last⟩ frame.children]
  | none => frame.children

def closeFrame (shape : Shape) (reading : Reading) : Reading :=
  match reading.frames with
  | [] => reading
  | frame :: frames =>
      { reading with frames := frames }.attach (finished shape frame reading.last?)

def mark (note : Note) (reading : Reading) : Reading :=
  match reading.frames, reading.last? with
  | frame :: frames, some last =>
      match note with
      | .part => { reading with frames := { frame with parts := frame.parts ++ [last] } :: frames }
      | .alias => { reading with frames := { frame with alias? := some last } :: frames }
  | _, _ => reading

end Structure

end Reading

/-- Reads a phrase. `deeper` reads the rules that the grammar comes back to. -/
def Phrase.read (input : Input) (deeper : Nest → Reading → Reading) :
    Phrase → Reading → Bool × Reading
  | .nothing, reading => (false, reading)
  | .accept guard, reading => reading.accept input guard
  | .need kind, reading => reading.need input kind
  | .fail, reading => (false, reading.stuck input .noAlternative)
  | .stray, reading => reading.stray input
  | .note role, reading => (false, reading.mark role)
  | .seq first second, reading => second.read input deeper (first.read input deeper reading).2
  | .ifElse test yes no, reading =>
      match test.read input deeper reading with
      | (true, reading) => (true, (yes.read input deeper reading).2)
      | (false, reading) => no.read input deeper reading
  | .many body, reading =>
      (false, Reading.turns (body.read input deeper) input.kinds.size reading)
  | .rule name body, reading =>
      let result := body.read input deeper (reading.enter name)
      (result.1, result.2.leave)
  | .node shape body, reading =>
      let result := body.read input deeper reading.openFrame
      (result.1, result.2.closeFrame shape)
  | .nest again, reading => (false, deeper again reading)

def Nest.read (input : Input) : Nat → Nest → Reading → Reading
  | 0, nest, reading => (reading.tooDeep.descend nest).ascend
  | levels + 1, nest, reading =>
      ((Grammar.body nest).read input (Nest.read input levels) (reading.descend nest)).2.ascend

def nestingLimit : Nat := 200

def Input.read (input : Input) : Reading :=
  if input.kinds.isEmpty then Reading.begin
  else (Grammar.script.read input (Nest.read input nestingLimit) Reading.begin).2

end SqlAtlas

import SqlAtlas.Command.Arguments
import SqlAtlas.Completion
import SqlAtlas.Listing

namespace SqlAtlas

inductive ReadFault where
  | notFound
  | denied
  | directory
  | notText
  deriving DecidableEq, Repr

inductive Failure where
  | settings
  | unreadable (fault : ReadFault)
  | tooLarge (size limit : Nat)
  deriving DecidableEq, Repr

namespace ReadFault

def describe : ReadFault → String
  | .notFound => "Os \x7b code: 2, kind: NotFound, message: \"No such file or directory\" \x7d"
  | .denied => "Os \x7b code: 13, kind: PermissionDenied, message: \"Permission denied\" \x7d"
  | .directory => "Os \x7b code: 21, kind: IsADirectory, message: \"Is a directory\" \x7d"
  | .notText => "Error \x7b kind: InvalidData, message: \"stream did not contain valid UTF-8\" \x7d"

end ReadFault

namespace Failure

def message : Failure → String
  | .settings => "Configuration error: the script size limit is not a number"
  | .unreadable fault => s!"I/O error: {fault.describe}"
  | .tooLarge size limit => s!"Script is {size} bytes, above the configured limit of {limit} bytes"

def report : Failure → String
  | .settings => "Error: Config\n"
  | .unreadable fault => s!"Error: Io({fault.describe})\n"
  | .tooLarge size limit => s!"Error: ScriptTooLarge \x7b size: {size}, limit: {limit} \x7d\n"

end Failure

def defaultLimit : Nat := 1048576

def limitOf (setting? : Option String) : Except Failure Nat :=
  match setting? with
  | none => .ok defaultLimit
  | some setting =>
      match Command.number? (Text.trim setting.toList) with
      | some limit => .ok limit
      | none => if setting = "" then .ok defaultLimit else .error .settings

def checkSize (limit : Nat) (script : String) : Except Failure Unit :=
  if limit < script.utf8ByteSize then .error (.tooLarge script.utf8ByteSize limit) else .ok ()

theorem checkSize_eq_ok_iff {limit : Nat} {script : String} :
    checkSize limit script = .ok () ↔ script.utf8ByteSize ≤ limit := by
  by_cases h : limit < script.utf8ByteSize
  · simp [checkSize, h]
  · simpa [checkSize, h] using Nat.le_of_not_lt h

structure Outcome where
  code : Nat
  output : String
  failure? : Option Failure
  deriving DecidableEq, Repr

namespace Command

def linesOf (lines : List String) : String := String.join (lines.map (· ++ "\n"))

def output (script : String) : Command → String
  | .survey _ => linesOf ((Dialect.generic.survey script).listing.map Line.text)
  | .complete _ offset? =>
      linesOf (((Dialect.generic.complete script offset?).getD []).map Suggestion.display)
  | .version => linesOf ["sqlsurveyor 0.1.0"]

def failed (failure : Failure) : Outcome := ⟨1, "", some failure⟩

structure Job where
  command : Command
  limit : Nat
  deriving DecidableEq, Repr

def prepare (arguments : List String) (setting? : Option String) : Except Outcome Job :=
  match ofArguments? arguments with
  | none => .error ⟨2, "", none⟩
  | some .version => .error ⟨0, output "" .version, none⟩
  | some command =>
      match limitOf setting? with
      | .error failure => .error (failed failure)
      | .ok limit => .ok ⟨command, limit⟩

def decode (bytes : ByteArray) : Except ReadFault String :=
  match String.fromUTF8? bytes with
  | some script => .ok script
  | none => .error .notText

def Job.finish (job : Job) (read : Except ReadFault ByteArray) : Outcome :=
  match read.bind decode with
  | .error fault => failed (.unreadable fault)
  | .ok script =>
      match checkSize job.limit script with
      | .error failure => failed failure
      | .ok () => ⟨0, job.command.output script, none⟩

def run (read : Option String → Except ReadFault ByteArray) (arguments : List String)
    (setting? : Option String) : Outcome :=
  match prepare arguments setting? with
  | .error outcome => outcome
  | .ok job => job.finish (read job.command.file?)

end Command

end SqlAtlas

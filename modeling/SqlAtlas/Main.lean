import SqlAtlas.Command.Run

namespace SqlAtlas.Main

partial def readAll (stream : IO.FS.Stream) (done : ByteArray) : IO ByteArray := do
  let chunk ← stream.read 65536
  if chunk.isEmpty then return done
  readAll stream (done ++ chunk)

def faultOf : IO.Error → ReadFault
  | .permissionDenied .. => .denied
  | .inappropriateType .. => .directory
  | _ => .notFound

def readScript : Option String → IO (Except ReadFault ByteArray)
  | none => do return .ok (← readAll (← IO.getStdin) ByteArray.empty)
  | some file => do
      try return .ok (← IO.FS.readBinFile file)
      catch error => return .error (faultOf error)

def finish (outcome : Outcome) : IO UInt32 := do
  (← IO.getStdout).putStr outcome.output
  match outcome.failure? with
  | some failure => (← IO.getStderr).putStr failure.report
  | none => pure ()
  return outcome.code.toUInt32

end SqlAtlas.Main

def main (arguments : List String) : IO UInt32 := do
  let setting? ← IO.getEnv "SQLSURVEYOR_MAX_SCRIPT_BYTES"
  match SqlAtlas.Command.prepare arguments setting? with
  | .error outcome => SqlAtlas.Main.finish outcome
  | .ok job => do
      let read ← SqlAtlas.Main.readScript job.command.file?
      SqlAtlas.Main.finish (job.finish read)

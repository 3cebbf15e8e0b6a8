import StackAssembler.Command.Job

set_option autoImplicit false
set_option relaxedAutoImplicit false

namespace StackAssembler.Main

open Command

/-- Seconds and thousandths, the seconds to the right of four columns. -/
def stamp (milliseconds : Nat) : String :=
  let seconds := toString (milliseconds / 1000)
  let rest := toString (milliseconds % 1000)
  let blanks := String.ofList (List.replicate (4 - seconds.length) ' ')
  let zeros := String.ofList (List.replicate (3 - rest.length) '0')
  blanks ++ seconds ++ "." ++ zeros ++ rest ++ "s "

structure Terminal where
  threshold : Log.Threshold
  coloured : Bool
  started : IO.Ref (Option Nat)

def Terminal.ofEnvironment : IO Terminal := do
  let setting ← IO.getEnv Log.Threshold.environmentVariable
  let term ← IO.getEnv "TERM"
  let plain ← IO.getEnv "NO_COLOR"
  let coloured := term.isSome && term != some "dumb" && plain.isNone
  return ⟨Log.Threshold.ofSetting setting, coloured, ← IO.mkRef none⟩

def Terminal.elapsed (terminal : Terminal) : IO Nat := do
  let now ← IO.monoMsNow
  match ← terminal.started.get with
  | some first => return now - first
  | none =>
      terminal.started.set (some now)
      return 0

def Terminal.present (terminal : Terminal) : Event → IO Unit
  | .print text => IO.println text
  | .log level message =>
      if terminal.threshold.allows level then do
        let elapsed ← terminal.elapsed
        IO.eprint (Log.line terminal.coloured (stamp elapsed) level message)
      else pure ()

def writeFile (path : String) (content : Bytes) : IO (Except String Unit) := do
  try
    IO.FS.writeBinFile path ⟨content⟩
    return .ok ()
  catch error =>
    match error with
    | .noFileOrDirectory _ code details => return .error s!"{details} (os error {code})"
    | .inappropriateType _ code details => return .error s!"{details} (os error {code})"
    | .permissionDenied _ code details => return .error s!"{details} (os error {code})"
    | other => return .error (toString other)

def writeOutput (job : Job) : IO (Except String Unit) :=
  match job.request.output with
  | some path => writeFile path job.bytecode
  | none => return .ok ()

def finish (terminal : Terminal) (transcript : Transcript) : IO UInt32 := do
  transcript.events.forM terminal.present
  return transcript.exitCode.toUInt32

end StackAssembler.Main

open StackAssembler in
def main (args : List String) : IO UInt32 := do
  let terminal ← Main.Terminal.ofEnvironment
  match Command.start args with
  | .error transcript => Main.finish terminal transcript
  | .ok job =>
      job.opening.forM terminal.present
      let outcome ← Main.writeOutput job
      match job.finish Machine.ampleSteps outcome with
      | some transcript => Main.finish terminal transcript
      | none => return 1

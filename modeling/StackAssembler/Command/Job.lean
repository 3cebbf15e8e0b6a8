import StackAssembler.Command.Request
import StackAssembler.Command.Transcript
import StackAssembler.Command.Usage
import StackAssembler.Machine.Run
import StackAssembler.Sample

/-!
The command from its arguments to its end. Options are looked at first, then the program's name,
then the program is assembled; only then is anything printed. Writing the bytes to a file is left to
the caller, who reports how it went.
-/

set_option autoImplicit false
set_option relaxedAutoImplicit false

namespace StackAssembler.Command

def help (exitCode : Nat) : Transcript :=
  ⟨[.log .info (usage programName)], exitCode⟩

def OptionError.transcript : OptionError → Transcript
  | .unexpected arg =>
      (help 1).after [.log .error ("Unexpected argument: " ++ arg ++ "\n")]
  | .missingValue flag => .failure (flag ++ " requires an argument")
  | .invalidWidth raw => .failure ("Invalid jump width: '" ++ raw ++ "' is not a valid number")
  | .invalidCalldata raw cause =>
      .failure ("Invalid calldata '" ++ raw ++ "': " ++ cause.message)

structure Job where
  request : Request
  /-- How many directives the program has. -/
  directives : Nat
  bytecode : Bytes

namespace Job

def announcement (program : String) (directives : Nat) : Event :=
  .log .debug s!"{program} has {directives} directives"

def prepare (request : Request) : Except Transcript Job :=
  match Sample.byName? request.program with
  | none =>
      .error (.failure ("Unknown program '" ++ request.program ++ "', expected one of: " ++
        ", ".intercalate Sample.names))
  | some program =>
      match Assembly.compile { labelWidth := request.labelWidth } program with
      | .ok bytecode => .ok ⟨request, program.length, bytecode⟩
      | .error cause =>
          .error ((Transcript.failure ("Compilation failed: " ++ cause.message)).after
            [announcement request.program program.length])

def opening (job : Job) : List Event :=
  [announcement job.request.program job.directives,
    .log .info s!"Compiled {job.request.program} ({job.bytecode.size} bytes)",
    .print (Hex.encode job.bytecode)]

def written (job : Job) : List Event :=
  match job.request.output with
  | some path => [.log .info ("Wrote " ++ path)]
  | none => []

def unusedCalldata (job : Job) : List Event :=
  if job.request.calldata.isSome then
    [.log .warn "--calldata has no effect without --run"]
  else []

def verdict : Machine.Verdict → Transcript
  | .ok output => ⟨[.log .info s!"Returned {output.size} bytes", .print (Hex.encode output)], 0⟩
  | .error fault => .failure ("Execution failed: " ++ fault.message)

/-- The execution of the program, if it is asked for and ends within the given number of steps. -/
def execution (steps : Nat) (job : Job) : Option Transcript :=
  if job.request.run then
    (Machine.execute steps job.bytecode (job.request.calldata.getD #[])).map verdict
  else some ⟨job.unusedCalldata, 0⟩

/-- The rest of the command, given how writing the file went. -/
def finish (steps : Nat) (job : Job) : Except String Unit → Option Transcript
  | .error cause => some (.failure ("Failed to write output file: " ++ cause))
  | .ok () => (job.execution steps).map (Transcript.after job.written)

def write (file : String → Bytes → Except String Unit) (job : Job) : Except String Unit :=
  match job.request.output with
  | some path => file path job.bytecode
  | none => .ok ()

end Job

/-- A command line as far as it goes without touching files. -/
def start (args : List String) : Except Transcript Job :=
  match Call.parse args with
  | .nothing => .error (help 1)
  | .help => .error (help 0)
  | .assemble (.error error) => .error error.transcript
  | .assemble (.ok request) => Job.prepare request

/-- The whole command. `file` tells what comes of writing bytes to a path. -/
def run (steps : Nat) (file : String → Bytes → Except String Unit) (args : List String) :
    Option Transcript :=
  match start args with
  | .error transcript => some transcript
  | .ok job => (job.finish steps (job.write file)).map (Transcript.after job.opening)

end StackAssembler.Command

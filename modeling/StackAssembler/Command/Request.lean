import StackAssembler.Assembly.Layout
import StackAssembler.Text.Count

/-!
Command lines: the name of a program, then options in any order. Of an option given twice the last
counts. The word behind an option that needs a value is its value, whatever it looks like.
-/

set_option autoImplicit false
set_option relaxedAutoImplicit false

namespace StackAssembler.Command

structure Request where
  /-- The name of the program to assemble. -/
  program : String
  /-- Where the bytes are written to. -/
  output : Option String := none
  /-- The bytes of every label push. -/
  labelWidth : Option Nat := none
  calldata : Option Bytes := none
  /-- Whether the program is executed. -/
  run : Bool := false
  deriving DecidableEq

inductive Flag
  | output | labelWidth | calldata | run
  deriving DecidableEq

def Flag.ofText? : String → Option Flag
  | "--output" | "-o" => some .output
  | "--jump-width" => some .labelWidth
  | "--calldata" => some .calldata
  | "--run" => some .run
  | _ => none

inductive OptionError
  | unexpected (arg : String)
  | missingValue (flag : String)
  | invalidWidth (raw : String)
  | invalidCalldata (raw : String) (cause : Hex.DecodeError)
  deriving DecidableEq

def unmarked (raw : String) : String :=
  match raw.toList with
  | '0' :: 'x' :: digits => String.ofList digits
  | _ => raw

namespace Request

def setOutput (request : Request) (value : String) : Request :=
  { request with output := some value }

def setLabelWidth (request : Request) (raw : String) : Except OptionError Request :=
  match Text.count? raw with
  | some width => .ok { request with labelWidth := some width }
  | none => .error (.invalidWidth raw)

def setCalldata (request : Request) (raw : String) : Except OptionError Request :=
  match Hex.decode (unmarked raw) with
  | .ok bytes => .ok { request with calldata := some bytes }
  | .error cause => .error (.invalidCalldata raw cause)

def addOptions (request : Request) : List String → Except OptionError Request
  | [] => .ok request
  | word :: rest =>
      match Flag.ofText? word, rest with
      | none, _ => .error (.unexpected word)
      | some .run, rest => addOptions { request with run := true } rest
      | some _, [] => .error (.missingValue word)
      | some .output, value :: rest => addOptions (request.setOutput value) rest
      | some .labelWidth, value :: rest => do
          let request ← request.setLabelWidth value
          addOptions request rest
      | some .calldata, value :: rest => do
          let request ← request.setCalldata value
          addOptions request rest

end Request

inductive Call
  | nothing
  | help
  | assemble (request : Except OptionError Request)

def Call.parse : List String → Call
  | [] => .nothing
  | "--help" :: _ => .help
  | "-h" :: _ => .help
  | program :: options => .assemble (Request.addOptions { program } options)

end StackAssembler.Command

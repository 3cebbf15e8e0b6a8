import StackAssembler.Text.Blank

set_option autoImplicit false
set_option relaxedAutoImplicit false

namespace StackAssembler.Log

inductive Level
  | debug | info | warn | error
  deriving DecidableEq

namespace Level

def all : List Level := [.debug, .info, .warn, .error]

def rank : Level → Nat
  | .debug => 0
  | .info => 1
  | .warn => 2
  | .error => 3

def text : Level → String
  | .debug => "DEBUG"
  | .info => "INFO"
  | .warn => "WARN"
  | .error => "ERROR"

def tag (level : Level) : String :=
  "[" ++ level.text ++ "]"

/-- The terminal codes that set a message's colour, after a reset. -/
def colour : Level → String
  | .debug => "\x1b[36m"
  | .info => ""
  | .warn => "\x1b[1m\x1b[33m"
  | .error => "\x1b[1m\x1b[31m"

end Level

inductive Threshold
  | off
  | atLeast (level : Level)
  deriving DecidableEq

namespace Threshold

def environmentVariable : String := "SPECIALOPS_LOG"

def allows : Threshold → Level → Bool
  | .off, _ => false
  | .atLeast least, level => least.rank ≤ level.rank

def levels (threshold : Threshold) : List Level :=
  Level.all.filter threshold.allows

/-- Reads a threshold by name. Surrounding white space and the case of ASCII letters do not
matter. -/
def parse? (name : String) : Option Threshold :=
  match (Text.trim name).map Char.toLower with
  | "debug" => some (.atLeast .debug)
  | "info" => some (.atLeast .info)
  | "warn" => some (.atLeast .warn)
  | "error" => some (.atLeast .error)
  | "off" => some .off
  | _ => none

/-- The threshold for a value of the environment variable; an unset or unknown one means `info`. -/
def ofSetting (setting : Option String) : Threshold :=
  (setting.bind parse?).getD (.atLeast .info)

end Threshold

def line (coloured : Bool) (stamp : String) (level : Level) (message : String) : String :=
  let reset := "\x1b[0m"
  let body := stamp ++ level.tag ++ " " ++ message ++ "\n"
  if coloured then reset ++ level.colour ++ body ++ reset else body

end StackAssembler.Log

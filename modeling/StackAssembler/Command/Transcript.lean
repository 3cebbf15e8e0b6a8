import StackAssembler.Log

set_option autoImplicit false
set_option relaxedAutoImplicit false

namespace StackAssembler.Command

inductive Event
  | log (level : Log.Level) (message : String)
  | print (text : String)
  deriving DecidableEq

structure Transcript where
  events : List Event
  exitCode : Nat
  deriving DecidableEq

namespace Event

def stdout : Event → String
  | .print text => text ++ "\n"
  | .log _ _ => ""

/-- The lines on standard error, without time stamps. -/
def stderr (threshold : Log.Threshold) (coloured : Bool) : Event → String
  | .print _ => ""
  | .log level message =>
      if threshold.allows level then Log.line coloured "" level message else ""

end Event

namespace Transcript

def stdout (transcript : Transcript) : String :=
  String.join (transcript.events.map Event.stdout)

def stderr (threshold : Log.Threshold) (coloured : Bool) (transcript : Transcript) : String :=
  String.join (transcript.events.map (Event.stderr threshold coloured))

def after (events : List Event) (transcript : Transcript) : Transcript :=
  { transcript with events := events ++ transcript.events }

def failure (message : String) : Transcript :=
  ⟨[.log .error message], 1⟩

end Transcript

end StackAssembler.Command

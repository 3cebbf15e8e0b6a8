import StackAssembler.Bytes
import StackAssembler.Command.Job

/-!
Writing to a path from within an empty folder. Only the folder itself and those above it exist, so a
path leads to a file exactly if it names nothing else on its way.
-/

set_option autoImplicit false
set_option relaxedAutoImplicit false

namespace StackAssembler.Command

inductive FileError
  | notFound
  | isFolder
  deriving DecidableEq

def FileError.message : FileError → String
  | .notFound => "No such file or directory (os error 2)"
  | .isFolder => "Is a directory (os error 21)"

/-- A folder that exists: the topmost one, or one some levels above the empty folder. -/
inductive Place
  | top
  | above (levels : Nat)
  deriving DecidableEq

def Place.parent : Place → Place
  | .top => .top
  | .above levels => .above (levels + 1)

structure Location where
  place : Place
  name : String
  deriving DecidableEq

/-- Follows the parts of a path. `slash` tells whether a slash stands behind the last. -/
def follow (slash : Bool) (place : Place) : List String → Except FileError Location
  | [] => .error .isFolder
  | "." :: rest => follow slash place rest
  | ".." :: rest => follow slash place.parent rest
  | [name] => if slash then .error .isFolder else .ok ⟨place, name⟩
  | _ :: _ :: _ => .error .notFound

def locate (path : String) : Except FileError Location :=
  let parts := (path.splitOn "/").filter (· ≠ "")
  let place := if path.toList.head? = some '/' then .top else .above 0
  let slash := path.toList.getLast? = some '/'
  if path = "" then .error .notFound else follow slash place parts

def writeFresh (path : String) (_ : Bytes) : Except String Unit :=
  match locate path with
  | .ok _ => .ok ()
  | .error error => .error error.message

/-- What is in a file after a job has written its own, if that succeeded. -/
def Job.readBack (job : Job) (path : String) : Option Bytes :=
  match job.request.output.map locate, locate path with
  | some (.ok written), .ok wanted => if written = wanted then some job.bytecode else none
  | _, _ => none

theorem writeFresh_eq_ok {path : String} {bytes : Bytes} :
    writeFresh path bytes = .ok () ↔ ∃ location, locate path = .ok location := by
  unfold writeFresh
  cases locate path <;> simp

/-- The bytecode is read back from the file that it could be written to, by whatever path that is
reached, and nothing else is. -/
theorem Job.readBack_eq_some {job : Job} {path : String} {bytes : Bytes} :
    job.readBack path = some bytes ↔ bytes = job.bytecode ∧ ∃ output,
      job.request.output = some output ∧ writeFresh output bytes = .ok () ∧
        locate path = locate output := by
  simp only [writeFresh_eq_ok]
  unfold readBack
  cases job.request.output with
  | none => simp
  | some output =>
      cases written : locate output with
      | error fault => simp [written]
      | ok location =>
          cases wanted : locate path with
          | error fault => simp [written]
          | ok other =>
              by_cases same : location = other
              · simp [written, same, eq_comm]
              · simp [written, same, Ne.symm same]

def readBack (args : List String) (path : String) : Option Bytes :=
  match start args with
  | .ok job => job.readBack path
  | .error _ => none

end StackAssembler.Command

import StackAssembler.Assembly.Error
import StackAssembler.Limits

set_option autoImplicit false
set_option relaxedAutoImplicit false

namespace StackAssembler.Assembly

structure StackDepth where
  depth : Nat := 0
  limit : Nat := stackLimit
  deriving DecidableEq

/-- What is done with a tracker. It may be refused, and leaves a tracker behind also then. New depths
are counted in `m`. -/
abbrev Tracking (m : Type → Type) := ExceptT Error (StateT StackDepth m)

namespace Tracking

variable {m : Type → Type} [Monad m]

def set (depth : Nat) : Tracking m Unit := do
  let tracker ← get
  if depth ≤ tracker.limit then modify ({ · with depth })
  else throw (.stackOverflow depth tracker.limit)

def apply (count : Nat → m Nat) (op : Opcode) : Tracking m Unit := do
  let tracker ← get
  if tracker.depth < op.pops then throw (.stackUnderflow op op.pops tracker.depth)
  else
    let depth ← count (tracker.depth - op.pops + op.pushes)
    set depth

def expect (expected : Nat) : Tracking m Unit := do
  let tracker ← get
  if tracker.depth = expected then pure ()
  else throw (.depthMismatch expected tracker.depth)

section Outcomes

variable [LawfulMonad m] (tracker : StackDepth)

private theorem run_get :
    (get : Tracking m StackDepth).run.run tracker = pure (.ok tracker, tracker) :=
  pure_bind (tracker, tracker) _

private theorem run_modify (change : StackDepth → StackDepth) :
    (modify change : Tracking m Unit).run.run tracker = pure (.ok (), change tracker) :=
  pure_bind ((), change tracker) _

private theorem run_lift (counted : m Nat) :
    (liftM counted : Tracking m Nat).run.run tracker =
      counted >>= fun n => pure (.ok n, tracker) := by
  have lifted : (liftM counted : Tracking m Nat).run.run tracker =
      (counted >>= fun n => pure (n, tracker)) >>= fun counted => pure (.ok counted.1, counted.2) := rfl
  rw [lifted, bind_assoc]
  simp only [pure_bind]

private theorem run_get_bind (next : StackDepth → Tracking m Unit) :
    (get >>= next : Tracking m Unit).run.run tracker = (next tracker).run.run tracker := by
  rw [ExceptT.run_bind, StateT.run_bind, run_get, pure_bind]

theorem run_set (depth : Nat) :
    (set depth : Tracking m Unit).run.run tracker =
      if depth ≤ tracker.limit then pure (.ok (), { tracker with depth })
      else pure (.error (.stackOverflow depth tracker.limit), tracker) := by
  rw [set, run_get_bind]
  split
  · exact run_modify tracker _
  · rfl

theorem run_apply (count : Nat → m Nat) (op : Opcode) :
    (apply count op).run.run tracker =
      if tracker.depth < op.pops then
        pure (.error (.stackUnderflow op op.pops tracker.depth), tracker)
      else count (tracker.depth - op.pops + op.pushes) >>= fun depth =>
        (set depth : Tracking m Unit).run.run tracker := by
  rw [apply, run_get_bind]
  split
  · rfl
  · rw [ExceptT.run_bind, StateT.run_bind, run_lift, bind_assoc]
    simp only [pure_bind]

theorem run_expect (expected : Nat) :
    (expect expected : Tracking m Unit).run.run tracker =
      if tracker.depth = expected then pure (.ok (), tracker)
      else pure (.error (.depthMismatch expected tracker.depth), tracker) := by
  rw [expect, run_get_bind]
  split <;> rfl

end Outcomes

end Tracking

namespace StackDepth

/-- The tracker behind what is done with it, all numbers being counts. -/
def use (tracker : StackDepth) (tracking : Tracking Id Unit) : Except Error StackDepth :=
  let (outcome, left) := (tracking.run.run tracker).run
  outcome.map fun _ => left

def set (tracker : StackDepth) (depth : Nat) : Except Error StackDepth :=
  tracker.use (Tracking.set depth)

def apply (tracker : StackDepth) (op : Opcode) : Except Error StackDepth :=
  tracker.use (Tracking.apply pure op)

def expect (tracker : StackDepth) (expected : Nat) : Except Error StackDepth :=
  tracker.use (Tracking.expect expected)

theorem set_eq (tracker : StackDepth) (depth : Nat) :
    tracker.set depth = if depth ≤ tracker.limit then .ok { tracker with depth }
      else .error (.stackOverflow depth tracker.limit) := by
  simp only [set, use, Tracking.run_set]
  by_cases fits : depth ≤ tracker.limit
  · simp only [if_pos fits]
    rfl
  · simp only [if_neg fits]
    rfl

theorem apply_eq (tracker : StackDepth) (op : Opcode) :
    tracker.apply op = if tracker.depth < op.pops then
        .error (.stackUnderflow op op.pops tracker.depth)
      else tracker.set (tracker.depth - op.pops + op.pushes) := by
  simp only [apply, set, use, Tracking.run_apply]
  by_cases short : tracker.depth < op.pops
  · simp only [if_pos short]
    rfl
  · simp only [if_neg short]
    rfl

theorem expect_eq (tracker : StackDepth) (expected : Nat) :
    tracker.expect expected = if tracker.depth = expected then .ok tracker
      else .error (.depthMismatch expected tracker.depth) := by
  simp only [expect, use, Tracking.run_expect]
  by_cases same : tracker.depth = expected
  · simp only [if_pos same]
    rfl
  · simp only [if_neg same]
    rfl

def resolve (tracker : StackDepth) (slot : Slot) : Except Error Opcode :=
  match slot.resolve? tracker.depth with
  | some op => .ok op
  | none => .error (.slotUnreachable slot tracker.depth)

end StackDepth

inductive DepthStep
  | apply (op : Opcode)
  | expect (depth : Nat)
  | set (depth : Nat)
  deriving DecidableEq

def count? (n : Nat) : Option Nat :=
  if n < UInt64.size then some n else none

def DepthStep.track : DepthStep → Tracking Option Unit
  | .apply op => Tracking.apply count? op
  | .expect depth => Tracking.expect depth
  | .set depth => Tracking.set depth

namespace StackDepth

/-- What comes of a step and the tracker that it leaves, if the new depth can be counted. -/
def attempt (tracker : StackDepth) (step : DepthStep) : Option (Except Error Unit × StackDepth) :=
  step.track.run.run tracker

def trace (tracker : StackDepth) : List DepthStep → Option (List (Except Error Unit × StackDepth))
  | [] => some []
  | step :: rest => do
      let outcome ← tracker.attempt step
      let others ← outcome.2.trace rest
      return outcome :: others

end StackDepth

end StackAssembler.Assembly

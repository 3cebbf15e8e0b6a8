import StackAssembler.Proofs.Assembly.Emission
import StackAssembler.Proofs.Numeral

/-!
Flattening as a walk from left to right. The checks that a program is put to form one list: a call is
checked for the number of its arguments, then every argument is walked and has to have left one word,
then the instruction itself is checked. How a check turns out depends on the depth of the stack, which
the checks before it determine, and what flattening reports is the first one that fails.
-/

set_option autoImplicit false
set_option relaxedAutoImplicit false

namespace StackAssembler.Assembly

inductive Check
  | arity (op : Opcode) (given : Nat)
  /-- An argument begins, and the depth before it is noted. -/
  | enter
  /-- The argument that began last ends, one word above the depth that was noted. -/
  | leave
  | operator (op : Opcode)
  | push (value : Constant)
  | pushLabel (name : String)
  | label (name : String)
  | expect (depth : Nat)
  | declare (depth : Nat)
  | reach (slot : Slot)
  deriving DecidableEq

mutual

def Directive.walk : Directive → List Check
  | .op op => [.operator op]
  | .push value => [.push value]
  | .pushLabel name => [.pushLabel name]
  | .label name => [.label name]
  | .expectDepth depth => [.expect depth]
  | .setDepth depth => [.declare depth]
  | .call op args => .arity op args.length :: (walkArguments args ++ [.operator op])
  | .inverted slot => [.reach slot]

def walkArguments : List Directive → List Check
  | [] => []
  | arg :: rest => .enter :: (arg.walk ++ .leave :: walkArguments rest)

end

def Program.walk (program : Program) : List Check :=
  program.flatMap Directive.walk

/-- How far a walk has come: the depth of the stack, and the depths noted before the arguments that
have begun but not ended, the last one first. -/
structure Progress extends StackDepth where
  noted : List Nat
  deriving DecidableEq

def Progress.start (limit : Nat) : Progress :=
  ⟨{ limit }, []⟩

def Progress.behind (progress : Progress) (op : Opcode) : Progress :=
  { progress with depth := progress.depth - op.pops + op.pushes }

def Check.advance (progress : Progress) : Check → Progress
  | .arity _ _ | .label _ | .expect _ => progress
  | .enter => { progress with noted := progress.depth :: progress.noted }
  | .leave => { progress with noted := progress.noted.tail }
  | .operator op => progress.behind op
  | .push _ | .pushLabel _ => { progress with depth := progress.depth + 1 }
  | .declare depth => { progress with depth }
  | .reach slot =>
      match slot.resolve? progress.depth with
      | some op => progress.behind op
      | none => progress

/-- The stack has not the words that an opcode takes, or else no room for those it leaves. -/
inductive Unsuited (op : Opcode) (t : StackDepth) : Error → Prop
  | underflow : t.depth < op.pops → Unsuited op t (.stackUnderflow op op.pops t.depth)
  | overflow : op.pops ≤ t.depth → t.limit < t.depth - op.pops + op.pushes →
      Unsuited op t (.stackOverflow (t.depth - op.pops + op.pushes) t.limit)

inductive Constant.Unwritable : Constant → Error → Prop
  | negative {n : Nat} : Unwritable (.int (.negSucc n)) (.negativeOperand (.negSucc n))
  | large {n : Nat} :
      256 ^ 32 ≤ n → Unwritable (.int (.ofNat n)) (.operandWidth (BigEndian.byteCount n))
  | empty : Unwritable (.bytes []) (.operandWidth 0)
  | long {value : List UInt8} :
      32 < value.length → Unwritable (.bytes value) (.operandWidth value.length)

inductive Check.Refuses (progress : Progress) : Check → Error → Prop
  | arity {op : Opcode} {given : Nat} :
      given ≠ op.pops → Refuses progress (.arity op given) (.arityMismatch op op.pops given)
  | leave {entry : Nat} :
      progress.noted.head? = some entry → progress.depth ≠ entry + 1 →
      Refuses progress .leave (.depthMismatch (entry + 1) progress.depth)
  | immediate {op : Opcode} :
      op.isPush = true → Refuses progress (.operator op) (.immediateRequired op)
  | operator {op : Opcode} {error : Error} :
      op.isPush = false → Unsuited op progress.toStackDepth error →
      Refuses progress (.operator op) error
  | constant {value : Constant} {error : Error} :
      value.Unwritable error → Refuses progress (.push value) error
  | push {value : Constant} {immediate : Immediate} {error : Error} :
      value.encode = .ok immediate → Unsuited immediate.opcode progress.toStackDepth error →
      Refuses progress (.push value) error
  | pushLabel {name : String} {error : Error} :
      Unsuited (.push 0) progress.toStackDepth error → Refuses progress (.pushLabel name) error
  | label {name : String} {error : Error} :
      Unsuited .jumpdest progress.toStackDepth error → Refuses progress (.label name) error
  | expect {depth : Nat} :
      progress.depth ≠ depth → Refuses progress (.expect depth) (.depthMismatch depth progress.depth)
  | declare {depth : Nat} :
      progress.limit < depth → Refuses progress (.declare depth) (.stackOverflow depth progress.limit)
  | unreachable {slot : Slot} :
      slot.resolve? progress.depth = none →
      Refuses progress (.reach slot) (.slotUnreachable slot progress.depth)
  | reach {slot : Slot} {op : Opcode} {error : Error} :
      slot.resolve? progress.depth = some op → Unsuited op progress.toStackDepth error →
      Refuses progress (.reach slot) error

/-- The first of the checks that fails, fails with the error. -/
inductive FirstRefusal : Progress → List Check → Error → Prop
  | here {progress : Progress} {check : Check} {rest : List Check} {error : Error} :
      check.Refuses progress error → FirstRefusal progress (check :: rest) error
  | later {progress : Progress} {check : Check} {rest : List Check} {error : Error} :
      (∀ other, ¬ check.Refuses progress other) →
      FirstRefusal (check.advance progress) rest error → FirstRefusal progress (check :: rest) error

structure Draft where
  listing : Listing
  noted : List Nat

def Draft.progress (draft : Draft) : Progress :=
  ⟨draft.listing.tracker, draft.noted⟩

def Check.pass : Check → Draft → Except Error Draft
  | .arity op given, draft =>
      if given = op.pops then .ok draft else .error (.arityMismatch op op.pops given)
  | .enter, ⟨listing, noted⟩ => .ok ⟨listing, listing.tracker.depth :: noted⟩
  | .leave, ⟨listing, []⟩ => .ok ⟨listing, []⟩
  | .leave, ⟨listing, entry :: noted⟩ =>
      (listing.track (·.expect (entry + 1))).map (⟨·, noted⟩)
  | .operator op, ⟨listing, noted⟩ => (listing.emitOp op).map (⟨·, noted⟩)
  | .push value, ⟨listing, noted⟩ => ((Directive.push value).flatten listing).map (⟨·, noted⟩)
  | .pushLabel name, ⟨listing, noted⟩ =>
      ((Directive.pushLabel name).flatten listing).map (⟨·, noted⟩)
  | .label name, ⟨listing, noted⟩ => ((Directive.label name).flatten listing).map (⟨·, noted⟩)
  | .expect depth, ⟨listing, noted⟩ => (listing.track (·.expect depth)).map (⟨·, noted⟩)
  | .declare depth, ⟨listing, noted⟩ => (listing.track (·.set depth)).map (⟨·, noted⟩)
  | .reach slot, ⟨listing, noted⟩ => ((Directive.inverted slot).flatten listing).map (⟨·, noted⟩)

def passAll (checks : List Check) (draft : Draft) : Except Error Draft :=
  checks.foldlM (fun draft check => check.pass draft) draft

@[simp] theorem passAll_cons (check : Check) (checks : List Check) (draft : Draft) :
    passAll (check :: checks) draft = check.pass draft >>= passAll checks :=
  List.foldlM_cons

@[simp] theorem passAll_append (first second : List Check) (draft : Draft) :
    passAll (first ++ second) draft = passAll first draft >>= passAll second :=
  List.foldlM_append

private def Directive.Walks (directive : Directive) : Prop :=
  ∀ (listing : Listing) (noted : List Nat),
    passAll directive.walk ⟨listing, noted⟩ = (directive.flatten listing).map (⟨·, noted⟩)

private theorem bind_ok_self {α : Type} (x : Except Error α) : (x >>= fun a => .ok a) = x := by
  cases x <;> rfl

private theorem walks_of_single {directive : Directive} {check : Check}
    (single : directive.walk = [check])
    (passes : ∀ listing noted,
      check.pass ⟨listing, noted⟩ = (directive.flatten listing).map (⟨·, noted⟩)) :
    directive.Walks := by
  intro listing noted
  rw [single, passAll_cons, passes]
  exact bind_ok_self _

private theorem passAll_arguments {args : List Directive} (walks : ∀ arg ∈ args, arg.Walks)
    (listing : Listing) (noted : List Nat) :
    passAll (walkArguments args) ⟨listing, noted⟩ =
      (flattenArguments args listing).map (⟨·, noted⟩) := by
  induction args generalizing listing with
  | nil => rfl
  | cons arg rest ih =>
      rw [List.forall_mem_cons] at walks
      have entered : passAll (walkArguments (arg :: rest)) ⟨listing, noted⟩ =
          passAll arg.walk ⟨listing, listing.tracker.depth :: noted⟩ >>=
            passAll (.leave :: walkArguments rest) := by
        rw [walkArguments, passAll_cons, ← passAll_append]
        rfl
      rw [entered, walks.1, map_bind_eq, flattenArguments]
      -- The depth on top of the noted ones is that from before the argument, which is what the
      -- depth behind it is held against.
      cases arg.flatten listing with
      | error error => rfl
      | ok flat =>
          have left : passAll (.leave :: walkArguments rest)
              ⟨flat, listing.tracker.depth :: noted⟩ =
              (flat.track (·.expect (listing.tracker.depth + 1))).map (⟨·, noted⟩) >>=
                passAll (walkArguments rest) := passAll_cons _ _ _
          show passAll (.leave :: walkArguments rest) ⟨flat, listing.tracker.depth :: noted⟩ =
            (flat.track (·.expect (listing.tracker.depth + 1)) >>= flattenArguments rest).map _
          rw [left, map_bind_eq]
          cases flat.track (·.expect (listing.tracker.depth + 1)) with
          | error error => rfl
          | ok tracked => exact ih walks.2 tracked

private theorem Directive.walks (directive : Directive) : directive.Walks := by
  induction directive with
  | call op args ih =>
      intro listing noted
      rw [Directive.walk, Directive.flatten, passAll_cons]
      by_cases arity : args.length = op.pops
      · have counted : Check.pass (.arity op args.length) ⟨listing, noted⟩ =
            .ok ⟨listing, noted⟩ := if_pos arity
        rw [counted, if_pos arity]
        show passAll (walkArguments args ++ [.operator op]) ⟨listing, noted⟩ = _
        rw [passAll_append, passAll_arguments ih, map_bind_eq]
        cases flattenArguments args listing with
        | error error => rfl
        | ok flat => exact bind_ok_self _
      · have counted : Check.pass (.arity op args.length) ⟨listing, noted⟩ =
            .error (.arityMismatch op op.pops args.length) := if_neg arity
        rw [counted, if_neg arity]
        rfl
  | _ => exact walks_of_single rfl fun _ _ => rfl

theorem Program.passAll_walk (program : Program) (listing : Listing) (noted : List Nat) :
    passAll program.walk ⟨listing, noted⟩ =
      (program.flattenAfter listing).map (⟨·, noted⟩) := by
  induction program generalizing listing with
  | nil => rfl
  | cons directive rest ih =>
      have first : passAll (Program.walk (directive :: rest)) ⟨listing, noted⟩ =
          passAll directive.walk ⟨listing, noted⟩ >>= passAll (Program.walk rest) :=
        passAll_append directive.walk (Program.walk rest) ⟨listing, noted⟩
      rw [first, directive.walks, map_bind_eq, Program.flattenAfter, List.foldlM_cons]
      cases directive.flatten listing with
      | error error => rfl
      | ok flat => exact ih flat

theorem set_eq_error {t : StackDepth} {depth : Nat} {error : Error} :
    t.set depth = .error error ↔ t.limit < depth ∧ error = .stackOverflow depth t.limit := by
  rw [StackDepth.set_eq]
  split
  · simp only [reduceCtorEq, false_iff, not_and]
    omega
  · simp only [Except.error.injEq]
    constructor
    · rintro rfl
      exact ⟨by omega, rfl⟩
    · rintro ⟨_, rfl⟩
      rfl

theorem expect_eq_error {t : StackDepth} {depth : Nat} {error : Error} :
    t.expect depth = .error error ↔ t.depth ≠ depth ∧ error = .depthMismatch depth t.depth := by
  rw [StackDepth.expect_eq]
  split
  · simp_all
  · simp_all [eq_comm]

theorem apply_eq_error {t : StackDepth} {op : Opcode} {error : Error} :
    t.apply op = .error error ↔ Unsuited op t error := by
  rw [StackDepth.apply_eq]
  constructor
  · intro fails
    split at fails
    · cases fails
      exact .underflow ‹_›
    · obtain ⟨excess, rfl⟩ := set_eq_error.mp fails
      exact .overflow (by omega) excess
  · rintro (short | ⟨enough, excess⟩)
    · exact if_pos short
    · rw [if_neg (by omega)]
      exact set_eq_error.mpr ⟨excess, rfl⟩

theorem resolve_eq_error {t : StackDepth} {slot : Slot} {error : Error} :
    t.resolve slot = .error error ↔
      slot.resolve? t.depth = none ∧ error = .slotUnreachable slot t.depth := by
  unfold StackDepth.resolve
  cases slot.resolve? t.depth with
  | none => simp [eq_comm]
  | some op => simp

theorem ofBytes_eq_error {bytes : List UInt8} {error : Error} :
    Immediate.ofBytes bytes = .error error ↔
      ¬ (0 < bytes.length ∧ bytes.length ≤ 32) ∧ error = .operandWidth bytes.length := by
  unfold Immediate.ofBytes
  split
  · simp_all
  · simp_all [eq_comm]

theorem encode_eq_error {value : Constant} {error : Error} :
    value.encode = .error error ↔ value.Unwritable error := by
  cases value with
  | int value =>
      cases value with
      | ofNat n =>
          have counted : BigEndian.byteCount n ≤ 32 ↔ n < 256 ^ 32 :=
            BigEndian.byteCount_le_iff (by decide)
          have positive := BigEndian.byteCount_pos n
          rw [Constant.encode, ofBytes_eq_error, BigEndian.length_encode]
          constructor
          · rintro ⟨illegal, rfl⟩
            exact .large (by omega)
          · intro unwritable
            cases unwritable with
            | large large => exact ⟨by omega, rfl⟩
      | negSucc n =>
          rw [Constant.encode, Except.error.injEq]
          constructor
          · rintro rfl
            exact .negative
          · intro unwritable
            cases unwritable
            rfl
  | bytes value =>
      rw [Constant.encode, ofBytes_eq_error]
      constructor
      · rintro ⟨illegal, rfl⟩
        cases value with
        | nil => exact .empty
        | cons byte rest =>
            have positive : 0 < (byte :: rest).length := Nat.succ_pos _
            exact .long (by omega)
      · intro unwritable
        cases unwritable with
        | empty => exact ⟨by decide, rfl⟩
        | long long => exact ⟨by omega, rfl⟩
  | word value =>
      have length : value.toBytes.toList.length = 32 := Word.size_toBytes value
      rw [Constant.encode, ofBytes_eq_error, length]
      constructor
      · rintro ⟨illegal, _⟩
        exact absurd (by decide) illegal
      · intro unwritable
        cases unwritable

theorem emit_eq_error {t : StackDepth} {items : Array Item} {op : Opcode} {item : Item}
    {error : Error} : Listing.emit ⟨t, items⟩ op item = .error error ↔ Unsuited op t error := by
  simp only [Listing.emit, bind_eq_error, apply_eq_error]
  simp [pure, Except.pure]

theorem track_eq_error {t : StackDepth} {items : Array Item}
    {use : StackDepth → Except Error StackDepth} {error : Error} :
    Listing.track ⟨t, items⟩ use = .error error ↔ use t = .error error := by
  simp only [Listing.track, bind_eq_error]
  simp [pure, Except.pure]

theorem emitOp_eq_error {t : StackDepth} {items : Array Item} {op : Opcode} {error : Error} :
    Listing.emitOp ⟨t, items⟩ op = .error error ↔
      op.isPush = true ∧ error = .immediateRequired op ∨ op.isPush = false ∧ Unsuited op t error := by
  unfold Listing.emitOp
  cases op.isPush with
  | true => simp [eq_comm]
  | false => simpa using emit_eq_error

theorem isPush_resolved {slot : Slot} {depth : Nat} {op : Opcode}
    (resolved : slot.resolve? depth = some op) : op.isPush = false := by
  rcases Slot.resolve?_eq_some resolved with ⟨_, rfl⟩ | ⟨_, rfl⟩
  · rfl
  · rfl

namespace Check

section Refusals

variable {t : StackDepth} {items : Array Item} {noted : List Nat} {error : Error}

private theorem pass_arity {op : Opcode} {given : Nat} :
    (arity op given).pass ⟨⟨t, items⟩, noted⟩ = .error error ↔
      (arity op given).Refuses ⟨t, noted⟩ error := by
  simp only [pass]
  constructor
  · intro fails
    split at fails
    · cases fails
    · cases fails
      exact .arity ‹_›
  · intro refuses
    cases refuses with
    | arity different => exact if_neg different

private theorem pass_enter :
    enter.pass ⟨⟨t, items⟩, noted⟩ = .error error ↔ enter.Refuses ⟨t, noted⟩ error := by
  constructor
  · intro fails
    cases fails
  · intro refuses
    cases refuses

private theorem pass_leave :
    leave.pass ⟨⟨t, items⟩, noted⟩ = .error error ↔ leave.Refuses ⟨t, noted⟩ error := by
  cases noted with
  | nil =>
      constructor
      · intro fails
        cases fails
      · intro refuses
        cases refuses with
        | leave noted _ => cases noted
  | cons entry noted =>
      simp only [pass, map_eq_error, track_eq_error, expect_eq_error]
      constructor
      · rintro ⟨different, rfl⟩
        exact .leave rfl different
      · intro refuses
        cases refuses with
        | leave noted different =>
            cases noted
            exact ⟨different, rfl⟩

private theorem pass_operator {op : Opcode} :
    (operator op).pass ⟨⟨t, items⟩, noted⟩ = .error error ↔
      (operator op).Refuses ⟨t, noted⟩ error := by
  simp only [pass, map_eq_error, emitOp_eq_error]
  constructor
  · rintro (⟨push, rfl⟩ | ⟨plain, unsuited⟩)
    · exact .immediate push
    · exact .operator plain unsuited
  · intro refuses
    cases refuses with
    | immediate push => exact .inl ⟨push, rfl⟩
    | operator plain unsuited => exact .inr ⟨plain, unsuited⟩

private theorem pass_push {value : Constant} :
    (push value).pass ⟨⟨t, items⟩, noted⟩ = .error error ↔
      (push value).Refuses ⟨t, noted⟩ error := by
  simp only [pass, map_eq_error, Directive.flatten, bind_eq_error, encode_eq_error, emit_eq_error]
  constructor
  · rintro (fails | ⟨immediate, encoded, unsuited⟩)
    · exact .constant fails
    · exact .push encoded unsuited
  · intro refuses
    cases refuses with
    | constant fails => exact .inl fails
    | push encoded unsuited => exact .inr ⟨_, encoded, unsuited⟩

private theorem pass_pushLabel {name : String} :
    (pushLabel name).pass ⟨⟨t, items⟩, noted⟩ = .error error ↔
      (pushLabel name).Refuses ⟨t, noted⟩ error := by
  simp only [pass, map_eq_error, Directive.flatten, emit_eq_error]
  constructor
  · intro unsuited
    exact .pushLabel unsuited
  · intro refuses
    cases refuses with
    | pushLabel unsuited => exact unsuited

private theorem pass_label {name : String} :
    (label name).pass ⟨⟨t, items⟩, noted⟩ = .error error ↔
      (label name).Refuses ⟨t, noted⟩ error := by
  simp only [pass, map_eq_error, Directive.flatten, emit_eq_error]
  constructor
  · intro unsuited
    exact .label unsuited
  · intro refuses
    cases refuses with
    | label unsuited => exact unsuited

private theorem pass_expect {depth : Nat} :
    (expect depth).pass ⟨⟨t, items⟩, noted⟩ = .error error ↔
      (expect depth).Refuses ⟨t, noted⟩ error := by
  simp only [pass, map_eq_error, track_eq_error, expect_eq_error]
  constructor
  · rintro ⟨different, rfl⟩
    exact .expect different
  · intro refuses
    cases refuses with
    | expect different => exact ⟨different, rfl⟩

private theorem pass_declare {depth : Nat} :
    (declare depth).pass ⟨⟨t, items⟩, noted⟩ = .error error ↔
      (declare depth).Refuses ⟨t, noted⟩ error := by
  simp only [pass, map_eq_error, track_eq_error, set_eq_error]
  constructor
  · rintro ⟨excess, rfl⟩
    exact .declare excess
  · intro refuses
    cases refuses with
    | declare excess => exact ⟨excess, rfl⟩

private theorem pass_reach {slot : Slot} :
    (reach slot).pass ⟨⟨t, items⟩, noted⟩ = .error error ↔
      (reach slot).Refuses ⟨t, noted⟩ error := by
  simp only [pass, map_eq_error, Directive.flatten, bind_eq_error, resolve_eq_error, resolve_eq_ok,
    emitOp_eq_error]
  constructor
  · rintro (⟨missing, rfl⟩ | ⟨op, resolved, ⟨push, _⟩ | ⟨_, unsuited⟩⟩)
    · exact .unreachable missing
    -- A slot is reached by a duplication or an exchange, which takes no immediate.
    · rw [isPush_resolved resolved] at push
      cases push
    · exact .reach resolved unsuited
  · intro refuses
    cases refuses with
    | unreachable missing => exact .inl ⟨missing, rfl⟩
    | reach resolved unsuited =>
        exact .inr ⟨_, resolved, .inr ⟨isPush_resolved resolved, unsuited⟩⟩

end Refusals

theorem pass_eq_error {check : Check} {draft : Draft} {error : Error} :
    check.pass draft = .error error ↔ check.Refuses draft.progress error := by
  obtain ⟨⟨t, items⟩, noted⟩ := draft
  cases check with
  | arity op given => exact pass_arity
  | enter => exact pass_enter
  | leave => exact pass_leave
  | operator op => exact pass_operator
  | push value => exact pass_push
  | pushLabel name => exact pass_pushLabel
  | label name => exact pass_label
  | expect depth => exact pass_expect
  | declare depth => exact pass_declare
  | reach slot => exact pass_reach

end Check

private theorem progress_of_apply {t : StackDepth} {listing : Listing} {op : Opcode}
    {noted : List Nat} (applied : t.apply op = .ok listing.tracker) :
    Draft.progress ⟨listing, noted⟩ = Progress.behind ⟨t, noted⟩ op := by
  obtain ⟨_, _, same⟩ := apply_eq_ok.mp applied
  simp only [Draft.progress, Progress.behind, same]

theorem Check.progress_of_pass {check : Check} {draft next : Draft}
    (passes : check.pass draft = .ok next) : next.progress = check.advance draft.progress := by
  obtain ⟨⟨t, items⟩, noted⟩ := draft
  cases check with
  | arity op given =>
      simp only [Check.pass] at passes
      split at passes
      · cases passes
        rfl
      · cases passes
  | enter =>
      cases passes
      rfl
  | leave =>
      cases noted with
      | nil =>
          cases passes
          rfl
      | cons entry noted =>
          obtain ⟨listing, tracked, rfl⟩ := map_eq_ok.mp passes
          obtain ⟨_, same⟩ := expect_eq_ok.mp (track_eq_ok.mp tracked).1
          simp only [Draft.progress, Check.advance, same, List.tail_cons]
  | operator op =>
      obtain ⟨listing, emitted, rfl⟩ := map_eq_ok.mp passes
      exact progress_of_apply (emitOp_eq_ok.mp emitted).2.1
  | push value =>
      obtain ⟨listing, flat, rfl⟩ := map_eq_ok.mp passes
      obtain ⟨immediate, _, emitted⟩ := bind_eq_ok.mp flat
      exact progress_of_apply (emit_eq_ok.mp emitted).1
  | pushLabel name =>
      obtain ⟨listing, emitted, rfl⟩ := map_eq_ok.mp passes
      exact progress_of_apply (emit_eq_ok.mp emitted).1
  | label name =>
      obtain ⟨listing, emitted, rfl⟩ := map_eq_ok.mp passes
      exact progress_of_apply (emit_eq_ok.mp emitted).1
  | expect depth =>
      obtain ⟨listing, tracked, rfl⟩ := map_eq_ok.mp passes
      obtain ⟨_, same⟩ := expect_eq_ok.mp (track_eq_ok.mp tracked).1
      simp only [Draft.progress, Check.advance, same]
  | declare depth =>
      obtain ⟨listing, tracked, rfl⟩ := map_eq_ok.mp passes
      obtain ⟨_, same⟩ := set_eq_ok.mp (track_eq_ok.mp tracked).1
      simp only [Draft.progress, Check.advance, same]
  | reach slot =>
      obtain ⟨listing, flat, rfl⟩ := map_eq_ok.mp passes
      obtain ⟨op, resolved, emitted⟩ := bind_eq_ok.mp flat
      have found : slot.resolve? t.depth = some op := resolve_eq_ok.mp resolved
      rw [progress_of_apply (emitOp_eq_ok.mp emitted).2.1]
      simp only [Draft.progress, Check.advance, found]

theorem passAll_eq_error {checks : List Check} {draft : Draft} {error : Error} :
    passAll checks draft = .error error ↔ FirstRefusal draft.progress checks error := by
  induction checks generalizing draft with
  | nil =>
      constructor
      · intro fails
        cases fails
      · intro fails
        cases fails
  | cons check rest ih =>
      rw [passAll_cons, bind_eq_error, Check.pass_eq_error]
      constructor
      · rintro (refuses | ⟨next, passes, fails⟩)
        · exact .here refuses
        · refine .later ?_ (Check.progress_of_pass passes ▸ ih.mp fails)
          intro other refuses
          rw [← Check.pass_eq_error, passes] at refuses
          cases refuses
      · intro fails
        cases fails with
        | here refuses => exact .inl refuses
        | later suits fails =>
            cases passes : check.pass draft with
            | error other => exact absurd (Check.pass_eq_error.mp passes) (suits other)
            | ok next =>
                rw [← Check.progress_of_pass passes] at fails
                exact .inr ⟨next, rfl, ih.mpr fails⟩

/-- Flattening reports the first check of the walk that fails. -/
theorem Program.flatten_eq_error {limit : Nat} {program : Program} {error : Error} :
    program.flatten limit = .error error ↔
      FirstRefusal (.start limit) program.walk error := by
  have walked := program.passAll_walk (.empty limit) []
  have same : passAll program.walk ⟨.empty limit, []⟩ = .error error ↔
      program.flatten limit = .error error := by
    rw [walked, map_eq_error, Program.flatten]
  rw [← same]
  exact passAll_eq_error

end StackAssembler.Assembly

import StackAssembler.Proofs.Assembly.Emission

set_option autoImplicit false
set_option relaxedAutoImplicit false

namespace StackAssembler.Assembly

namespace StackDepth

def after? (tracker : StackDepth) (steps : List DepthStep) : Option StackDepth :=
  (tracker.trace steps).map fun outcomes => (outcomes.getLast?.map Prod.snd).getD tracker

def successes (steps : List DepthStep) (outcomes : List (Except Error Unit × StackDepth)) :
    List DepthStep :=
  ((steps.zip outcomes).filter fun taken => taken.2.1.isOk).map Prod.fst

/-- What instructions leave on the stack less what they take from it. -/
def netGain : List Opcode → Int
  | [] => 0
  | op :: rest => (op.pushes - op.pops : Int) + netGain rest

section Steps

variable (t : StackDepth)

theorem attempt_set (depth : Nat) :
    t.attempt (.set depth) = some (if depth ≤ t.limit then (.ok (), ⟨depth, t.limit⟩)
      else (.error (.stackOverflow depth t.limit), t)) := by
  rw [attempt, DepthStep.track, Tracking.run_set]
  split <;> rfl

theorem attempt_expect (depth : Nat) :
    t.attempt (.expect depth) = some (if t.depth = depth then (.ok (), t)
      else (.error (.depthMismatch depth t.depth), t)) := by
  rw [attempt, DepthStep.track, Tracking.run_expect]
  split <;> rfl

theorem attempt_apply (op : Opcode) :
    t.attempt (.apply op) =
      if t.depth < op.pops then some (.error (.stackUnderflow op op.pops t.depth), t)
      else if t.depth - op.pops + op.pushes < UInt64.size then
        t.attempt (.set (t.depth - op.pops + op.pushes))
      else none := by
  rw [attempt, DepthStep.track, Tracking.run_apply]
  split
  · rfl
  · unfold count?
    split <;> rfl

variable {t}

theorem attempt_eq_none {step : DepthStep} :
    t.attempt step = none ↔ ∃ op, step = .apply op ∧ op.pops ≤ t.depth ∧
      UInt64.size ≤ t.depth - op.pops + op.pushes := by
  cases step with
  | apply op =>
      rw [attempt_apply, attempt_set]
      simp only [DepthStep.apply.injEq, exists_eq_left']
      split
      · simp only [reduceCtorEq, false_iff]
        omega
      · split
        · simp only [reduceCtorEq, false_iff]
          omega
        · simp only [true_iff]
          omega
  | expect depth =>
      rw [attempt_expect]
      simp
  | set depth =>
      rw [attempt_set]
      simp

private theorem attempt_set_cases {depth : Nat} {outcome : Except Error Unit × StackDepth}
    (tried : t.attempt (.set depth) = some outcome) :
    (∃ depth, depth ≤ t.limit ∧ outcome = (.ok (), ⟨depth, t.limit⟩)) ∨
      ∃ error, outcome = (.error error, t) := by
  rw [attempt_set] at tried
  cases tried
  split
  · exact .inl ⟨depth, by assumption, rfl⟩
  · exact .inr ⟨_, rfl⟩

theorem attempt_cases {step : DepthStep} {outcome : Except Error Unit × StackDepth}
    (low : t.depth ≤ t.limit) (tried : t.attempt step = some outcome) :
    (∃ depth, depth ≤ t.limit ∧ outcome = (.ok (), ⟨depth, t.limit⟩)) ∨
      ∃ error, outcome = (.error error, t) := by
  cases step with
  | apply op =>
      rw [attempt_apply] at tried
      split at tried
      · cases tried
        exact .inr ⟨_, rfl⟩
      · split at tried
        · exact attempt_set_cases tried
        · cases tried
  | expect depth =>
      rw [attempt_expect] at tried
      cases tried
      split
      · exact .inl ⟨t.depth, low, rfl⟩
      · exact .inr ⟨_, rfl⟩
  | set depth => exact attempt_set_cases tried

/-- Below the largest limit the depths that are counted without an end are counted here as well. -/
theorem attempt_apply_of_limit_lt (low : t.depth ≤ t.limit) (small : t.limit + 1 < UInt64.size)
    (op : Opcode) :
    t.attempt (.apply op) = some (match t.apply op with
      | .ok next => (.ok (), next)
      | .error error => (.error error, t)) := by
  have growth := op.pushes_le
  rw [attempt_apply, attempt_set, apply_eq, set_eq]
  split
  · rfl
  · rw [if_pos (by omega)]
    split <;> rfl

end Steps

section Runs

variable {t : StackDepth} {step : DepthStep} {steps rest : List DepthStep}
  {outcomes : List (Except Error Unit × StackDepth)}

theorem trace_of_attempt {outcome : Except Error Unit × StackDepth}
    (tried : t.attempt step = some outcome) (rest : List DepthStep) :
    t.trace (step :: rest) = (outcome.2.trace rest).map (outcome :: ·) := by
  rw [trace, tried]
  exact Option.map_eq_bind.symm

theorem trace_cons : t.trace (step :: rest) = some outcomes ↔
    ∃ outcome others, t.attempt step = some outcome ∧ outcome.2.trace rest = some others ∧
      outcomes = outcome :: others := by
  constructor
  · intro traced
    obtain ⟨outcome, tried, _⟩ := Option.bind_eq_some_iff.mp traced
    rw [trace_of_attempt tried, Option.map_eq_some_iff] at traced
    obtain ⟨others, followed, same⟩ := traced
    exact ⟨outcome, others, tried, followed, same.symm⟩
  · rintro ⟨outcome, others, tried, followed, rfl⟩
    rw [trace_of_attempt tried, followed, Option.map_some]

theorem after?_cons (t : StackDepth) (step : DepthStep) (rest : List DepthStep) :
    t.after? (step :: rest) = (t.attempt step).bind fun outcome => outcome.2.after? rest := by
  cases tried : t.attempt step with
  | none => rw [after?, trace, tried]; rfl
  | some outcome =>
      rw [after?, trace_of_attempt tried, Option.bind_some, after?, Option.map_map]
      congr 1
      funext others
      rw [Function.comp, List.getLast?_cons, Option.map_some, Option.getD_some, Option.getD_map]

theorem trace_eq_none {t : StackDepth} {steps : List DepthStep} :
    t.trace steps = none ↔ ∃ i step before, steps[i]? = some step ∧
      t.after? (steps.take i) = some before ∧ before.attempt step = none := by
  induction steps generalizing t with
  | nil => simp [trace]
  | cons step rest ih =>
      cases tried : t.attempt step with
      | none =>
          refine iff_of_true (by simp [trace, tried]) ⟨0, step, t, rfl, rfl, tried⟩
      | some outcome =>
          have traced : t.trace (step :: rest) = none ↔ outcome.2.trace rest = none := by
            rw [trace_of_attempt tried, Option.map_eq_none_iff]
          rw [traced, ih]
          constructor
          · rintro ⟨i, other, before, found, reached, fails⟩
            refine ⟨i + 1, other, before, found, ?_, fails⟩
            rw [List.take_succ_cons, after?_cons, tried]
            exact reached
          · rintro ⟨i, other, before, found, reached, fails⟩
            cases i with
            | zero =>
                cases found
                obtain rfl : t = before := Option.some.inj reached
                rw [tried] at fails
                cases fails
            | succ i =>
                rw [List.take_succ_cons, after?_cons, tried] at reached
                exact ⟨i, other, before, found, reached, fails⟩

theorem attempt_of_trace {t : StackDepth} {steps : List DepthStep}
    {outcomes : List (Except Error Unit × StackDepth)} (traced : t.trace steps = some outcomes)
    {i : Nat} {step : DepthStep} (found : steps[i]? = some step) :
    ∃ before, t.after? (steps.take i) = some before ∧ before.attempt step = outcomes[i]? := by
  induction steps generalizing t outcomes i with
  | nil => cases found
  | cons first rest ih =>
      obtain ⟨outcome, others, tried, followed, rfl⟩ := trace_cons.mp traced
      cases i with
      | zero =>
          cases found
          exact ⟨t, rfl, tried⟩
      | succ i =>
          obtain ⟨before, reached, attempted⟩ := ih followed found
          refine ⟨before, ?_, attempted⟩
          rw [List.take_succ_cons, after?_cons, tried]
          exact reached

theorem length_of_trace (traced : t.trace steps = some outcomes) :
    outcomes.length = steps.length := by
  induction steps generalizing t outcomes with
  | nil =>
      cases traced
      rfl
  | cons step rest ih =>
      obtain ⟨outcome, others, _, followed, rfl⟩ := trace_cons.mp traced
      rw [List.length_cons, ih followed, List.length_cons]

end Runs

structure Within (limit : Nat) (tracker : StackDepth) : Prop where
  limit_eq : tracker.limit = limit
  depth_le : tracker.depth ≤ limit

section Limits

variable {limit : Nat} {t : StackDepth} {step : DepthStep} {steps : List DepthStep}

theorem Within.attempt {outcome : Except Error Unit × StackDepth} (within : t.Within limit)
    (tried : t.attempt step = some outcome) : outcome.2.Within limit := by
  obtain ⟨rfl, low⟩ := within
  rcases attempt_cases low tried with ⟨depth, fits, rfl⟩ | ⟨error, rfl⟩
  · exact ⟨rfl, fits⟩
  · exact ⟨rfl, low⟩

theorem Within.trace {outcomes : List (Except Error Unit × StackDepth)} (within : t.Within limit)
    (traced : t.trace steps = some outcomes) : ∀ outcome ∈ outcomes, outcome.2.Within limit := by
  induction steps generalizing t outcomes with
  | nil =>
      cases traced
      simp
  | cons step rest ih =>
      obtain ⟨outcome, others, tried, followed, rfl⟩ := trace_cons.mp traced
      have next := within.attempt tried
      rw [List.forall_mem_cons]
      exact ⟨next, ih next followed⟩

theorem Within.after? {before : StackDepth} (within : t.Within limit)
    (reached : t.after? steps = some before) : before.Within limit := by
  induction steps generalizing t with
  | nil =>
      cases reached
      exact within
  | cons step rest ih =>
      rw [after?_cons] at reached
      obtain ⟨outcome, tried, followed⟩ := Option.bind_eq_some_iff.mp reached
      exact ih (within.attempt tried) followed

theorem Within.trace_successes {outcomes : List (Except Error Unit × StackDepth)}
    (within : t.Within limit) (traced : t.trace steps = some outcomes) :
    ∃ others, t.trace (successes steps outcomes) = some others ∧
      (∀ outcome ∈ others, outcome.1 = .ok ()) ∧
        t.after? (successes steps outcomes) = t.after? steps := by
  induction steps generalizing t outcomes with
  | nil =>
      cases traced
      exact ⟨[], rfl, by simp, rfl⟩
  | cons step rest ih =>
      obtain ⟨outcome, others, tried, followed, rfl⟩ := trace_cons.mp traced
      obtain ⟨rfl, low⟩ := within
      rcases attempt_cases low tried with ⟨depth, fits, rfl⟩ | ⟨error, rfl⟩
      · have next : StackDepth.Within t.limit ⟨depth, t.limit⟩ := ⟨rfl, fits⟩
        obtain ⟨again, retraced, succeed, same⟩ := ih next followed
        have taken : successes (step :: rest) ((.ok (), ⟨depth, t.limit⟩) :: others) =
            step :: successes rest others := rfl
        rw [taken, after?_cons, after?_cons, tried]
        refine ⟨_ :: again, trace_cons.mpr ⟨_, again, tried, retraced, rfl⟩, ?_, same⟩
        rw [List.forall_mem_cons]
        exact ⟨rfl, succeed⟩
      · -- the others meet the tracker that the failed step met
        have passed : successes (step :: rest) ((.error error, t) :: others) =
            successes rest others := rfl
        rw [passed, after?_cons, tried]
        exact ih ⟨rfl, low⟩ followed

end Limits

theorem depth_of_instructions {t final : StackDepth} {ops : List Opcode}
    {outcomes : List (Except Error Unit × StackDepth)}
    (traced : t.trace (ops.map .apply) = some outcomes)
    (succeed : ∀ outcome ∈ outcomes, outcome.1 = .ok ())
    (reached : t.after? (ops.map .apply) = some final) :
    (final.depth : Int) - t.depth = netGain ops := by
  induction ops generalizing t outcomes with
  | nil =>
      cases reached
      exact Int.sub_self _
  | cons op rest ih =>
      rw [List.map_cons] at traced reached
      obtain ⟨outcome, others, tried, followed, rfl⟩ := trace_cons.mp traced
      rw [List.forall_mem_cons] at succeed
      rw [after?_cons, tried, Option.bind_some] at reached
      have behind := ih followed succeed.2 reached
      have moved : op.pops ≤ t.depth ∧ outcome.2.depth = t.depth - op.pops + op.pushes := by
        rw [attempt_apply, attempt_set] at tried
        split at tried
        · cases tried
          cases succeed.1
        · split at tried
          · cases tried
            split at succeed
            · rw [if_pos (by assumption)]
              exact ⟨by omega, rfl⟩
            · cases succeed.1
          · cases tried
      rw [netGain]
      omega

section Instructions

variable {t : StackDepth} {op : Opcode}

private theorem attempt_underflow_iff :
    t.attempt (.apply op) = some (.error (.stackUnderflow op op.pops t.depth), t) ↔
      t.depth < op.pops := by
  rw [attempt_apply, attempt_set]
  split
  · exact iff_of_true rfl (by assumption)
  · split
    · split <;> simp_all
    · simp_all

private theorem attempt_overflow_iff :
    t.attempt (.apply op) =
        some (.error (.stackOverflow (t.depth - op.pops + op.pushes) t.limit), t) ↔
      op.pops ≤ t.depth ∧ t.limit < t.depth - op.pops + op.pushes ∧
        t.depth - op.pops + op.pushes < UInt64.size := by
  rw [attempt_apply, attempt_set]
  split
  · simp only [Option.some.injEq, Prod.mk.injEq, Except.error.injEq, reduceCtorEq, false_and, false_iff]
    omega
  · split
    · split
      · simp only [Option.some.injEq, Prod.mk.injEq, reduceCtorEq, false_and, false_iff]
        omega
      · exact iff_of_true rfl (by omega)
    · simp only [reduceCtorEq, false_iff]
      omega

private theorem attempt_succeeds_iff (countable : t.limit < UInt64.size) :
    t.attempt (.apply op) = some (.ok (), ⟨t.depth - op.pops + op.pushes, t.limit⟩) ↔
      op.pops ≤ t.depth ∧ t.depth - op.pops + op.pushes ≤ t.limit := by
  rw [attempt_apply, attempt_set]
  split
  · simp only [Option.some.injEq, Prod.mk.injEq, reduceCtorEq, false_and, false_iff]
    omega
  · split
    · split
      · exact iff_of_true rfl (by omega)
      · simp only [Option.some.injEq, Prod.mk.injEq, reduceCtorEq, false_and, false_iff]
        omega
    · simp only [reduceCtorEq, false_iff]
      omega

private theorem eq_largest_of_uncounted {limit depth : Nat} (low : depth ≤ limit)
    (countable : limit < UInt64.size) (enough : op.pops ≤ depth)
    (uncounted : UInt64.size ≤ depth - op.pops + op.pushes) :
    depth = limit ∧ limit + 1 = UInt64.size := by
  have growth := op.pushes_le
  omega

end Instructions

end StackDepth

/-- What a new tracker makes of steps, each of which comes to an end. -/
structure Survives (limit : Nat) (steps : List DepthStep)
    (outcomes : List (Except Error Unit × StackDepth)) : Prop where
  length : outcomes.length = steps.length
  attempted : ∀ i step, steps[i]? = some step → ∃ before,
    StackDepth.after? { limit } (steps.take i) = some before ∧ before.attempt step = outcomes[i]?
  within : ∀ outcome ∈ outcomes, outcome.2.limit = limit ∧ outcome.2.depth ≤ limit
  failed : ∀ i error left, outcomes[i]? = some (.error error, left) →
    StackDepth.after? { limit } (steps.take i) = some left
  /-- The steps that succeed do so by themselves, and lead to the same tracker. -/
  replayed : ∃ others,
    StackDepth.trace { limit } (StackDepth.successes steps outcomes) = some others ∧
      (∀ outcome ∈ others, outcome.1 = .ok ()) ∧
        StackDepth.after? { limit } (StackDepth.successes steps outcomes) =
          StackDepth.after? { limit } steps

theorem survives_of_trace {limit : Nat} {steps : List DepthStep}
    {outcomes : List (Except Error Unit × StackDepth)}
    (traced : StackDepth.trace { limit } steps = some outcomes) : Survives limit steps outcomes := by
  have start : StackDepth.Within limit { limit } := ⟨rfl, Nat.zero_le limit⟩
  refine ⟨StackDepth.length_of_trace traced, fun _ _ => StackDepth.attempt_of_trace traced, ?_, ?_,
    start.trace_successes traced⟩
  · intro outcome shown
    have within := start.trace traced outcome shown
    exact ⟨within.limit_eq, within.depth_le⟩
  · intro i error left shown
    have inside : i < steps.length := by
      rw [← StackDepth.length_of_trace traced]
      exact (List.getElem?_eq_some_iff.mp shown).1
    obtain ⟨before, reached, tried⟩ :=
      StackDepth.attempt_of_trace traced (List.getElem?_eq_getElem inside)
    have within := start.after? reached
    rw [shown] at tried
    -- the outcome is an error, so the tracker in it is the one that the step met
    rcases StackDepth.attempt_cases (within.limit_eq ▸ within.depth_le) tried with
      ⟨depth, _, same⟩ | ⟨_, same⟩
    · cases same
    · cases same
      exact reached

/-- Whatever steps a new tracker attempts, its depth stays within the limit; a step that fails leaves
it as it was before; and the steps that succeed, taken by themselves, all succeed again and lead to
the same tracker. At any depth an instruction wants for words, or else for room, or else is taken.
Along instructions that succeed, the depth changes by their net gain. What is left open is an
instruction that finds the largest depth there can be and adds to it. -/
theorem tracker_survives_failures {limit : Nat} (countable : limit < UInt64.size)
    (steps : List DepthStep) :
    (StackDepth.trace { limit } steps = none ↔ ∃ i op before, steps[i]? = some (.apply op) ∧
        StackDepth.after? { limit } (steps.take i) = some before ∧ op.pops ≤ before.depth ∧
          UInt64.size ≤ before.depth - op.pops + op.pushes) ∧
      (∀ (depth : Nat) (op : Opcode), depth ≤ limit → op.pops ≤ depth →
        UInt64.size ≤ depth - op.pops + op.pushes → depth = limit ∧ limit + 1 = UInt64.size) ∧
      (∀ outcomes, StackDepth.trace { limit } steps = some outcomes →
        Survives limit steps outcomes) ∧
      (∀ (depth : Nat) (op : Opcode),
        (StackDepth.attempt ⟨depth, limit⟩ (.apply op) =
            some (.error (.stackUnderflow op op.pops depth), ⟨depth, limit⟩) ↔ depth < op.pops) ∧
        (StackDepth.attempt ⟨depth, limit⟩ (.apply op) =
            some (.error (.stackOverflow (depth - op.pops + op.pushes) limit), ⟨depth, limit⟩) ↔
          op.pops ≤ depth ∧ limit < depth - op.pops + op.pushes ∧
            depth - op.pops + op.pushes < UInt64.size) ∧
        (StackDepth.attempt ⟨depth, limit⟩ (.apply op) =
            some (.ok (), ⟨depth - op.pops + op.pushes, limit⟩) ↔
          op.pops ≤ depth ∧ depth - op.pops + op.pushes ≤ limit)) ∧
      ∀ (tracker final : StackDepth) (ops : List Opcode) (outcomes),
        tracker.trace (ops.map .apply) = some outcomes →
          (∀ outcome ∈ outcomes, outcome.1 = .ok ()) →
            tracker.after? (ops.map .apply) = some final →
              (final.depth : Int) - tracker.depth = StackDepth.netGain ops := by
  refine ⟨?_, ?_, fun _ => survives_of_trace, ?_, ?_⟩
  · rw [StackDepth.trace_eq_none]
    constructor
    · rintro ⟨i, step, before, found, reached, fails⟩
      obtain ⟨op, rfl, enough, uncounted⟩ := StackDepth.attempt_eq_none.mp fails
      exact ⟨i, op, before, found, reached, enough, uncounted⟩
    · rintro ⟨i, op, before, found, reached, enough, uncounted⟩
      have fails := StackDepth.attempt_eq_none.mpr ⟨op, rfl, enough, uncounted⟩
      exact ⟨i, .apply op, before, found, reached, fails⟩
  · intro depth op low
    exact StackDepth.eq_largest_of_uncounted low countable
  · intro depth op
    exact ⟨StackDepth.attempt_underflow_iff, StackDepth.attempt_overflow_iff,
      StackDepth.attempt_succeeds_iff countable⟩
  · intro tracker final ops outcomes traced succeed reached
    exact StackDepth.depth_of_instructions traced succeed reached

/-- Steps of all kinds, each of which fails somewhere under a limit of two. -/
def stumblingSteps : List DepthStep :=
  [.apply .pc, .apply .pc, .apply .pc, .set 5, .apply .sub, .expect 2, .apply .add, .expect 1]

theorem tracker_survives_failures_stumbling :
    2 < UInt64.size ∧ ∃ outcomes, StackDepth.trace { limit := 2 } stumblingSteps = some outcomes ∧
      outcomes.map (·.2.depth) = [1, 2, 2, 2, 1, 1, 1, 1] ∧ Survives 2 stumblingSteps outcomes ∧
        StackDepth.attempt ⟨2, 2⟩ (.apply .pc) = some (.error (.stackOverflow 3 2), ⟨2, 2⟩) ∧
        (-1 : Int) = StackDepth.netGain [.pc, .sub, .pop] := by
  obtain ⟨_, _, survives, instructions, gain⟩ :=
    tracker_survives_failures (by decide : 2 < UInt64.size) stumblingSteps
  have overflows := (instructions 2 .pc).2.1.mpr (by decide)
  have gained := gain ⟨1, 2⟩ ⟨0, 2⟩ [.pc, .sub, .pop] _ rfl (by decide) rfl
  exact ⟨by decide, _, rfl, rfl, survives _ rfl, overflows, gained⟩

/-- Under the largest limit the sum that exceeds it is no count, and no overflow of the stack either. -/
theorem excess_of_largest_depth_uncounted :
    StackDepth.trace { limit := UInt64.size - 1 } [.set (UInt64.size - 1), .apply .pc] = none ∧
      ¬ (StackDepth.attempt ⟨UInt64.size - 1, UInt64.size - 1⟩ (.apply .pc) =
          some (.error (.stackOverflow (UInt64.size - 1 - Opcode.pops .pc + Opcode.pushes .pc)
            (UInt64.size - 1)), ⟨UInt64.size - 1, UInt64.size - 1⟩) ↔
        Opcode.pops .pc ≤ UInt64.size - 1 ∧
          UInt64.size - 1 < UInt64.size - 1 - Opcode.pops .pc + Opcode.pushes .pc) := by
  decide

end StackAssembler.Assembly

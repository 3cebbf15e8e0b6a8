import StackAssembler.Proofs.CompileOutcome

/-!
The stack limit. Apart from being carried along, it is used only to be compared with a depth that is
about to be tracked. So every part of assembling has a least limit that it needs: any smaller one is
exceeded before anything else goes wrong, and from there on the limit makes no difference. Parts that
follow one another need the larger of their limits.
-/

set_option autoImplicit false
set_option relaxedAutoImplicit false

namespace StackAssembler.Assembly

/-- The least limit that a computation needs, and its outcome under every limit from there on, in
which the limit is carried along. A smaller limit is exceeded. -/
structure Needs {α β : Type} (carry : Nat → α → β) (run : Nat → Except Error β) (least : Nat)
    (outcome : Except Error α) : Prop where
  enough : ∀ limit, least ≤ limit → run limit = outcome.map (carry limit)
  exceeded : ∀ limit, limit < least →
    ∃ depth, limit < depth ∧ run limit = .error (.stackOverflow depth limit)
  fits : ∀ depth limit, outcome ≠ .error (.stackOverflow depth limit)

def HasThreshold {α β : Type} (carry : Nat → α → β) (run : Nat → Except Error β) : Prop :=
  ∃ least outcome, Needs carry run least outcome

def StackDepth.limited (limit : Nat) (tracker : StackDepth) : StackDepth :=
  { tracker with limit }

def Listing.limited (limit : Nat) (listing : Listing) : Listing :=
  { listing with tracker := listing.tracker.limited limit }

section Parts

variable {α β γ δ : Type} {carry : Nat → α → β}

theorem hasThreshold_ok (carry : Nat → α → β) (a : α) :
    HasThreshold carry fun limit => .ok (carry limit a) :=
  ⟨0, .ok a, fun _ _ => rfl, fun _ below => absurd below (Nat.not_lt_zero _), by simp⟩

theorem hasThreshold_error {error : Error}
    (other : ∀ depth limit, error ≠ .stackOverflow depth limit) :
    HasThreshold carry fun _ => .error error := by
  refine ⟨0, .error error, fun _ _ => rfl, fun _ below => absurd below (Nat.not_lt_zero _), ?_⟩
  intro depth limit same
  exact other depth limit (Except.error.inj same)

theorem hasThreshold_const {outcome : Except Error α}
    (fits : ∀ depth limit, outcome ≠ .error (.stackOverflow depth limit)) :
    HasThreshold (fun _ a => a) fun _ => outcome := by
  cases outcome with
  | ok a => exact hasThreshold_ok _ a
  | error error =>
      exact hasThreshold_error fun depth limit same => fits depth limit (congrArg Except.error same)

theorem HasThreshold.bind {carry' : Nat → γ → δ} {first : Nat → Except Error β}
    {next : Nat → β → Except Error δ} (head : HasThreshold carry first)
    (tail : ∀ a, HasThreshold carry' fun limit => next limit (carry limit a)) :
    HasThreshold carry' fun limit => first limit >>= next limit := by
  obtain ⟨least, outcome, needs⟩ := head
  have short : ∀ limit, limit < least → ∃ depth, limit < depth ∧
      (first limit >>= next limit) = .error (.stackOverflow depth limit) := by
    intro limit below
    obtain ⟨depth, excess, fails⟩ := needs.exceeded limit below
    exact ⟨depth, excess, bind_eq_error.mpr (.inl fails)⟩
  cases outcome with
  | error error =>
      refine ⟨least, .error error, ?_, short, fun depth limit same => ?_⟩
      · intro limit above
        rw [needs.enough limit above]
        rfl
      · cases same
        exact needs.fits depth limit rfl
  | ok a =>
      obtain ⟨more, final, behind⟩ := tail a
      have passed : ∀ limit, least ≤ limit →
          (first limit >>= next limit) = next limit (carry limit a) := by
        intro limit above
        rw [needs.enough limit above]
        rfl
      refine ⟨max least more, final, ?_, ?_, behind.fits⟩
      · intro limit above
        rw [passed limit (by omega)]
        exact behind.enough limit (by omega)
      · intro limit below
        by_cases early : limit < least
        · exact short limit early
        · rw [passed limit (Nat.le_of_not_lt early)]
          exact behind.exceeded limit (by omega)

end Parts

section Tracking

theorem hasThreshold_set (t : StackDepth) (depth : Nat) :
    HasThreshold StackDepth.limited fun limit => (t.limited limit).set depth := by
  refine ⟨depth, .ok { t with depth }, ?_, ?_, by simp⟩
  · intro limit above
    exact (StackDepth.set_eq _ _).trans (if_pos above)
  · intro limit below
    exact ⟨depth, below, (StackDepth.set_eq _ _).trans (if_neg (Nat.not_le_of_lt below))⟩

theorem hasThreshold_apply (t : StackDepth) (op : Opcode) :
    HasThreshold StackDepth.limited fun limit => (t.limited limit).apply op := by
  by_cases short : t.depth < op.pops
  · have fails : (fun limit => (t.limited limit).apply op) =
        fun _ => .error (.stackUnderflow op op.pops t.depth) := by
      funext limit
      exact (StackDepth.apply_eq _ _).trans (if_pos short)
    rw [fails]
    exact hasThreshold_error (by simp)
  · have adopts : (fun limit => (t.limited limit).apply op) =
        fun limit => (t.limited limit).set (t.depth - op.pops + op.pushes) := by
      funext limit
      exact (StackDepth.apply_eq _ _).trans (if_neg short)
    rw [adopts]
    exact hasThreshold_set t _

theorem hasThreshold_expect (t : StackDepth) (depth : Nat) :
    HasThreshold StackDepth.limited fun limit => (t.limited limit).expect depth := by
  by_cases reached : t.depth = depth
  · have passes : (fun limit => (t.limited limit).expect depth) =
        fun limit => .ok (t.limited limit) := by
      funext limit
      exact (StackDepth.expect_eq _ _).trans (if_pos reached)
    rw [passes]
    exact hasThreshold_ok _ t
  · have fails : (fun limit => (t.limited limit).expect depth) =
        fun _ => .error (.depthMismatch depth t.depth) := by
      funext limit
      exact (StackDepth.expect_eq _ _).trans (if_neg reached)
    rw [fails]
    exact hasThreshold_error (by simp)

theorem hasThreshold_emit (listing : Listing) (op : Opcode) (item : Item) :
    HasThreshold Listing.limited fun limit => (listing.limited limit).emit op item :=
  (hasThreshold_apply listing.tracker op).bind fun t =>
    hasThreshold_ok Listing.limited ⟨t, listing.items.push item⟩

theorem hasThreshold_emitOp (listing : Listing) (op : Opcode) :
    HasThreshold Listing.limited fun limit => (listing.limited limit).emitOp op := by
  unfold Listing.emitOp
  cases op.isPush with
  | true => exact hasThreshold_error (by simp)
  | false => exact hasThreshold_emit listing op (.op op)

theorem hasThreshold_track (listing : Listing) (use : StackDepth → Except Error StackDepth)
    (uses : HasThreshold StackDepth.limited fun limit => use (listing.tracker.limited limit)) :
    HasThreshold Listing.limited fun limit => (listing.limited limit).track use :=
  uses.bind fun t => hasThreshold_ok Listing.limited ⟨t, listing.items⟩

end Tracking

section Trees

private def Directive.Bounded (directive : Directive) : Prop :=
  ∀ listing : Listing, HasThreshold Listing.limited fun limit =>
    directive.flatten (listing.limited limit)

private theorem hasThreshold_arguments {args : List Directive}
    (bounded : ∀ arg ∈ args, arg.Bounded) (listing : Listing) :
    HasThreshold Listing.limited fun limit => flattenArguments args (listing.limited limit) := by
  induction args generalizing listing with
  | nil =>
      simp only [flattenArguments]
      exact hasThreshold_ok _ listing
  | cons arg rest ih =>
      rw [List.forall_mem_cons] at bounded
      simp only [flattenArguments]
      -- The depth before the argument, which the depth behind it is held against, is the same under
      -- every limit.
      refine (bounded.1 listing).bind fun flat => ?_
      have left : HasThreshold Listing.limited fun limit =>
          (flat.limited limit).track (·.expect (listing.tracker.depth + 1)) :=
        hasThreshold_track flat (·.expect _) (hasThreshold_expect flat.tracker _)
      exact left.bind (ih bounded.2)

private theorem Directive.bounded (directive : Directive) : directive.Bounded := by
  induction directive with
  | op op =>
      intro listing
      exact hasThreshold_emitOp listing op
  | push value =>
      intro listing
      have encodes : HasThreshold (fun _ a => a) fun _ => value.encode := by
        refine hasThreshold_const fun depth limit fails => ?_
        cases encode_eq_error.mp fails
      simp only [Directive.flatten]
      exact encodes.bind fun immediate =>
        hasThreshold_emit listing immediate.opcode (.push immediate)
  | pushLabel name =>
      intro listing
      exact hasThreshold_emit listing (.push 0) (.pushLabel name)
  | label name =>
      intro listing
      exact hasThreshold_emit listing .jumpdest (.label name)
  | expectDepth depth =>
      intro listing
      exact hasThreshold_track listing (·.expect depth) (hasThreshold_expect listing.tracker depth)
  | setDepth depth =>
      intro listing
      exact hasThreshold_track listing (·.set depth) (hasThreshold_set listing.tracker depth)
  | call op args ih =>
      intro listing
      simp only [Directive.flatten]
      by_cases arity : args.length = op.pops
      · simp only [if_pos arity]
        exact (hasThreshold_arguments ih listing).bind fun flat => hasThreshold_emitOp flat op
      · simp only [if_neg arity]
        exact hasThreshold_error (by simp)
  | inverted slot =>
      intro listing
      have resolves : HasThreshold (fun _ a => a) fun _ => listing.tracker.resolve slot := by
        refine hasThreshold_const fun depth limit fails => ?_
        cases (resolve_eq_error.mp fails).2
      simp only [Directive.flatten]
      exact resolves.bind fun op => hasThreshold_emitOp listing op

theorem Program.hasThreshold_flattenAfter (program : Program) (listing : Listing) :
    HasThreshold Listing.limited fun limit => program.flattenAfter (listing.limited limit) := by
  induction program generalizing listing with
  | nil => exact hasThreshold_ok _ listing
  | cons directive rest ih => exact (directive.bounded listing).bind ih

theorem layOut_ne_stackOverflow (given : Option Nat) (items : List Item) (depth limit : Nat) :
    layOut given items ≠ .error (.stackOverflow depth limit) := by
  intro fails
  rcases layOut_eq_error.mp fails with wide | ⟨width, chosen, repeated | ⟨distinct, assembling⟩⟩
  · rcases labelWidth_eq_error.mp wide with ⟨_, _, _, same⟩ | ⟨_, repeated⟩
    · cases same
    · obtain ⟨_, _, _, _, _, _, same⟩ := checkDistinct_eq_error.mp repeated
      cases same
  · obtain ⟨_, _, _, _, _, _, same⟩ := checkDistinct_eq_error.mp repeated
    cases same
  · obtain ⟨_, _, _, _, _, wrong⟩ :=
      (assembleItems_eq_error (labelWidth_legal chosen) distinct).mp assembling
    cases wrong

end Trees

/-- For every program and width of label pushes there is a limit from which on the outcome is always
the same, and not that the limit is exceeded, while every smaller limit is exceeded. -/
theorem compile_limit_threshold (width : Option Nat) (program : Program) :
    ∃ least outcome,
      (∀ limit, least ≤ limit →
        compile { stackLimit := limit, labelWidth := width } program = outcome) ∧
      (∀ depth limit, outcome ≠ .error (.stackOverflow depth limit)) ∧
      ∀ limit, limit < least → ∃ depth, limit < depth ∧
        compile { stackLimit := limit, labelWidth := width } program =
          .error (.stackOverflow depth limit) := by
  have flattens : HasThreshold Listing.limited fun limit => program.flatten limit :=
    program.hasThreshold_flattenAfter (.empty 0)
  have compiles : HasThreshold (fun _ code => code) fun limit =>
      program.flatten limit >>= fun listing => layOut width listing.items.toList :=
    flattens.bind fun listing =>
      hasThreshold_const (layOut_ne_stackOverflow width listing.items.toList)
  obtain ⟨least, outcome, needs⟩ := compiles
  refine ⟨least, outcome, ?_, needs.fits, needs.exceeded⟩
  intro limit above
  rw [compile_eq_bind, needs.enough limit above]
  cases outcome <;> rfl

end StackAssembler.Assembly

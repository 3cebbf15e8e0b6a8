import StackAssembler.Proofs.Assembly.Emission

set_option autoImplicit false
set_option relaxedAutoImplicit false

namespace StackAssembler.Assembly

mutual

def Directive.depthAfter : Directive → Nat → Nat
  | .op opcode, depth => depth - opcode.pops + opcode.pushes
  | .push _, depth => depth + 1
  | .pushLabel _, depth => depth + 1
  | .label _, depth => depth
  | .expectDepth _, depth => depth
  | .setDepth declared, _ => declared
  | .call opcode args, depth => depthAfterAll args depth - opcode.pops + opcode.pushes
  | .inverted slot, depth =>
      match slot.resolve? depth with
      | some opcode => depth - opcode.pops + opcode.pushes
      | none => depth

def depthAfterAll : List Directive → Nat → Nat
  | [], depth => depth
  | directive :: rest, depth => depthAfterAll rest (directive.depthAfter depth)

end

mutual

/-- The directive without nesting and assertions, its slots resolved from the given depth on. A slot
that is out of reach stays. -/
def Directive.normal : Directive → Nat → List Directive
  | .call opcode args, depth => normalAll args depth ++ [.op opcode]
  | .expectDepth _, _ => []
  | .inverted slot, depth =>
      match slot.resolve? depth with
      | some opcode => [.op opcode]
      | none => [.inverted slot]
  | directive, _ => [directive]

def normalAll : List Directive → Nat → List Directive
  | [], _ => []
  | directive :: rest, depth =>
      directive.normal depth ++ normalAll rest (directive.depthAfter depth)

end

def Program.normal (program : Program) : Program :=
  normalAll program 0

def Directive.isNormal : Directive → Bool
  | .expectDepth _ | .call _ _ | .inverted _ => false
  | _ => true

theorem Directive.Emits.program {directive : Directive} {t u : StackDepth} {events : List Event}
    (emits : directive.Emits t events u) : Program.Emits [directive] t events u := by
  have single := Program.Emits.cons emits .nil
  rwa [List.append_nil] at single

private structure Spells (directives : Program) (t : StackDepth) (events : List Event)
    (u : StackDepth) : Prop where
  emits : directives.Emits t events u
  normal : ∀ directive ∈ directives, directive.isNormal = true

private theorem Spells.append {first second : Program} {t u v : StackDepth}
    {events others : List Event} (left : Spells first t events u) (right : Spells second u others v) :
    Spells (first ++ second) t (events ++ others) v where
  emits := left.emits.append right.emits
  normal := List.forall_mem_append.mpr ⟨left.normal, right.normal⟩

private theorem spells_single {directive : Directive} {t u : StackDepth} {events : List Event}
    (emits : directive.Emits t events u) (normal : directive.isNormal = true) :
    Spells [directive] t events u :=
  ⟨emits.program, List.forall_mem_singleton.mpr normal⟩

theorem depth_of_apply {t u : StackDepth} {op : Opcode} (applied : t.apply op = .ok u) :
    t.depth - op.pops + op.pushes = u.depth := by
  obtain ⟨_, _, rfl⟩ := apply_eq_ok.mp applied
  rfl

/-- From the tracked depth on, the normal form of the directive leaves its events, and the depth that
is counted behind it is the tracked one. -/
private def Normalizes (directive : Directive) : Prop :=
  ∀ {t u : StackDepth} {events : List Event}, directive.Emits t events u →
    Spells (directive.normal t.depth) t events u ∧ directive.depthAfter t.depth = u.depth

private theorem normalizes_arguments {args : List Directive}
    (normalizes : ∀ arg ∈ args, Normalizes arg) {t u : StackDepth} {events : List Event}
    (emits : EmitsArguments args t events u) :
    Spells (normalAll args t.depth) t events u ∧ depthAfterAll args t.depth = u.depth := by
  induction args generalizing t events with
  | nil =>
      cases emits
      exact ⟨⟨.nil, List.forall_mem_nil _⟩, rfl⟩
  | cons arg rest ih =>
      rw [List.forall_mem_cons] at normalizes
      cases emits with
      | cons first _ others =>
          obtain ⟨head, depth⟩ := normalizes.1 first
          obtain ⟨tail, behind⟩ := ih normalizes.2 others
          rw [normalAll, depthAfterAll, depth]
          exact ⟨head.append tail, behind⟩

private theorem Directive.normalizes (directive : Directive) : Normalizes directive := by
  induction directive with
  | op opcode =>
      intro t u events emits
      have spelt := spells_single emits rfl
      cases emits with
      | op _ applied => exact ⟨spelt, depth_of_apply applied⟩
  | push value =>
      intro t u events emits
      have spelt := spells_single emits rfl
      cases emits with
      | push _ applied => exact ⟨spelt, depth_of_apply applied⟩
  | pushLabel name =>
      intro t u events emits
      have spelt := spells_single emits rfl
      cases emits with
      | pushLabel applied => exact ⟨spelt, depth_of_apply applied⟩
  | label name =>
      intro t u events emits
      have spelt := spells_single emits rfl
      cases emits with
      | label applied => exact ⟨spelt, depth_of_apply applied⟩
  | expectDepth depth =>
      intro t u events emits
      cases emits with
      | expectDepth _ => exact ⟨⟨.nil, List.forall_mem_nil _⟩, rfl⟩
  | setDepth depth =>
      intro t u events emits
      have spelt := spells_single emits rfl
      cases emits with
      | setDepth declared =>
          obtain ⟨_, rfl⟩ := set_eq_ok.mp declared
          exact ⟨spelt, rfl⟩
  | call opcode args ih =>
      intro t u events emits
      cases emits with
      | @call _ _ events _ middle _ _ arguments plain applied =>
          obtain ⟨front, depth⟩ := normalizes_arguments ih arguments
          have last : Spells [.op opcode] middle [.emit middle.depth (.op opcode)] u :=
            spells_single (.op plain applied) rfl
          rw [Directive.normal, Directive.depthAfter, depth]
          exact ⟨front.append last, depth_of_apply applied⟩
  | inverted slot =>
      intro t u events emits
      cases emits with
      | @inverted _ opcode _ _ resolved plain applied =>
          have last : Spells [.op opcode] t [.emit t.depth (.op opcode)] u :=
            spells_single (.op plain applied) rfl
          simp only [Directive.normal, Directive.depthAfter, resolve_eq_ok.mp resolved]
          exact ⟨last, depth_of_apply applied⟩

private theorem Program.Emits.spells {program : Program} {t u : StackDepth} {events : List Event}
    (emits : program.Emits t events u) : Spells (normalAll program t.depth) t events u := by
  induction emits with
  | nil => exact ⟨.nil, List.forall_mem_nil _⟩
  | cons first _ ih =>
      obtain ⟨head, depth⟩ := Directive.normalizes _ first
      rw [normalAll, depth]
      exact head.append ih

theorem Program.flatten_normal {limit : Nat} {program : Program} {listing : Listing}
    (flat : program.flatten limit = .ok listing) : program.normal.flatten limit = .ok listing := by
  obtain ⟨events, emits, same⟩ := Program.flatten_eq_ok.mp flat
  exact Program.flatten_eq_ok.mpr ⟨events, emits.spells.emits, same⟩

theorem Program.isNormal_normal {limit : Nat} {program : Program} {listing : Listing}
    (flat : program.flatten limit = .ok listing) :
    ∀ directive ∈ program.normal, directive.isNormal = true := by
  obtain ⟨events, emits, _⟩ := Program.flatten_eq_ok.mp flat
  exact emits.spells.normal

theorem Directive.depthAfter_eq {directive : Directive} {listing final : Listing}
    (flat : directive.flatten listing = .ok final) :
    directive.depthAfter listing.tracker.depth = final.tracker.depth := by
  obtain ⟨t, items⟩ := listing
  obtain ⟨events, emits, _⟩ := (directive.appends t items final).mp flat
  exact (directive.normalizes emits).2

theorem depth_flatten_call {op : Opcode} {args : List Directive} {listing final : Listing}
    (flat : (Directive.call op args).flatten listing = .ok final) :
    final.tracker.depth = listing.tracker.depth + op.pushes := by
  obtain ⟨t, items⟩ := listing
  obtain ⟨events, emits, _⟩ := (Directive.appends _ t items final).mp flat
  exact emits.depth_call

theorem compile_of_flatten {options : Options} {program other : Program} {code : Bytes}
    (same : ∀ listing, program.flatten options.stackLimit = .ok listing →
      other.flatten options.stackLimit = .ok listing)
    (compiled : compile options program = .ok code) : compile options other = .ok code := by
  unfold compile at compiled ⊢
  obtain ⟨listing, flat, assembled⟩ := bind_eq_ok.mp compiled
  exact bind_eq_ok.mpr ⟨listing, same listing flat, assembled⟩

structure NormalFormFaithful (options : Options) (program : Program) : Prop where
  compiles : ∀ code, compile options program = .ok code →
    compile options program.normal = .ok code
  /-- Neither calls nor assertions nor slots are left of a program that compiles. -/
  spelt : ∀ code, compile options program = .ok code →
    ∀ directive ∈ program.normal, directive.isNormal = true
  /-- The depth at which slots are resolved is the one that flattening tracks. -/
  tracked : ∀ (directive : Directive) (listing final : Listing),
    directive.flatten listing = .ok final →
      directive.depthAfter listing.tracker.depth = final.tracker.depth
  /-- Every call that can be flattened leaves as many words as its opcode pushes. -/
  calls : ∀ (op : Opcode) (args : List Directive) (listing final : Listing),
    (Directive.call op args).flatten listing = .ok final →
      final.tracker.depth = listing.tracker.depth + op.pushes

theorem normal_form_faithful (options : Options) (program : Program) :
    NormalFormFaithful options program where
  compiles _ compiled := compile_of_flatten (fun _ flat => Program.flatten_normal flat) compiled
  spelt code compiled := by
    unfold compile at compiled
    obtain ⟨listing, flat, _⟩ := bind_eq_ok.mp compiled
    exact Program.isNormal_normal flat
  tracked _ _ _ flat := Directive.depthAfter_eq flat
  calls _ _ _ _ flat := depth_flatten_call flat

/-- An argument that declares the depth, and slots inside calls that are resolved behind it. -/
def entangled : Program :=
  [.op .pc, .call .iszero [.setDepth 2], .expectDepth 2,
    .call .sub [.inverted (.dup 1), .call .not [.inverted (.dup 2)]]]

theorem normal_form_faithful_entangled :
    compile {} entangled = .ok #[88, 21, 129, 129, 25, 3] ∧
      entangled.normal = [.op .pc, .setDepth 2, .op .iszero, .op (.dup 1), .op (.dup 1), .op .not,
        .op .sub] ∧
      compile {} entangled.normal = .ok #[88, 21, 129, 129, 25, 3] := by
  have compiled : compile {} entangled = .ok #[88, 21, 129, 129, 25, 3] := by decide +kernel
  exact ⟨compiled, by decide +kernel, (normal_form_faithful {} entangled).compiles _ compiled⟩

end StackAssembler.Assembly

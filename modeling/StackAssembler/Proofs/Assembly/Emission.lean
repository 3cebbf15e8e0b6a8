import StackAssembler.Assembly.Layout
import StackAssembler.Proofs.Failure

/-!
Flattening as a relation. Every directive leaves a sequence of events: items emitted at a tracked
depth, and declarations of the depth. Flattening succeeds exactly when there is such a sequence, the
events form one unbroken account of the depth, and the nodes of the tree cause them one by one.
-/

set_option autoImplicit false
set_option relaxedAutoImplicit false

namespace StackAssembler.Assembly

@[induction_eliminator]
theorem Directive.induction {motive : Directive → Prop}
    (op : ∀ opcode, motive (.op opcode))
    (push : ∀ value, motive (.push value))
    (pushLabel : ∀ name, motive (.pushLabel name))
    (label : ∀ name, motive (.label name))
    (expectDepth : ∀ depth, motive (.expectDepth depth))
    (setDepth : ∀ depth, motive (.setDepth depth))
    (call : ∀ opcode args, (∀ arg ∈ args, motive arg) → motive (.call opcode args))
    (inverted : ∀ slot, motive (.inverted slot)) (directive : Directive) : motive directive :=
  @Directive.rec motive (fun args => ∀ arg ∈ args, motive arg) op push pushLabel label expectDepth
    setDepth call inverted (fun _ member => nomatch member)
    (fun _ _ head tail => List.forall_mem_cons.mpr ⟨head, tail⟩) directive

/-- What happens while a program is flattened: an item is emitted at a tracked depth, or the depth
is declared. -/
inductive Event
  | emit (depth : Nat) (item : Item)
  | declare (depth : Nat)
  deriving DecidableEq

def Event.item? : Event → Option Item
  | .emit _ item => some item
  | .declare _ => none

def emitted (events : List Event) : List Item :=
  events.filterMap Event.item?

mutual

/-- The events of a directive between two states of the tracker. -/
inductive Directive.Emits : Directive → StackDepth → List Event → StackDepth → Prop
  | op {op : Opcode} {t u : StackDepth} :
      op.isPush = false → t.apply op = .ok u →
      Directive.Emits (.op op) t [.emit t.depth (.op op)] u
  | push {value : Constant} {immediate : Immediate} {t u : StackDepth} :
      value.encode = .ok immediate → t.apply immediate.opcode = .ok u →
      Directive.Emits (.push value) t [.emit t.depth (.push immediate)] u
  | pushLabel {name : String} {t u : StackDepth} :
      t.apply (.push 0) = .ok u →
      Directive.Emits (.pushLabel name) t [.emit t.depth (.pushLabel name)] u
  | label {name : String} {t u : StackDepth} :
      t.apply .jumpdest = .ok u → Directive.Emits (.label name) t [.emit t.depth (.label name)] u
  | expectDepth {depth : Nat} {t : StackDepth} :
      t.depth = depth → Directive.Emits (.expectDepth depth) t [] t
  | setDepth {depth : Nat} {t u : StackDepth} :
      t.set depth = .ok u → Directive.Emits (.setDepth depth) t [.declare depth] u
  | call {op : Opcode} {args : List Directive} {events : List Event} {t u v : StackDepth} :
      args.length = op.pops → EmitsArguments args t events u →
      op.isPush = false → u.apply op = .ok v →
      Directive.Emits (.call op args) t (events ++ [.emit u.depth (.op op)]) v
  | inverted {slot : Slot} {op : Opcode} {t u : StackDepth} :
      t.resolve slot = .ok op → op.isPush = false → t.apply op = .ok u →
      Directive.Emits (.inverted slot) t [.emit t.depth (.op op)] u

inductive EmitsArguments : List Directive → StackDepth → List Event → StackDepth → Prop
  | nil {t : StackDepth} : EmitsArguments [] t [] t
  | cons {arg : Directive} {rest : List Directive} {first others : List Event}
      {t u v : StackDepth} :
      arg.Emits t first u → u.depth = t.depth + 1 → EmitsArguments rest u others v →
      EmitsArguments (arg :: rest) t (first ++ others) v

end

inductive Program.Emits : Program → StackDepth → List Event → StackDepth → Prop
  | nil {t : StackDepth} : Emits [] t [] t
  | cons {directive : Directive} {rest : Program} {first others : List Event}
      {t u v : StackDepth} :
      directive.Emits t first u → Emits rest u others v →
      Emits (directive :: rest) t (first ++ others) v

theorem Program.Emits.append {first second : Program} {t u v : StackDepth}
    {events others : List Event} (left : first.Emits t events u) (right : second.Emits u others v) :
    Program.Emits (first ++ second) t (events ++ others) v := by
  induction left with
  | nil => exact right
  | @cons directive rest head tail t u v emits _ ih =>
      have joined := Program.Emits.cons emits (ih right)
      rwa [← List.append_assoc] at joined

theorem Program.Emits.split {first second : Program} {t v : StackDepth} {events : List Event}
    (emits : Program.Emits (first ++ second) t events v) :
    ∃ left right u, events = left ++ right ∧ first.Emits t left u ∧ second.Emits u right v := by
  induction first generalizing t events with
  | nil => exact ⟨[], events, t, rfl, .nil, emits⟩
  | cons directive rest ih =>
      cases emits with
      | @cons _ _ head _ _ _ _ emits others =>
          obtain ⟨left, right, u, rfl, front, back⟩ := ih others
          exact ⟨head ++ left, right, u, (List.append_assoc ..).symm, .cons emits front, back⟩

theorem emit_eq_ok {t : StackDepth} {items : Array Item} {op : Opcode} {item : Item}
    {listing : Listing} :
    Listing.emit ⟨t, items⟩ op item = .ok listing ↔
      t.apply op = .ok listing.tracker ∧ listing.items = items.push item := by
  simp only [Listing.emit, bind_eq_ok]
  constructor
  · rintro ⟨u, applied, same⟩
    cases same
    exact ⟨applied, rfl⟩
  · rintro ⟨applied, same⟩
    exact ⟨_, applied, by rw [← same]; rfl⟩

theorem emitOp_eq_ok {t : StackDepth} {items : Array Item} {op : Opcode} {listing : Listing} :
    Listing.emitOp ⟨t, items⟩ op = .ok listing ↔
      op.isPush = false ∧ t.apply op = .ok listing.tracker ∧ listing.items = items.push (.op op) := by
  unfold Listing.emitOp
  cases op.isPush with
  | true => simp
  | false => simpa using emit_eq_ok

theorem track_eq_ok {t : StackDepth} {items : Array Item}
    {use : StackDepth → Except Error StackDepth} {listing : Listing} :
    Listing.track ⟨t, items⟩ use = .ok listing ↔
      use t = .ok listing.tracker ∧ listing.items = items := by
  simp only [Listing.track, bind_eq_ok]
  constructor
  · rintro ⟨u, used, same⟩
    cases same
    exact ⟨used, rfl⟩
  · rintro ⟨used, same⟩
    exact ⟨_, used, by rw [← same]; rfl⟩

theorem expect_eq_ok {t u : StackDepth} {depth : Nat} :
    t.expect depth = .ok u ↔ t.depth = depth ∧ u = t := by
  rw [StackDepth.expect_eq]
  split <;> simp_all [eq_comm]

@[simp] theorem emitted_nil : emitted [] = [] := rfl

@[simp] theorem emitted_append (first second : List Event) :
    emitted (first ++ second) = emitted first ++ emitted second :=
  List.filterMap_append

@[simp] theorem emitted_emit (depth : Nat) (item : Item) (rest : List Event) :
    emitted (.emit depth item :: rest) = item :: emitted rest := rfl

@[simp] theorem emitted_declare (depth : Nat) (rest : List Event) :
    emitted (.declare depth :: rest) = emitted rest := rfl

def Directive.Appends (directive : Directive) : Prop :=
  ∀ (t : StackDepth) (items : Array Item) (listing : Listing),
    directive.flatten ⟨t, items⟩ = .ok listing ↔
      ∃ events, directive.Emits t events listing.tracker ∧
        listing.items = items ++ (emitted events).toArray

private theorem flattenArguments_eq_ok {args : List Directive} (appends : ∀ arg ∈ args, arg.Appends)
    (t : StackDepth) (items : Array Item) (listing : Listing) :
    flattenArguments args ⟨t, items⟩ = .ok listing ↔
      ∃ events, EmitsArguments args t events listing.tracker ∧
        listing.items = items ++ (emitted events).toArray := by
  induction args generalizing t items with
  | nil =>
      rw [flattenArguments]
      constructor
      · intro same
        cases same
        exact ⟨[], .nil, by simp⟩
      · rintro ⟨events, emits, same⟩
        cases emits
        rw [Except.ok.injEq]
        simp at same
        rw [← same]
  | cons arg rest ih =>
      rw [List.forall_mem_cons] at appends
      simp only [flattenArguments, bind_eq_ok]
      constructor
      · rintro ⟨⟨u, between⟩, flat, ⟨v, after⟩, tracked, remaining⟩
        obtain ⟨first, emits, rfl⟩ := (appends.1 t items ⟨u, between⟩).mp flat
        obtain ⟨expected, rfl⟩ := track_eq_ok.mp tracked
        obtain ⟨grown, rfl⟩ := expect_eq_ok.mp expected
        obtain ⟨others, others_emit, same⟩ := (ih appends.2 v _).mp remaining
        refine ⟨first ++ others, .cons emits grown others_emit, ?_⟩
        simp [same]
      · rintro ⟨events, emits, same⟩
        cases emits with
        | @cons _ _ first others _ u _ emits grown others_emit =>
          refine ⟨⟨u, items ++ (emitted first).toArray⟩, (appends.1 t items _).mpr ⟨first, emits, rfl⟩,
            ⟨u, items ++ (emitted first).toArray⟩,
            track_eq_ok.mpr ⟨expect_eq_ok.mpr ⟨grown, rfl⟩, rfl⟩, ?_⟩
          exact (ih appends.2 u _).mpr ⟨others, others_emit, by simp [same]⟩

theorem Directive.appends (directive : Directive) : directive.Appends := by
  induction directive with
  | op op =>
      intro t items listing
      simp only [Directive.flatten, emitOp_eq_ok]
      constructor
      · rintro ⟨plain, applied, same⟩
        exact ⟨_, .op plain applied, by simp [same]⟩
      · rintro ⟨events, emits, same⟩
        cases emits with
        | op plain applied => exact ⟨plain, applied, by simp [same]⟩
  | push value =>
      intro t items listing
      simp only [Directive.flatten, bind_eq_ok, emit_eq_ok]
      constructor
      · rintro ⟨immediate, encoded, applied, same⟩
        exact ⟨_, .push encoded applied, by simp [same]⟩
      · rintro ⟨events, emits, same⟩
        cases emits with
        | push encoded applied => exact ⟨_, encoded, applied, by simp [same]⟩
  | pushLabel name =>
      intro t items listing
      simp only [Directive.flatten, emit_eq_ok]
      constructor
      · rintro ⟨applied, same⟩
        exact ⟨_, .pushLabel applied, by simp [same]⟩
      · rintro ⟨events, emits, same⟩
        cases emits with
        | pushLabel applied => exact ⟨applied, by simp [same]⟩
  | label name =>
      intro t items listing
      simp only [Directive.flatten, emit_eq_ok]
      constructor
      · rintro ⟨applied, same⟩
        exact ⟨_, .label applied, by simp [same]⟩
      · rintro ⟨events, emits, same⟩
        cases emits with
        | label applied => exact ⟨applied, by simp [same]⟩
  | expectDepth depth =>
      intro t items ⟨u, after⟩
      simp only [Directive.flatten, track_eq_ok, expect_eq_ok]
      constructor
      · rintro ⟨⟨reached, rfl⟩, rfl⟩
        exact ⟨[], .expectDepth reached, by simp⟩
      · rintro ⟨events, emits, same⟩
        cases emits with
        | expectDepth reached => exact ⟨⟨reached, rfl⟩, by simp [same]⟩
  | setDepth depth =>
      intro t items listing
      simp only [Directive.flatten, track_eq_ok]
      constructor
      · rintro ⟨declared, same⟩
        exact ⟨_, .setDepth declared, by simp [same]⟩
      · rintro ⟨events, emits, same⟩
        cases emits with
        | setDepth declared => exact ⟨declared, by simp [same]⟩
  | call op args ih =>
      intro t items listing
      rw [Directive.flatten]
      constructor
      · intro flat
        split at flat
        · rename_i arity
          obtain ⟨⟨u, between⟩, arguments, last⟩ := bind_eq_ok.mp flat
          obtain ⟨events, emits, rfl⟩ := (flattenArguments_eq_ok ih t items _).mp arguments
          obtain ⟨plain, applied, same⟩ := emitOp_eq_ok.mp last
          exact ⟨_, .call arity emits plain applied, by simp [same]⟩
        · cases flat
      · rintro ⟨events, emits, same⟩
        cases emits with
        | @call _ _ events _ u _ arity emits plain applied =>
          rw [if_pos arity, bind_eq_ok]
          refine ⟨⟨u, items ++ (emitted events).toArray⟩,
            (flattenArguments_eq_ok ih t items _).mpr ⟨events, emits, rfl⟩, ?_⟩
          exact emitOp_eq_ok.mpr ⟨plain, applied, by simp [same]⟩
  | inverted slot =>
      intro t items listing
      simp only [Directive.flatten, bind_eq_ok, emitOp_eq_ok]
      constructor
      · rintro ⟨op, resolved, plain, applied, same⟩
        exact ⟨_, .inverted resolved plain applied, by simp [same]⟩
      · rintro ⟨events, emits, same⟩
        cases emits with
        | inverted resolved plain applied => exact ⟨_, resolved, plain, applied, by simp [same]⟩

theorem Program.flattenAfter_eq_ok (program : Program) (t : StackDepth) (items : Array Item)
    (listing : Listing) :
    program.flattenAfter ⟨t, items⟩ = .ok listing ↔
      ∃ events, program.Emits t events listing.tracker ∧
        listing.items = items ++ (emitted events).toArray := by
  induction program generalizing t items with
  | nil =>
      constructor
      · intro same
        cases same
        exact ⟨[], .nil, by simp⟩
      · rintro ⟨events, emits, same⟩
        cases emits
        have unchanged : listing.items = items := by simpa using same
        rw [← unchanged]
        rfl
  | cons directive rest ih =>
      unfold Program.flattenAfter at ih ⊢
      rw [List.foldlM_cons, bind_eq_ok]
      constructor
      · rintro ⟨⟨u, between⟩, flat, remaining⟩
        obtain ⟨first, emits, rfl⟩ := (directive.appends t items ⟨u, between⟩).mp flat
        obtain ⟨others, others_emit, same⟩ := (ih u _).mp remaining
        exact ⟨first ++ others, .cons emits others_emit, by simp [same]⟩
      · rintro ⟨events, emits, same⟩
        cases emits with
        | @cons _ _ first others _ u _ emits others_emit =>
          refine ⟨⟨u, items ++ (emitted first).toArray⟩,
            (directive.appends t items _).mpr ⟨first, emits, rfl⟩, ?_⟩
          exact (ih u _).mpr ⟨others, others_emit, by simp [same]⟩

theorem Program.flatten_eq_ok {limit : Nat} {program : Program} {listing : Listing} :
    program.flatten limit = .ok listing ↔
      ∃ events, program.Emits { limit } events listing.tracker ∧
        listing.items.toList = emitted events := by
  rw [Program.flatten, Listing.empty, Program.flattenAfter_eq_ok]
  constructor
  · rintro ⟨events, emits, same⟩
    exact ⟨events, emits, by simp [same]⟩
  · rintro ⟨events, emits, same⟩
    exact ⟨events, emits, by rw [← same]; simp⟩

theorem apply_eq_ok {t u : StackDepth} {op : Opcode} :
    t.apply op = .ok u ↔ op.pops ≤ t.depth ∧ t.depth - op.pops + op.pushes ≤ t.limit ∧
      u = ⟨t.depth - op.pops + op.pushes, t.limit⟩ := by
  rw [StackDepth.apply_eq, StackDepth.set_eq]
  split
  · simp only [reduceCtorEq, false_iff]
    omega
  · split
    · simp only [Except.ok.injEq]
      constructor
      · rintro rfl
        exact ⟨by omega, by assumption, rfl⟩
      · rintro ⟨_, _, rfl⟩
        rfl
    · simp only [reduceCtorEq, false_iff]
      omega

theorem set_eq_ok {t u : StackDepth} {depth : Nat} :
    t.set depth = .ok u ↔ depth ≤ t.limit ∧ u = ⟨depth, t.limit⟩ := by
  rw [StackDepth.set_eq]
  split
  · simp_all [eq_comm]
  · simp only [reduceCtorEq, false_iff]
    omega

theorem resolve_eq_ok {t : StackDepth} {slot : Slot} {op : Opcode} :
    t.resolve slot = .ok op ↔ slot.resolve? t.depth = some op := by
  unfold StackDepth.resolve
  cases slot.resolve? t.depth with
  | none => simp
  | some found => simp

def Item.pops : Item → Nat
  | .op opcode => opcode.pops
  | _ => 0

def Item.pushes : Item → Nat
  | .op opcode => opcode.pushes
  | .push _ | .pushLabel _ => 1
  | .label _ => 0

/-- Events in which every item meets the depth that the one before it left. -/
inductive Tracks (limit : Nat) : Nat → List Event → Nat → Prop
  | nil {depth : Nat} : Tracks limit depth [] depth
  | emit {depth final : Nat} {item : Item} {rest : List Event} :
      item.pops ≤ depth → depth - item.pops + item.pushes ≤ limit →
      Tracks limit (depth - item.pops + item.pushes) rest final →
      Tracks limit depth (.emit depth item :: rest) final
  | declare {depth declared final : Nat} {rest : List Event} :
      declared ≤ limit → Tracks limit declared rest final →
      Tracks limit depth (.declare declared :: rest) final

theorem Tracks.append {limit a b c : Nat} {first second : List Event}
    (left : Tracks limit a first b) (right : Tracks limit b second c) :
    Tracks limit a (first ++ second) c := by
  induction left with
  | nil => exact right
  | emit enough fits _ ih => exact .emit enough fits (ih right)
  | declare fits _ ih => exact .declare fits (ih right)

theorem Tracks.split {limit a c : Nat} {first second : List Event}
    (tracks : Tracks limit a (first ++ second) c) :
    ∃ b, Tracks limit a first b ∧ Tracks limit b second c := by
  induction first generalizing a with
  | nil => exact ⟨a, .nil, tracks⟩
  | cons event rest ih =>
      cases tracks with
      | emit enough fits tracks =>
          obtain ⟨b, left, right⟩ := ih tracks
          exact ⟨b, .emit enough fits left, right⟩
      | declare fits tracks =>
          obtain ⟨b, left, right⟩ := ih tracks
          exact ⟨b, .declare fits left, right⟩

theorem Tracks.le_limit {limit a b : Nat} {events : List Event} (tracks : Tracks limit a events b)
    (low : a ≤ limit) : b ≤ limit := by
  induction tracks with
  | nil => exact low
  | emit _ fits _ ih => exact ih fits
  | declare fits _ ih => exact ih fits

theorem Tracks.item_fits {limit a b depth : Nat} {before after : List Event} {item : Item}
    (tracks : Tracks limit a (before ++ .emit depth item :: after) b) (low : a ≤ limit) :
    item.pops ≤ depth ∧ depth ≤ limit ∧ depth - item.pops + item.pushes ≤ limit := by
  obtain ⟨middle, left, right⟩ := tracks.split
  have reached : middle ≤ limit := left.le_limit low
  cases right with
  | emit enough fits _ => exact ⟨enough, reached, fits⟩

theorem Tracks.depth_succ {limit a b depth depth' : Nat} {before after : List Event}
    {item item' : Item}
    (tracks : Tracks limit a (before ++ .emit depth item :: .emit depth' item' :: after) b) :
    depth' = depth - item.pops + item.pushes := by
  obtain ⟨middle, _, right⟩ := tracks.split
  cases right with
  | emit _ _ rest =>
      cases rest with
      | emit _ _ _ => rfl

theorem EmitsArguments.program {args : List Directive} {t u : StackDepth} {events : List Event}
    (emits : EmitsArguments args t events u) : Program.Emits args t events u := by
  induction args generalizing t events with
  | nil =>
      cases emits
      exact .nil
  | cons arg rest ih =>
      cases emits with
      | cons first _ others => exact .cons first (ih others)

private theorem tracks_single {t u : StackDepth} {op : Opcode} {item : Item}
    (pops : item.pops = op.pops) (pushes : item.pushes = op.pushes) (applied : t.apply op = .ok u) :
    Tracks t.limit t.depth [.emit t.depth item] u.depth ∧ u.limit = t.limit := by
  obtain ⟨enough, fits, rfl⟩ := apply_eq_ok.mp applied
  rw [← pops] at enough fits ⊢
  rw [← pushes] at fits ⊢
  exact ⟨.emit enough fits .nil, rfl⟩

private theorem tracks_arguments {args : List Directive}
    (tracks : ∀ arg ∈ args, ∀ t events u, arg.Emits t events u →
      Tracks t.limit t.depth events u.depth ∧ u.limit = t.limit)
    {t u : StackDepth} {events : List Event} (emits : EmitsArguments args t events u) :
    Tracks t.limit t.depth events u.depth ∧ u.limit = t.limit := by
  induction args generalizing t events with
  | nil =>
      cases emits
      exact ⟨.nil, rfl⟩
  | cons arg rest ih =>
      rw [List.forall_mem_cons] at tracks
      cases emits with
      | cons first _ others =>
          obtain ⟨left, same⟩ := tracks.1 _ _ _ first
          obtain ⟨right, same'⟩ := ih tracks.2 others
          rw [same] at right same'
          exact ⟨left.append right, same'⟩

theorem Directive.Emits.tracks {directive : Directive} {t u : StackDepth} {events : List Event}
    (emits : directive.Emits t events u) :
    Tracks t.limit t.depth events u.depth ∧ u.limit = t.limit := by
  induction directive generalizing t events u with
  | op op =>
      cases emits with
      | op plain applied => exact tracks_single rfl rfl applied
  | push value =>
      cases emits with
      | push encoded applied => exact tracks_single rfl rfl applied
  | pushLabel name =>
      cases emits with
      | pushLabel applied => exact tracks_single rfl rfl applied
  | label name =>
      cases emits with
      | label applied => exact tracks_single rfl rfl applied
  | expectDepth depth =>
      cases emits with
      | expectDepth reached => exact ⟨.nil, rfl⟩
  | setDepth depth =>
      cases emits with
      | setDepth declared =>
          obtain ⟨fits, rfl⟩ := set_eq_ok.mp declared
          exact ⟨.declare fits .nil, rfl⟩
  | call op args ih =>
      cases emits with
      | @call _ _ events _ middle _ arity arguments plain applied =>
          obtain ⟨left, same⟩ := tracks_arguments (fun arg member _ _ _ => ih arg member) arguments
          have last : Tracks middle.limit middle.depth [.emit middle.depth (.op op)] u.depth ∧
              u.limit = middle.limit := tracks_single rfl rfl applied
          obtain ⟨right, same'⟩ := last
          rw [same] at right same'
          exact ⟨left.append right, same'⟩
  | inverted slot =>
      cases emits with
      | inverted resolved plain applied => exact tracks_single rfl rfl applied

theorem Program.Emits.tracks {program : Program} {t u : StackDepth} {events : List Event}
    (emits : program.Emits t events u) :
    Tracks t.limit t.depth events u.depth ∧ u.limit = t.limit := by
  induction emits with
  | nil => exact ⟨.nil, rfl⟩
  | cons first _ ih =>
      obtain ⟨left, same⟩ := first.tracks
      obtain ⟨right, same'⟩ := ih
      rw [same] at right same'
      exact ⟨left.append right, same'⟩

theorem EmitsArguments.depth_eq {args : List Directive} {t u : StackDepth} {events : List Event}
    (emits : EmitsArguments args t events u) : u.depth = t.depth + args.length := by
  induction args generalizing t events with
  | nil =>
      cases emits
      rfl
  | cons arg rest ih =>
      cases emits with
      | cons _ grown others =>
          rw [ih others, grown, List.length_cons]
          omega

theorem Directive.Emits.depth_call {op : Opcode} {args : List Directive} {t u : StackDepth}
    {events : List Event} (emits : (Directive.call op args).Emits t events u) :
    u.depth = t.depth + op.pushes := by
  cases emits with
  | call arity arguments _ applied =>
      obtain ⟨_, _, rfl⟩ := apply_eq_ok.mp applied
      rw [arguments.depth_eq, arity, Nat.add_sub_cancel]

mutual

/-- A directive behind everything nested in it. -/
def Directive.nodes : Directive → List Directive
  | .call opcode args => nodesOf args ++ [.call opcode args]
  | directive => [directive]

def nodesOf : List Directive → List Directive
  | [] => []
  | directive :: rest => directive.nodes ++ nodesOf rest

end

theorem mem_nodesOf {node : Directive} {directives : List Directive} :
    node ∈ nodesOf directives ↔ ∃ directive ∈ directives, node ∈ directive.nodes := by
  induction directives with
  | nil => simp [nodesOf]
  | cons directive rest ih => simp [nodesOf, ih]

def Directive.isAssertion : Directive → Bool
  | .expectDepth _ => true
  | _ => false

def sources (nodes : List Directive) : List Directive :=
  nodes.filter fun node => !node.isAssertion

@[simp] theorem sources_append (first second : List Directive) :
    sources (first ++ second) = sources first ++ sources second :=
  List.filter_append first second

theorem filterMap_sources {α : Type} {f : Directive → Option α} {nodes : List Directive}
    (silent : ∀ depth, f (.expectDepth depth) = none) :
    (sources nodes).filterMap f = nodes.filterMap f := by
  rw [sources, List.filterMap_filter]
  apply List.filterMap_congr
  intro node _
  cases node with
  | expectDepth depth => exact (silent depth).symm
  | _ => rfl

/-- The node from which an event comes. -/
inductive Directive.Causes : Directive → Event → Prop
  | op {opcode : Opcode} {depth : Nat} :
      opcode.isPush = false → Causes (.op opcode) (.emit depth (.op opcode))
  | push {value : Constant} {immediate : Immediate} {depth : Nat} :
      value.encode = .ok immediate → Causes (.push value) (.emit depth (.push immediate))
  | pushLabel {name : String} {depth : Nat} :
      Causes (.pushLabel name) (.emit depth (.pushLabel name))
  | label {name : String} {depth : Nat} : Causes (.label name) (.emit depth (.label name))
  | setDepth {depth : Nat} : Causes (.setDepth depth) (.declare depth)
  | call {opcode : Opcode} {args : List Directive} {depth : Nat} :
      opcode.isPush = false → Causes (.call opcode args) (.emit depth (.op opcode))
  | inverted {slot : Slot} {opcode : Opcode} {depth : Nat} :
      slot.resolve? depth = some opcode → opcode.isPush = false →
      Causes (.inverted slot) (.emit depth (.op opcode))

private theorem sources_arguments {args : List Directive}
    (caused : ∀ arg ∈ args, ∀ t events u, arg.Emits t events u →
      List.Forall₂ Directive.Causes (sources arg.nodes) events)
    {t u : StackDepth} {events : List Event} (emits : EmitsArguments args t events u) :
    List.Forall₂ Directive.Causes (sources (nodesOf args)) events := by
  induction args generalizing t events with
  | nil =>
      cases emits
      exact .nil
  | cons arg rest ih =>
      rw [List.forall_mem_cons] at caused
      cases emits with
      | cons first _ others =>
          rw [nodesOf, sources_append]
          exact List.rel_append (caused.1 _ _ _ first) (ih caused.2 others)

/-- The nodes of a directive cause its events one by one. -/
theorem Directive.Emits.paired {directive : Directive} {t u : StackDepth} {events : List Event}
    (emits : directive.Emits t events u) :
    List.Forall₂ Directive.Causes (sources directive.nodes) events := by
  induction directive generalizing t events u with
  | op opcode =>
      cases emits with
      | op plain _ => exact .cons (.op plain) .nil
  | push value =>
      cases emits with
      | push encoded _ => exact .cons (.push encoded) .nil
  | pushLabel name =>
      cases emits with
      | pushLabel _ => exact .cons .pushLabel .nil
  | label name =>
      cases emits with
      | label _ => exact .cons .label .nil
  | expectDepth depth =>
      cases emits with
      | expectDepth _ => exact .nil
  | setDepth depth =>
      cases emits with
      | setDepth _ => exact .cons .setDepth .nil
  | call opcode args ih =>
      cases emits with
      | call _ arguments plain _ =>
          rw [Directive.nodes, sources_append]
          exact List.rel_append
            (sources_arguments (fun arg inside _ _ _ => ih arg inside) arguments)
            (.cons (.call plain) .nil)
  | inverted slot =>
      cases emits with
      | inverted resolved plain _ =>
          exact .cons (.inverted (resolve_eq_ok.mp resolved) plain) .nil

theorem Program.Emits.paired {program : Program} {t u : StackDepth} {events : List Event}
    (emits : program.Emits t events u) :
    List.Forall₂ Directive.Causes (sources (nodesOf program)) events := by
  induction emits with
  | nil => exact .nil
  | cons first _ ih =>
      rw [nodesOf, sources_append]
      exact List.rel_append first.paired ih

private theorem exists_cause {nodes : List Directive} {events : List Event}
    (paired : List.Forall₂ Directive.Causes nodes events) :
    ∀ event ∈ events, ∃ node ∈ nodes, node.Causes event := by
  induction paired with
  | nil =>
      intro event member
      cases member
  | cons causes _ ih =>
      refine List.forall_mem_cons.mpr ⟨⟨_, List.mem_cons_self, causes⟩, ?_⟩
      intro event member
      obtain ⟨node, inside, causes⟩ := ih event member
      exact ⟨node, List.mem_cons_of_mem _ inside, causes⟩

theorem Program.Emits.caused {program : Program} {t u : StackDepth} {events : List Event}
    (emits : program.Emits t events u) :
    ∀ event ∈ events, ∃ node ∈ nodesOf program, node.Causes event := by
  intro event member
  obtain ⟨node, inside, causes⟩ := exists_cause emits.paired event member
  exact ⟨node, List.mem_of_mem_filter inside, causes⟩

end StackAssembler.Assembly

import StackAssembler.Proofs.ItemExecution
import StackAssembler.Proofs.Machine.Crossing
import StackAssembler.Sample

/-!
Arguments of calls. All that is checked of an argument is that the depth is one more behind it than
before it. Where no depth is declared that is enough: no instruction in it can take more than the
arguments of its own call have left, none can end the run or jump, and so the code of the argument is
crossed from end to end and leaves one word on the stack that it was entered with.
-/

set_option autoImplicit false
set_option relaxedAutoImplicit false

namespace StackAssembler

open Assembly Machine

def Opcode.isControl : Opcode → Bool
  | .stop | .jump | .jumpi | .jumpdest | .ret | .revert | .invalid | .selfdestruct => true
  | _ => false

theorem Opcode.isControl_eq_false {op : Opcode} (leaves : op.pushes ≠ 0) : op.isControl = false := by
  cases op
  case stop | jump | jumpi | jumpdest | ret | revert | invalid | selfdestruct => exact absurd rfl leaves
  all_goals rfl

namespace Assembly

def Directive.declaresDepth : Directive → Bool
  | .setDepth _ => true
  | _ => false

def Directive.isControl : Directive → Bool
  | .op opcode | .call opcode _ => opcode.isControl
  | .label _ => true
  | _ => false

/-- An argument of a call in the directive, at any depth, with what is flattened before it. -/
inductive Directive.Holds : Directive → List Directive → Directive → Prop
  | argument {op : Opcode} {front back : List Directive} {arg : Directive} :
      Holds (.call op (front ++ arg :: back)) front arg
  | nested {op : Opcode} {front inside back : List Directive} {inner arg : Directive} :
      Holds inner inside arg → Holds (.call op (front ++ inner :: back)) (front ++ inside) arg

inductive Program.Holds : Program → Program → Directive → Prop
  | intro {front inside back : List Directive} {directive arg : Directive} :
      directive.Holds inside arg → Holds (front ++ directive :: back) (front ++ inside) arg

private theorem EmitsArguments.split {first second : List Directive} {t v : StackDepth}
    {events : List Event} (emits : EmitsArguments (first ++ second) t events v) :
    ∃ left right u, events = left ++ right ∧ EmitsArguments first t left u ∧
      EmitsArguments second u right v := by
  induction first generalizing t events with
  | nil => exact ⟨[], events, t, rfl, .nil, emits⟩
  | cons arg rest ih =>
      cases emits with
      | @cons _ _ head _ _ _ _ emits grown others =>
          obtain ⟨left, right, u, rfl, front, back⟩ := ih others
          exact ⟨head ++ left, right, u, (List.append_assoc ..).symm, .cons emits grown front, back⟩

private structure Raises (before : Program) (arg : Directive) (t : StackDepth) (events : List Event)
    (front inner : List Event) (u v : StackDepth) : Prop where
  parts : ∃ back, events = front ++ (inner ++ back)
  reached : before.Emits t front u
  emits : arg.Emits u inner v
  grown : v.depth = u.depth + 1

private theorem Raises.behind {before others : Program} {arg : Directive} {t u v w : StackDepth}
    {first events last front inner : List Event} (raises : Raises others arg u events front inner v w)
    (emits : before.Emits t first u) :
    Raises (before ++ others) arg t (first ++ (events ++ last)) (first ++ front) inner v w := by
  obtain ⟨back, parts⟩ := raises.parts
  refine ⟨⟨back ++ last, ?_⟩, emits.append raises.reached, raises.emits, raises.grown⟩
  simp only [parts, List.append_assoc]

private theorem Directive.Holds.raises {directive arg : Directive} {inside : List Directive}
    (holds : directive.Holds inside arg) {t w : StackDepth} {events : List Event}
    (emits : directive.Emits t events w) :
    ∃ front inner u v, Raises inside arg t events front inner u v := by
  induction holds generalizing t events w with
  | argument =>
      cases emits with
      | call _ arguments _ _ =>
          obtain ⟨left, _, u, rfl, front, remaining⟩ := arguments.split
          cases remaining with
          | @cons _ _ first _ _ v _ emits grown _ =>
              rw [List.append_assoc, List.append_assoc]
              exact ⟨left, first, u, v, ⟨_, rfl⟩, front.program, emits, grown⟩
  | nested _ ih =>
      cases emits with
      | call _ arguments _ _ =>
          obtain ⟨left, _, u, rfl, front, remaining⟩ := arguments.split
          cases remaining with
          | cons emits _ _ =>
              obtain ⟨_, _, _, _, raises⟩ := ih emits
              rw [List.append_assoc, List.append_assoc]
              exact ⟨_, _, _, _, raises.behind front.program⟩

private theorem Program.Holds.raises {program before : Program} {arg : Directive}
    (holds : program.Holds before arg) {t w : StackDepth} {events : List Event}
    (emits : program.Emits t events w) :
    ∃ front inner u v, Raises before arg t events front inner u v := by
  obtain ⟨holds⟩ := holds
  obtain ⟨left, _, u, rfl, front, remaining⟩ := emits.split
  cases remaining with
  | cons single _ =>
      obtain ⟨_, _, _, _, raises⟩ := holds.raises single
      exact ⟨_, _, _, _, raises.behind front⟩

private theorem growing_of_apply {t u : StackDepth} {op : Opcode} (applied : t.apply op = .ok u)
    (grown : u.depth = t.depth + 1) : op.pushes = op.pops + 1 ∧ op.pops ≤ t.depth := by
  obtain ⟨enough, _, rfl⟩ := apply_eq_ok.mp applied
  have total : t.depth - op.pops + op.pushes = t.depth + 1 := grown
  omega

private theorem EmitsArguments.each {args : List Directive} {t u : StackDepth} {events : List Event}
    (emits : EmitsArguments args t events u) : ∀ arg ∈ args, ∃ t' events' u',
      arg.Emits t' events' u' ∧ u'.depth = t'.depth + 1 := by
  induction args generalizing t events with
  | nil => exact List.forall_mem_nil _
  | cons arg rest ih =>
      cases emits with
      | cons first grown others =>
          exact List.forall_mem_cons.mpr ⟨⟨_, _, _, first, grown⟩, ih others⟩

private theorem one_of_call {op : Opcode} {args : List Directive} {t u : StackDepth}
    {events : List Event} (emits : (Directive.call op args).Emits t events u)
    (grown : u.depth = t.depth + 1) : op.pushes = 1 := by
  have depth := emits.depth_call
  omega

private theorem not_isControl {directive : Directive}
    (undeclared : ∀ node ∈ directive.nodes, node.declaresDepth = false) {t u : StackDepth}
    {events : List Event} (emits : directive.Emits t events u) (grown : u.depth = t.depth + 1) :
    ∀ node ∈ directive.nodes, node.isControl = false := by
  induction directive generalizing t events u with
  | op opcode =>
      cases emits with
      | op _ applied =>
          have leaves := (growing_of_apply applied grown).1
          exact List.forall_mem_singleton.mpr (Opcode.isControl_eq_false (by omega))
  | push value => exact List.forall_mem_singleton.mpr rfl
  | pushLabel name => exact List.forall_mem_singleton.mpr rfl
  | label name =>
      cases emits with
      | label applied => exact absurd (growing_of_apply applied grown).1 (by decide)
  | expectDepth depth => exact List.forall_mem_singleton.mpr rfl
  | setDepth depth => exact List.forall_mem_singleton.mpr rfl
  | call opcode args ih =>
      have one := one_of_call emits grown
      cases emits with
      | call _ arguments _ _ =>
          refine List.forall_mem_append.mpr ⟨?_, List.forall_mem_singleton.mpr ?_⟩
          · intro node member
            obtain ⟨arg, inside, member⟩ := mem_nodesOf.mp member
            obtain ⟨_, _, _, emits, grown⟩ := arguments.each arg inside
            refine ih arg inside (fun node member => ?_) emits grown node member
            exact undeclared node (List.mem_append_left _ (mem_nodesOf.mpr ⟨arg, inside, member⟩))
          · exact Opcode.isControl_eq_false (by omega)
  | inverted slot => exact List.forall_mem_singleton.mpr rfl

private theorem Describes.room {directive : Directive} {t u : StackDepth} {events : List Event}
    {stack : List Word} (describes : Describes t stack) (emits : directive.Emits t events u)
    (grown : u.depth = t.depth + 1) : stack.length < stackLimit := by
  have fits := emits.tracks.1.le_limit describes.low
  have limited := describes.limited
  have length := describes.length
  omega

section

variable {width : Nat} {items : List Item} {code : Bytes}

private theorem extent_le_append (first second : List Item) :
    extent width first ≤ extent width (first ++ second) := by
  rw [extent_append]
  omega

private theorem crosses_item {before after : List Item} {item : Item} {op : Opcode}
    {t u : StackDepth} {stack : List Word} (placed : Placed width items code)
    (parts : items = before ++ item :: after) (pops : item.pops = op.pops)
    (pushes : item.pushes = op.pushes) (applied : t.apply op = .ok u)
    (grown : u.depth = t.depth + 1) (length : stack.length = t.depth)
    (room : stack.length < stackLimit) (calldata memory : Bytes) :
    Crosses (.of code calldata) (extent width before) (extent width (before ++ [item]))
      ⟨extent width before, stack, memory⟩ fun arrived => ∃ word, arrived = word :: stack := by
  obtain ⟨grows, enough⟩ := growing_of_apply applied grown
  rw [← pops, ← pushes, ← item.pops_opcode width, ← item.pushes_opcode width] at grows
  rw [← pops, ← item.pops_opcode width, ← length] at enough
  have fetched : (Env.of code calldata).code[extent width before]? =
      some (item.opcode width).toByte := placed.fetched parts
  rw [← placed.extent_next parts]
  exact step_growing memory fetched grows enough room

private def Crossed (directive : Directive) : Prop :=
  ∀ {width : Nat} {items before after : List Item} {code : Bytes} {t u : StackDepth}
    {events : List Event} {stack : List Word}, Placed width items code →
    directive.Emits t events u → u.depth = t.depth + 1 →
    items = before ++ (emitted events ++ after) → Describes t stack →
    ∀ calldata memory, Crosses (.of code calldata) (extent width before)
      (extent width (before ++ emitted events)) ⟨extent width before, stack, memory⟩
        fun arrived => ∃ word, arrived = word :: stack

private theorem crossed_arguments {args : List Directive} {before after : List Item}
    {t u : StackDepth} {events : List Event} {stack : List Word} (placed : Placed width items code)
    (crossed : ∀ arg ∈ args, Crossed arg) (emits : EmitsArguments args t events u)
    (parts : items = before ++ (emitted events ++ after)) (describes : Describes t stack)
    (calldata memory : Bytes) :
    Crosses (.of code calldata) (extent width before) (extent width (before ++ emitted events))
      ⟨extent width before, stack, memory⟩ fun arrived =>
        ∃ words, arrived = words ++ stack ∧ words.length = args.length := by
  induction args generalizing before t events stack memory with
  | nil =>
      cases emits
      rw [emitted_nil, List.append_nil]
      exact .passes .refl ⟨[], rfl, rfl⟩
  | cons arg rest ih =>
      rw [List.forall_mem_cons] at crossed
      cases emits with
      | @cons _ _ first others _ middle _ emits grown others_emit =>
          have inside : items = before ++ (emitted first ++ (emitted others ++ after)) := by
            rw [parts, emitted_append, List.append_assoc]
          have behind : items = (before ++ emitted first) ++ (emitted others ++ after) := by
            rw [inside, List.append_assoc]
          have front := crossed.1 placed emits grown inside describes calldata memory
          rw [emitted_append, ← List.append_assoc]
          apply front.append (extent_le_append _ _) (extent_le_append _ _)
          rintro _ memory ⟨word, rfl⟩
          have length : (word :: stack).length = middle.depth := by
            rw [List.length_cons, describes.length, grown]
          apply (ih crossed.2 others_emit behind (describes.next emits length) memory).mono
          rintro _ ⟨words, rfl, count⟩
          refine ⟨words ++ [word], List.append_cons words word stack, ?_⟩
          rw [List.length_append, count]
          rfl

private theorem crossed_of_undeclared {directive : Directive}
    (undeclared : ∀ node ∈ directive.nodes, node.declaresDepth = false) : Crossed directive := by
  induction directive with
  | op opcode =>
      intro width items before after code t u events stack placed emits grown parts describes
      have room := describes.room emits grown
      cases emits with
      | op _ applied =>
          exact crosses_item placed parts rfl rfl applied grown describes.length room
  | push value =>
      intro width items before after code t u events stack placed emits grown parts describes
      have room := describes.room emits grown
      cases emits with
      | push _ applied =>
          exact crosses_item placed parts rfl rfl applied grown describes.length room
  | pushLabel name =>
      intro width items before after code t u events stack placed emits grown parts describes
      have room := describes.room emits grown
      cases emits with
      | pushLabel applied =>
          exact crosses_item placed parts rfl rfl applied grown describes.length room
  | inverted slot =>
      intro width items before after code t u events stack placed emits grown parts describes
      have room := describes.room emits grown
      cases emits with
      | inverted _ _ applied =>
          exact crosses_item placed parts rfl rfl applied grown describes.length room
  | label name =>
      intro width items before after code t u events stack placed emits grown
      cases emits with
      | label applied => exact absurd (growing_of_apply applied grown).1 (by decide)
  | expectDepth depth =>
      intro width items before after code t u events stack placed emits grown
      cases emits with
      | expectDepth _ => omega
  | setDepth depth => cases undeclared _ List.mem_cons_self
  | call opcode args ih =>
      intro width items before after code t u events stack placed emits grown parts describes
        calldata memory
      have room := describes.room emits grown
      have one := one_of_call emits grown
      have crossed : ∀ arg ∈ args, Crossed arg := fun arg inside => ih arg inside fun node member =>
        undeclared node (List.mem_append_left _ (mem_nodesOf.mpr ⟨arg, inside, member⟩))
      cases emits with
      | @call _ _ events _ middle _ arity arguments plain applied =>
          rw [emitted_append, List.append_assoc] at parts
          have behind : items = (before ++ emitted events) ++ .op opcode :: after := by
            rw [parts, List.append_assoc]
            rfl
          have fetched : (Env.of code calldata).code[extent width (before ++ emitted events)]? =
              some opcode.toByte := placed.fetched behind
          have bounded : middle.depth ≤ stackLimit :=
            Nat.le_trans (arguments.program.tracks.1.le_limit describes.low) describes.limited
          rw [arguments.depth_eq, ← describes.length] at bounded
          have front := crossed_arguments placed crossed arguments parts describes calldata memory
          rw [emitted_append, ← List.append_assoc]
          apply front.append (extent_le_append _ _) (extent_le_append _ _)
          rintro _ memory ⟨words, rfl, count⟩
          have last := step_leaving_one memory fetched one (count.trans arity) (by omega) room
          have next : extent width (before ++ emitted events) + opcode.encodedLength =
              extent width (before ++ emitted events ++ [.op opcode]) := placed.extent_next behind
          rw [next] at last
          exact last

end

end Assembly

structure ArgumentFramed (options : Options) (program before : Program) (arg : Directive)
    (code : Bytes) (whole listing next : Listing) (width : Nat) : Prop where
  flattened : program.flatten options.stackLimit = .ok whole
  chosen : labelWidth options.labelWidth whole.items.toList = .ok width
  /-- The listing that flattening has come to before the argument, and the one behind it. -/
  reached : before.flatten options.stackLimit = .ok listing
  passed : arg.flatten listing = .ok next
  /-- The bytes emitted for the argument stand between the extents of these listings. -/
  located : ∃ head part chunks tail, next.items.toList = listing.items.toList ++ part ∧
    part.mapM (Item.assemble width (labelOffsets width 0 whole.items.toList)) = .ok chunks ∧
    code.toList = head ++ chunks.flatten ++ tail ∧
    head.length = extent width listing.items.toList ∧
    (head ++ chunks.flatten).length = extent width next.items.toList
  crosses : ∀ (calldata memory : Bytes) (stack : List Word), stack.length = listing.tracker.depth →
    Crosses (.of code calldata) (extent width listing.items.toList) (extent width next.items.toList)
      ⟨extent width listing.items.toList, stack, memory⟩ fun arrived => ∃ word, arrived = word :: stack
  straight : ∀ node ∈ arg.nodes, node.isControl = false

/-- An argument in which no depth is declared leaves one word and nothing else, if no more words were
allowed than the machine holds. -/
theorem compile_argument_framed {options : Options} {program before : Program} {arg : Directive}
    {code : Bytes} (limited : options.stackLimit ≤ stackLimit)
    (compiled : compile options program = .ok code) (holds : program.Holds before arg)
    (undeclared : ∀ node ∈ arg.nodes, node.declaresDepth = false) :
    ∃ whole listing next width,
      ArgumentFramed options program before arg code whole listing next width := by
  obtain ⟨events, final, width, emits, chosen, placed⟩ := compile_eq_ok compiled
  obtain ⟨front, inner, u, v, raises⟩ := holds.raises emits
  obtain ⟨back, parts⟩ := raises.parts
  have stretch : emitted events = emitted front ++ (emitted inner ++ emitted back) := by
    rw [parts, emitted_append, emitted_append]
  have whole : program.flatten options.stackLimit = .ok ⟨final, (emitted events).toArray⟩ :=
    Program.flatten_eq_ok.mpr ⟨events, emits, rfl⟩
  have listing : before.flatten options.stackLimit = .ok ⟨u, (emitted front).toArray⟩ :=
    Program.flatten_eq_ok.mpr ⟨front, raises.reached, rfl⟩
  have next : arg.flatten ⟨u, (emitted front).toArray⟩ =
      .ok ⟨v, (emitted front ++ emitted inner).toArray⟩ :=
    (arg.appends u _ _).mpr ⟨inner, raises.emits, by simp⟩
  refine ⟨_, _, _, width, whole, chosen, listing, next, ?_, ?_, ?_⟩
  · obtain ⟨head, chunks, tail, bytes, first, assembled, length⟩ := placed.split_stretch stretch
    refine ⟨head, emitted inner, chunks, tail, rfl, assembled, bytes, first, ?_⟩
    rw [List.length_append, first, length, extent_append]
  · intro calldata memory stack length
    obtain ⟨tracks, limit⟩ := raises.reached.tracks
    have describes : Describes u stack := by
      refine ⟨?_, ?_, length⟩
      · rw [limit]
        exact limited
      · rw [limit]
        exact tracks.le_limit (Nat.zero_le _)
    exact crossed_of_undeclared undeclared placed raises.emits raises.grown stretch describes
      calldata memory
  · exact not_isControl undeclared raises.emits raises.grown

theorem compile_argument_framed_hashOrEcho :
    ∃ code before, compile {} Sample.hashOrEcho = .ok code ∧
      Program.Holds Sample.hashOrEcho before (.call .calldataload [.op .push0]) ∧
      ∃ whole listing next width, ArgumentFramed {} Sample.hashOrEcho before
        (.call .calldataload [.op .push0]) code whole listing next width := by
  have compiled : compile {} Sample.hashOrEcho =
      .ok #[96, 1, 54, 3, 128, 96, 1, 95, 55, 95, 53, 96, 248, 28, 96, 20, 87, 91, 95, 243, 91, 95,
        32, 95, 82, 96, 32, 96, 17, 86] := by decide +kernel
  have holds : Program.Holds Sample.hashOrEcho (Sample.hashOrEcho.take 2)
      (.call .calldataload [.op .push0]) :=
    @Program.Holds.intro (Sample.hashOrEcho.take 2) [] (Sample.hashOrEcho.drop 3) _ _
      (@Directive.Holds.nested .jumpi [] [] [.pushLabel "hash"] _ _
        (@Directive.Holds.argument .shr [] [.push (.int 248)] _))
  exact ⟨_, _, compiled, holds, compile_argument_framed (by decide) compiled holds (by decide)⟩

end StackAssembler

import StackAssembler.Proofs.Assembly.Emission
import StackAssembler.Proofs.Assembly.Operand

set_option autoImplicit false
set_option relaxedAutoImplicit false

namespace StackAssembler

def Opcode.isPositional : Opcode → Bool
  | .jump | .jumpi | .pc | .codesize | .codecopy => true
  | _ => false

namespace Assembly

/-- A tree in which jumps take a label, labels are pushed for nothing else, and nothing else depends
on where the code lies. -/
inductive Directive.Relocatable : Directive → Prop
  | op {opcode : Opcode} : opcode.isPositional = false → Relocatable (.op opcode)
  | push {value : Constant} : Relocatable (.push value)
  | label {name : String} : Relocatable (.label name)
  | expectDepth {depth : Nat} : Relocatable (.expectDepth depth)
  | setDepth {depth : Nat} : Relocatable (.setDepth depth)
  | inverted {slot : Slot} : Relocatable (.inverted slot)
  | jump {name : String} : Relocatable (.call .jump [.pushLabel name])
  | jumpi {condition : Directive} {name : String} :
      condition.Relocatable → Relocatable (.call .jumpi [condition, .pushLabel name])
  | call {opcode : Opcode} {args : List Directive} :
      opcode.isPositional = false → (∀ arg ∈ args, arg.Relocatable) →
      Relocatable (.call opcode args)

mutual

def Directive.canonical : Directive → Directive
  | .push constant => .push (.int constant.value)
  | .call opcode args => .call opcode (canonicalAll args)
  | directive => directive

def canonicalAll : List Directive → List Directive
  | [] => []
  | directive :: rest => directive.canonical :: canonicalAll rest

end

/-- An item with its immediate read as a word. -/
inductive Instruction
  | op (opcode : Opcode)
  | push (word : Word)
  | pushLabel (name : String)
  | label (name : String)
  deriving DecidableEq

def Item.instruction : Item → Instruction
  | .op opcode => .op opcode
  | .push immediate => .push immediate.word
  | .pushLabel name => .pushLabel name
  | .label name => .label name

theorem Item.eq_of_instruction {item item' : Item} (same : item.instruction = item'.instruction) :
    item' = item ∨ ∃ immediate immediate', item = .push immediate ∧ item' = .push immediate' ∧
      immediate.word = immediate'.word := by
  cases item <;> cases item' <;> simp_all [Item.instruction]

/-- Items in which labels are pushed to jump at once and nothing else depends on the layout. -/
inductive Guarded : List Item → Prop
  | nil : Guarded []
  | op {opcode : Opcode} {rest : List Item} :
      opcode.isPositional = false → Guarded rest → Guarded (.op opcode :: rest)
  | push {immediate : Immediate} {rest : List Item} :
      Guarded rest → Guarded (.push immediate :: rest)
  | label {name : String} {rest : List Item} : Guarded rest → Guarded (.label name :: rest)
  | jump {name : String} {opcode : Opcode} {rest : List Item} :
      opcode = .jump ∨ opcode = .jumpi → Guarded rest →
      Guarded (.pushLabel name :: .op opcode :: rest)

theorem Guarded.append {first second : List Item} (left : Guarded first) (right : Guarded second) :
    Guarded (first ++ second) := by
  induction left with
  | nil => exact right
  | op free _ ih => exact .op free ih
  | push _ ih => exact .push ih
  | label _ ih => exact .label ih
  | jump kind _ ih => exact .jump kind ih

theorem Guarded.of_label {front back : List Item} {name : String}
    (guarded : Guarded (front ++ .label name :: back)) : Guarded (.label name :: back) := by
  -- What stands at a label is guarded by itself, since no pair of push and jump spans it.
  generalize whole : front ++ .label name :: back = items at guarded
  induction guarded generalizing front with
  | nil => simp at whole
  | @op opcode rest free guarded ih =>
      cases front with
      | nil => cases whole
      | cons item front => exact ih (List.cons.inj whole).2
  | @push immediate rest guarded ih =>
      cases front with
      | nil => cases whole
      | cons item front => exact ih (List.cons.inj whole).2
  | @label other rest guarded ih =>
      cases front with
      | nil =>
          cases whole
          exact .label guarded
      | cons item front => exact ih (List.cons.inj whole).2
  | @jump other opcode rest kind guarded ih =>
      match front with
      | [] => cases whole
      | [item] => cases whole
      | first :: second :: front => exact ih (List.cons.inj (List.cons.inj whole).2).2

private theorem isPositional_resolved {slot : Slot} {depth : Nat} {op : Opcode}
    (resolved : slot.resolve? depth = some op) : op.isPositional = false := by
  rcases Slot.resolve?_eq_some resolved with ⟨_, rfl⟩ | ⟨_, rfl⟩
  · rfl
  · rfl

private theorem guarded_arguments {args : List Directive}
    (guarded : ∀ arg ∈ args, ∀ t events u, arg.Emits t events u → Guarded (emitted events))
    {t u : StackDepth} {events : List Event} (emits : EmitsArguments args t events u) :
    Guarded (emitted events) := by
  induction args generalizing t events with
  | nil =>
      cases emits
      exact .nil
  | cons arg rest ih =>
      rw [List.forall_mem_cons] at guarded
      cases emits with
      | cons first _ others =>
          rw [emitted_append]
          exact (guarded.1 _ _ _ first).append (ih guarded.2 others)

theorem Directive.Emits.guarded {directive : Directive} {t u : StackDepth} {events : List Event}
    (emits : directive.Emits t events u) (relocatable : directive.Relocatable) :
    Guarded (emitted events) := by
  induction relocatable generalizing t events u with
  | op free =>
      cases emits with
      | op _ _ => exact .op free .nil
  | push =>
      cases emits with
      | push _ _ => exact .push .nil
  | label =>
      cases emits with
      | label _ => exact .label .nil
  | expectDepth =>
      cases emits with
      | expectDepth _ => exact .nil
  | setDepth =>
      cases emits with
      | setDepth _ => exact .nil
  | inverted =>
      cases emits with
      | inverted resolved _ _ => exact .op (isPositional_resolved (resolve_eq_ok.mp resolved)) .nil
  | jump =>
      cases emits with
      | call _ arguments _ _ =>
          cases arguments with
          | cons target _ none =>
              cases target
              cases none
              exact .jump (.inl rfl) .nil
  | jumpi _ ih =>
      cases emits with
      | call _ arguments _ _ =>
          cases arguments with
          | cons condition _ arguments =>
              cases arguments with
              | cons target _ none =>
                  cases target
                  cases none
                  rw [emitted_append, emitted_append, List.append_assoc]
                  exact (ih condition).append (.jump (.inr rfl) .nil)
  | call free _ ih =>
      cases emits with
      | call _ arguments _ _ =>
          rw [emitted_append]
          exact (guarded_arguments (fun arg member _ _ _ => ih arg member) arguments).append
            (.op free .nil)

theorem Program.Emits.guarded {program : Program} {t u : StackDepth} {events : List Event}
    (emits : program.Emits t events u) (relocatable : ∀ directive ∈ program, directive.Relocatable) :
    Guarded (emitted events) := by
  induction emits with
  | nil => exact .nil
  | cons first _ ih =>
      rw [List.forall_mem_cons] at relocatable
      rw [emitted_append]
      exact (first.guarded relocatable.1).append (ih relocatable.2)

def Directive.instruction? (depth : Nat) : Directive → Option Instruction
  | .op opcode | .call opcode _ => some (.op opcode)
  | .push constant => some (.push (BitVec.ofInt 256 constant.value))
  | .pushLabel name => some (.pushLabel name)
  | .label name => some (.label name)
  | .inverted slot => (slot.resolve? depth).map .op
  | .expectDepth _ | .setDepth _ => none

private theorem instruction?_canonical (depth : Nat) (directive : Directive) :
    directive.canonical.instruction? depth = directive.instruction? depth := by
  cases directive <;> rfl

private theorem instruction?_of_causes {node : Directive} {depth : Nat} {item : Item}
    (causes : node.Causes (.emit depth item)) :
    node.instruction? depth = some item.instruction := by
  cases causes with
  | op _ => rfl
  | push encoded =>
      rw [Directive.instruction?, Item.instruction, Constant.word_of_encode encoded]
  | pushLabel => rfl
  | label => rfl
  | call _ => rfl
  | inverted resolved _ => rw [Directive.instruction?, resolved, Option.map_some, Item.instruction]

private theorem instruction_eq {node node' : Directive} {depth : Nat} {item item' : Item}
    (same : node.canonical = node'.canonical) (causes : node.Causes (.emit depth item))
    (causes' : node'.Causes (.emit depth item')) : item.instruction = item'.instruction := by
  have left := instruction?_of_causes causes
  have right := instruction?_of_causes causes'
  rw [← instruction?_canonical, same, instruction?_canonical, right] at left
  exact (Option.some.inj left).symm

private theorem not_causes_declare {node node' : Directive} {depth declared : Nat} {item : Item}
    (same : node.canonical = node'.canonical) (causes : node.Causes (.emit depth item)) :
    ¬ node'.Causes (.declare declared) := by
  intro causes'
  have left := instruction?_of_causes causes
  rw [← instruction?_canonical, same, instruction?_canonical] at left
  cases causes'
  cases left

private theorem arity_of_instruction {item item' : Item}
    (same : item.instruction = item'.instruction) :
    item.pops = item'.pops ∧ item.pushes = item'.pushes := by
  rcases Item.eq_of_instruction same with rfl | ⟨_, _, rfl, rfl, _⟩
  · exact ⟨rfl, rfl⟩
  · exact ⟨rfl, rfl⟩

private theorem declared_eq {node node' : Directive} {depth depth' : Nat}
    (same : node.canonical = node'.canonical) (causes : node.Causes (.declare depth))
    (causes' : node'.Causes (.declare depth')) : depth = depth' := by
  cases causes
  cases causes'
  exact Directive.setDepth.inj same

-- Slots are resolved at the tracked depth, so that has to be shown equal along with the items.
private theorem instructions_of_paired {nodes nodes' : List Directive}
    {events events' : List Event} {limit limit' depth final final' : Nat}
    (paired : List.Forall₂ Directive.Causes nodes events)
    (paired' : List.Forall₂ Directive.Causes nodes' events')
    (same : nodes.map Directive.canonical = nodes'.map Directive.canonical)
    (tracks : Tracks limit depth events final) (tracks' : Tracks limit' depth events' final') :
    (emitted events).map Item.instruction = (emitted events').map Item.instruction := by
  induction paired generalizing nodes' events' depth with
  | nil =>
      cases paired' with
      | nil => rfl
      | cons => cases same
  | cons causes paired ih =>
      cases paired' with
      | nil => cases same
      | cons causes' paired' =>
          obtain ⟨head, tail⟩ := List.cons.inj same
          cases tracks with
          | emit _ _ tracks =>
              cases tracks' with
              | emit _ _ tracks' =>
                  have equal := instruction_eq head causes causes'
                  obtain ⟨pops, pushes⟩ := arity_of_instruction equal
                  rw [← pops, ← pushes] at tracks'
                  rw [emitted_emit, emitted_emit, List.map_cons, List.map_cons, equal,
                    ih paired' tail tracks tracks']
              | declare _ _ => exact absurd causes' (not_causes_declare head causes)
          | declare _ tracks =>
              cases tracks' with
              | emit _ _ _ => exact absurd causes (not_causes_declare head.symm causes')
              | declare _ tracks' =>
                  obtain rfl := declared_eq head causes causes'
                  rw [emitted_declare, emitted_declare, ih paired' tail tracks tracks']

private theorem nodesOf_canonicalAll {args : List Directive}
    (nodes : ∀ arg ∈ args, arg.canonical.nodes = arg.nodes.map Directive.canonical) :
    nodesOf (canonicalAll args) = (nodesOf args).map Directive.canonical := by
  induction args with
  | nil => rfl
  | cons arg rest ih =>
      rw [List.forall_mem_cons] at nodes
      rw [canonicalAll, nodesOf, nodesOf, nodes.1, ih nodes.2, List.map_append]

private theorem nodes_canonical (directive : Directive) :
    directive.canonical.nodes = directive.nodes.map Directive.canonical := by
  induction directive with
  | call opcode args ih =>
      rw [Directive.canonical, Directive.nodes, Directive.nodes, nodesOf_canonicalAll ih,
        List.map_append, List.map_singleton, Directive.canonical]
  | op opcode => rfl
  | push constant => rfl
  | pushLabel name => rfl
  | label name => rfl
  | expectDepth depth => rfl
  | setDepth depth => rfl
  | inverted slot => rfl

private theorem sources_canonical (nodes : List Directive) :
    (sources nodes).map Directive.canonical = sources (nodes.map Directive.canonical) := by
  rw [sources, sources, List.filter_map]
  congr 1
  apply List.filter_congr
  intro node _
  cases node <;> rfl

theorem Program.Emits.instructions_eq {program program' : Program} {limit limit' : Nat}
    {events events' : List Event} {final final' : StackDepth}
    (emits : program.Emits { limit } events final)
    (emits' : program'.Emits { limit := limit' } events' final')
    (same : canonicalAll program = canonicalAll program') :
    (emitted events).map Item.instruction = (emitted events').map Item.instruction := by
  have nodes : (sources (nodesOf program)).map Directive.canonical =
      (sources (nodesOf program')).map Directive.canonical := by
    rw [sources_canonical, sources_canonical,
      ← nodesOf_canonicalAll fun arg _ => nodes_canonical arg,
      ← nodesOf_canonicalAll fun arg _ => nodes_canonical arg, same]
  exact instructions_of_paired emits.paired emits'.paired nodes emits.tracks.1 emits'.tracks.1

end Assembly

end StackAssembler

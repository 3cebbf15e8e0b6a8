import StackAssembler.Proofs.Assembly.Emission

set_option autoImplicit false
set_option relaxedAutoImplicit false

namespace StackAssembler.Assembly

/-- What an item or a directive says about a label. -/
inductive Symbol
  | declare (name : String)
  | refer (name : String)
  deriving DecidableEq

def Item.symbol? : Item → Option Symbol
  | .label name => some (.declare name)
  | .pushLabel name => some (.refer name)
  | _ => none

def Directive.symbol? : Directive → Option Symbol
  | .label name => some (.declare name)
  | .pushLabel name => some (.refer name)
  | _ => none

private theorem symbols_of_paired {nodes : List Directive} {events : List Event}
    (paired : List.Forall₂ Directive.Causes nodes events) :
    (emitted events).filterMap Item.symbol? = nodes.filterMap Directive.symbol? := by
  rw [emitted, List.filterMap_filterMap]
  induction paired with
  | nil => rfl
  | @cons node event _ _ causes _ ih =>
      have same : event.item?.bind Item.symbol? = node.symbol? := by
        cases causes <;> rfl
      rw [List.filterMap_cons, List.filterMap_cons, same, ih]

theorem Program.Emits.symbols {program : Program} {t u : StackDepth} {events : List Event}
    (emits : program.Emits t events u) :
    (emitted events).filterMap Item.symbol? = (nodesOf program).filterMap Directive.symbol? := by
  rw [symbols_of_paired emits.paired, filterMap_sources fun _ => rfl]

def Symbol.name : Symbol → String
  | .declare name | .refer name => name

def Program.labelNames (program : Program) : List String :=
  ((nodesOf program).filterMap Directive.symbol?).map Symbol.name

def labelNames (items : List Item) : List String :=
  (items.filterMap Item.symbol?).map Symbol.name

theorem Program.labelNames_of_flatten {limit : Nat} {program : Program} {listing : Listing}
    (flat : program.flatten limit = .ok listing) :
    Assembly.labelNames listing.items.toList = program.labelNames := by
  obtain ⟨events, emits, same⟩ := Program.flatten_eq_ok.mp flat
  rw [Assembly.labelNames, same, emits.symbols, Program.labelNames]

theorem label_mem_labelNames {items : List Item} {name : String} (declared : .label name ∈ items) :
    name ∈ labelNames items :=
  List.mem_map.mpr ⟨.declare name, List.mem_filterMap.mpr ⟨_, declared, rfl⟩, rfl⟩

theorem pushLabel_mem_labelNames {items : List Item} {name : String}
    (pushed : .pushLabel name ∈ items) : name ∈ labelNames items :=
  List.mem_map.mpr ⟨.refer name, List.mem_filterMap.mpr ⟨_, pushed, rfl⟩, rfl⟩

end StackAssembler.Assembly

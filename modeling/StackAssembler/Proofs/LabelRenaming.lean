import Mathlib.Data.Set.Function
import StackAssembler.Proofs.Assembly.Symbols
import StackAssembler.Proofs.CompileOutcome

set_option autoImplicit false
set_option relaxedAutoImplicit false

namespace StackAssembler.Assembly

section Relabelling

variable (rename : String → String)

mutual

def Directive.relabel : Directive → Directive
  | .pushLabel name => .pushLabel (rename name)
  | .label name => .label (rename name)
  | .call op args => .call op (relabelAll args)
  | directive => directive

def relabelAll : List Directive → List Directive
  | [] => []
  | directive :: rest => directive.relabel :: relabelAll rest

end

def Program.relabel (program : Program) : Program :=
  relabelAll rename program

def Item.relabel : Item → Item
  | .pushLabel name => .pushLabel (rename name)
  | .label name => .label (rename name)
  | item => item

def Listing.relabel (listing : Listing) : Listing :=
  { listing with items := listing.items.map (Item.relabel rename) }

/-- The error about the renamed label, if it is about a label. -/
def Error.relabel : Error → Error
  | .undefinedLabel label => .undefinedLabel (rename label)
  | .duplicateLabel label => .duplicateLabel (rename label)
  | .labelOutOfReach label offset width => .labelOutOfReach (rename label) offset width
  | error => error

end Relabelling

variable {rename : String → String}

theorem Error.relabel_of_label? {error : Error} (unnamed : error.label? = none) :
    error.relabel rename = error := by
  cases error <;> first | rfl | cases unnamed

section Flattening

theorem emit_relabel (listing : Listing) (op : Opcode) (item : Item) :
    (listing.relabel rename).emit op (item.relabel rename) =
      (listing.emit op item).map (Listing.relabel rename) := by
  obtain ⟨t, items⟩ := listing
  simp only [Listing.relabel, Listing.emit, map_of_bind]
  cases t.apply op with
  | error error => rfl
  | ok u =>
      have pushed : (items.push item).map (Item.relabel rename) =
          (items.map (Item.relabel rename)).push (item.relabel rename) := Array.map_push
      exact congrArg (fun items => Except.ok (Listing.mk u items)) pushed.symm

theorem emitOp_relabel (listing : Listing) (op : Opcode) :
    (listing.relabel rename).emitOp op = (listing.emitOp op).map (Listing.relabel rename) := by
  unfold Listing.emitOp
  cases op.isPush with
  | true => rfl
  | false => exact emit_relabel listing op (.op op)

theorem track_relabel (listing : Listing) (use : StackDepth → Except Error StackDepth) :
    (listing.relabel rename).track use = (listing.track use).map (Listing.relabel rename) := by
  obtain ⟨t, items⟩ := listing
  simp only [Listing.relabel, Listing.track, map_of_bind]
  cases use t <;> rfl

private def Commutes (rename : String → String) (directive : Directive) : Prop :=
  ∀ listing : Listing, (directive.relabel rename).flatten (listing.relabel rename) =
    (directive.flatten listing).map (Listing.relabel rename)

private theorem length_relabelAll (args : List Directive) :
    (relabelAll rename args).length = args.length := by
  induction args with
  | nil => rfl
  | cons arg rest ih => rw [relabelAll, List.length_cons, List.length_cons, ih]

private theorem flattenArguments_relabel {args : List Directive}
    (commutes : ∀ arg ∈ args, Commutes rename arg) (listing : Listing) :
    flattenArguments (relabelAll rename args) (listing.relabel rename) =
      (flattenArguments args listing).map (Listing.relabel rename) := by
  induction args generalizing listing with
  | nil => rfl
  | cons arg rest ih =>
      rw [List.forall_mem_cons] at commutes
      simp only [relabelAll, flattenArguments, map_of_bind]
      rw [commutes.1 listing, map_bind_eq]
      congr 1
      funext flat
      rw [track_relabel, map_bind_eq]
      congr 1
      funext tracked
      exact ih commutes.2 tracked

private theorem Directive.commutes (directive : Directive) : Commutes rename directive := by
  induction directive with
  | op op =>
      intro listing
      exact emitOp_relabel listing op
  | push value =>
      intro listing
      simp only [Directive.relabel, Directive.flatten, map_of_bind]
      congr 1
      funext immediate
      exact emit_relabel listing immediate.opcode (.push immediate)
  | pushLabel name =>
      intro listing
      exact emit_relabel listing (.push 0) (.pushLabel name)
  | label name =>
      intro listing
      exact emit_relabel listing .jumpdest (.label name)
  | expectDepth depth =>
      intro listing
      exact track_relabel listing (·.expect depth)
  | setDepth depth =>
      intro listing
      exact track_relabel listing (·.set depth)
  | call op args ih =>
      intro listing
      simp only [Directive.relabel, Directive.flatten, length_relabelAll]
      split
      · rw [flattenArguments_relabel ih, map_bind_eq, map_of_bind]
        congr 1
        funext flat
        exact emitOp_relabel flat op
      · rfl
  | inverted slot =>
      intro listing
      simp only [Directive.relabel, Directive.flatten, map_of_bind]
      congr 1
      funext op
      exact emitOp_relabel listing op

theorem Program.flattenAfter_relabel (program : Program) (listing : Listing) :
    (program.relabel rename).flattenAfter (listing.relabel rename) =
      (program.flattenAfter listing).map (Listing.relabel rename) := by
  induction program generalizing listing with
  | nil => rfl
  | cons directive rest ih =>
      have first : Program.flattenAfter (Program.relabel rename (directive :: rest))
          (listing.relabel rename) = (directive.relabel rename).flatten (listing.relabel rename) >>=
            Program.flattenAfter (Program.relabel rename rest) := List.foldlM_cons
      have second : Program.flattenAfter (directive :: rest) listing =
          directive.flatten listing >>= Program.flattenAfter rest := List.foldlM_cons
      rw [first, second, directive.commutes, map_bind_eq, map_of_bind]
      congr 1
      funext flat
      exact ih flat

theorem Program.flatten_relabel (limit : Nat) (program : Program) :
    (program.relabel rename).flatten limit =
      (program.flatten limit).map (Listing.relabel rename) := by
  have empty : (Listing.empty limit).relabel rename = .empty limit :=
    congrArg (Listing.mk _) Array.map_empty
  rw [Program.flatten, Program.flatten, ← program.flattenAfter_relabel, empty]

end Flattening

section Layout

theorem labelOffsets_relabel (width offset : Nat) (items : List Item) :
    labelOffsets width offset (items.map (Item.relabel rename)) =
      (labelOffsets width offset items).map (Prod.map rename id) := by
  induction items generalizing offset with
  | nil => rfl
  | cons item rest ih =>
      cases item with
      | label name => exact congrArg ((rename name, offset) :: ·) (ih _)
      | _ => exact ih _

theorem furthestLabel_relabel (width : Nat) (items : List Item) :
    furthestLabel width (items.map (Item.relabel rename)) = furthestLabel width items := by
  rw [furthestLabel, labelOffsets_relabel, List.foldl_map]
  rfl

theorem growWidth_relabel (items : List Item) (width : Nat) :
    growWidth (items.map (Item.relabel rename)) width = growWidth items width := by
  fun_induction growWidth items width with
  | case1 width needed settled =>
      rw [growWidth, furthestLabel_relabel]
      exact if_pos settled
  | case2 width needed short ih =>
      rw [growWidth, furthestLabel_relabel, ← ih]
      exact if_neg short

theorem declares?_relabel (item : Item) :
    (item.relabel rename).declares? = item.declares?.map rename := by
  cases item <;> rfl

private theorem firstRepeated_relabel {seen names : List String}
    (injective : Set.InjOn rename {name | name ∈ seen ++ names}) :
    firstRepeated (seen.map rename) (names.map rename) = (firstRepeated seen names).map rename := by
  induction names generalizing seen with
  | nil => rfl
  | cons name rest ih =>
      have inside : name ∈ seen ++ name :: rest := List.mem_append_right _ List.mem_cons_self
      have known : rename name ∈ seen.map rename ↔ name ∈ seen := by
        constructor
        · intro member
          obtain ⟨other, among, same⟩ := List.mem_map.mp member
          exact injective (List.mem_append_left _ among) inside same ▸ among
        · exact List.mem_map_of_mem
      rw [List.map_cons, firstRepeated, firstRepeated]
      by_cases repeated : name ∈ seen
      · rw [if_pos (known.mpr repeated), if_pos repeated]
        rfl
      · rw [if_neg (mt known.mp repeated), if_neg repeated, ← List.map_cons]
        apply ih
        apply injective.mono
        intro other member
        exact List.perm_middle.mem_iff.mpr member

private theorem lookup_map_rename {table : List (String × Nat)} {name : String}
    (apart : ∀ entry ∈ table, rename entry.1 = rename name → entry.1 = name) :
    (table.map (Prod.map rename id)).lookup (rename name) = table.lookup name := by
  induction table with
  | nil => rfl
  | cons entry rest ih =>
      rw [List.forall_mem_cons] at apart
      rw [List.map_cons, Prod.map, List.lookup_cons, List.lookup_cons, ih apart.2]
      by_cases found : name = entry.1
      · rw [found]
        simp
      · have other : rename name ≠ rename entry.1 := fun same => found (apart.1 same.symm).symm
        rw [beq_eq_false_iff_ne.mpr other, beq_eq_false_iff_ne.mpr found]

variable {items : List Item} (injective : Set.InjOn rename {name | name ∈ labelNames items})
include injective

theorem checkDistinct_relabel :
    checkDistinct (items.map (Item.relabel rename)) =
      (checkDistinct items).mapError (Error.relabel rename) := by
  have declared : (items.map (Item.relabel rename)).filterMap Item.declares? =
      (items.filterMap Item.declares?).map rename := by
    rw [List.filterMap_map, List.map_filterMap]
    congr 1
    funext item
    exact declares?_relabel item
  have repeated : firstRepeated [] ((items.filterMap Item.declares?).map rename) =
      (firstRepeated [] (items.filterMap Item.declares?)).map rename := by
    have apart : Set.InjOn rename {name | name ∈ [] ++ items.filterMap Item.declares?} := by
      apply injective.mono
      intro name member
      exact label_mem_labelNames (mem_declared.mp member)
    exact firstRepeated_relabel apart
  rw [checkDistinct, checkDistinct, declared, repeated]
  cases firstRepeated [] (items.filterMap Item.declares?) <;> rfl

theorem labelWidth_relabel (given : Option Nat) :
    labelWidth given (items.map (Item.relabel rename)) =
      (labelWidth given items).mapError (Error.relabel rename) := by
  cases given with
  | none =>
      rw [labelWidth, labelWidth, checkDistinct_relabel injective, growWidth_relabel,
        mapError_of_bind]
      rfl
  | some width =>
      simp only [labelWidth]
      split <;> rfl

theorem lookup_relabel {name : String} (width : Nat) (pushed : .pushLabel name ∈ items) :
    ((labelOffsets width 0 items).map (Prod.map rename id)).lookup (rename name) =
      (labelOffsets width 0 items).lookup name := by
  have apart : ∀ entry ∈ labelOffsets width 0 items, rename entry.1 = rename name →
      entry.1 = name := by
    intro entry listed same
    obtain ⟨before, after, parts, _⟩ := mem_labelOffsets.mp listed
    have declared : .label entry.1 ∈ items := by
      rw [parts]
      exact List.mem_append_right _ List.mem_cons_self
    exact injective (label_mem_labelNames declared) (pushLabel_mem_labelNames pushed) same
  exact lookup_map_rename apart

theorem assemble_relabel (width : Nat) {item : Item} (member : item ∈ items) :
    (item.relabel rename).assemble width ((labelOffsets width 0 items).map (Prod.map rename id)) =
      (item.assemble width (labelOffsets width 0 items)).mapError (Error.relabel rename) := by
  cases item with
  | pushLabel name =>
      simp only [Item.relabel, Item.assemble, assembleLabelPush,
        lookup_relabel injective width member]
      cases (labelOffsets width 0 items).lookup name with
      | none => rfl
      | some offset =>
          simp only
          cases Immediate.padded? offset width <;> rfl
  | _ => rfl

theorem assembleItems_relabel (width : Nat) :
    assembleItems width (items.map (Item.relabel rename)) =
      (assembleItems width items).mapError (Error.relabel rename) := by
  rw [assembleItems, assembleItems, labelOffsets_relabel, mapError_of_bind,
    mapM_map_of_mapError fun item member => assemble_relabel injective width member]
  rfl

theorem layOut_relabel (given : Option Nat) :
    layOut given (items.map (Item.relabel rename)) =
      (layOut given items).mapError (Error.relabel rename) := by
  simp only [layOut, mapError_of_bind, labelWidth_relabel injective, checkDistinct_relabel injective,
    assembleItems_relabel injective]

end Layout

/-- Renaming the labels of a program, distinct ones to distinct names, leaves the code as it is, and
what is wrong with the program up to the name of the label at fault. -/
theorem compile_relabelled (options : Options) (program : Program) (rename : String → String)
    (injective : Set.InjOn rename {name | name ∈ program.labelNames}) :
    compile options (program.relabel rename) =
      (compile options program).mapError (Error.relabel rename) := by
  rw [compile_eq_bind, compile_eq_bind, Program.flatten_relabel, map_bind_eq, mapError_of_bind]
  cases flat : program.flatten options.stackLimit with
  | error error =>
      have unnamed := (Program.flatten_eq_error.mp flat).label?_eq_none
      exact congrArg Except.error (Error.relabel_of_label? unnamed).symm
  | ok listing =>
      rw [← Program.labelNames_of_flatten flat] at injective
      have items : (listing.relabel rename).items.toList =
          listing.items.toList.map (Item.relabel rename) := Array.toList_map
      show layOut options.labelWidth (listing.relabel rename).items.toList = _
      rw [items, layOut_relabel injective]
      rfl

/-- A conditional jump to a label that is not declared, over one that is. -/
def astray : Program :=
  [.call .jumpi [.op .calldatasize, .pushLabel "there"], .label "here"]

/-- Exchanges two names, and maps all others to one of them. -/
def exchangeNames (name : String) : String :=
  if name = "here" then "there" else "here"

theorem compile_relabelled_astray :
    Set.InjOn exchangeNames {name | name ∈ astray.labelNames} ∧
      compile {} astray = .error (.undefinedLabel "there") ∧
      compile {} (astray.relabel exchangeNames) = .error (.undefinedLabel "here") := by
  have names : astray.labelNames = ["there", "here"] := by decide
  have injective : Set.InjOn exchangeNames {name | name ∈ astray.labelNames} := by
    rw [names]
    simp [Set.InjOn, exchangeNames]
  have compiled : compile {} astray = .error (.undefinedLabel "there") := by decide +kernel
  refine ⟨injective, compiled, ?_⟩
  rw [compile_relabelled {} astray exchangeNames injective, compiled]
  rfl

end StackAssembler.Assembly

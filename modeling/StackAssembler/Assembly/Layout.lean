import StackAssembler.Assembly.Listing

/-!
From listings to bytes. All label pushes of a program have one width. Unless it is given, it is the
least one whose bytes hold every label's offset, found by growing: a wider push moves the labels
behind it, so the offsets are looked at again after each change.
-/

set_option autoImplicit false
set_option relaxedAutoImplicit false

namespace StackAssembler.Assembly

def Item.size (width : Nat) : Item → Nat
  | .op opcode => opcode.encodedLength
  | .push immediate => immediate.encodedLength
  | .pushLabel _ => 1 + width
  | .label _ => Opcode.encodedLength .jumpdest

def Item.declares? : Item → Option String
  | .label name => some name
  | _ => none

/-- Every declared label with the offset of its first byte, the items starting at `offset`. -/
def labelOffsets (width offset : Nat) : List Item → List (String × Nat)
  | [] => []
  | item :: rest =>
      match item.declares? with
      | some name => (name, offset) :: labelOffsets width (offset + item.size width) rest
      | none => labelOffsets width (offset + item.size width) rest

/-- The first name that stands in `seen` or earlier in the list. -/
def firstRepeated (seen : List String) : List String → Option String
  | [] => none
  | name :: rest => if name ∈ seen then some name else firstRepeated (name :: seen) rest

/-- The largest offset of a label, zero if there is none. -/
def furthestLabel (width : Nat) (items : List Item) : Nat :=
  (labelOffsets width 0 items).foldl (fun furthest entry => max furthest entry.2) 0

def growWidth (items : List Item) (width : Nat) : Nat :=
  let needed := minimalWidth (furthestLabel width items)
  if needed ≤ width then width else growWidth items needed
termination_by 32 - width
decreasing_by
  have bound := minimalWidth_le (furthestLabel width items)
  omega

structure Options where
  /-- The deepest stack that the program may reach. -/
  stackLimit : Nat := StackAssembler.stackLimit
  /-- The bytes of every label push, if they are not to be chosen. -/
  labelWidth : Option Nat := none
  deriving DecidableEq

def checkDistinct (items : List Item) : Except Error Unit :=
  match firstRepeated [] (items.filterMap Item.declares?) with
  | some name => .error (.duplicateLabel name)
  | none => .ok ()

/-- The width of label pushes. A given one must be a legal width of an immediate. To find one, offsets
are looked at, which labels only have if they are distinct. -/
def labelWidth (given : Option Nat) (items : List Item) : Except Error Nat :=
  match given with
  | some width => if 1 ≤ width ∧ width ≤ 32 then .ok width else .error (.operandWidth width)
  | none => do
      checkDistinct items
      return growWidth items 1

def assembleLabelPush (width : Nat) (table : List (String × Nat)) (name : String) :
    Except Error (List UInt8) :=
  match table.lookup name with
  | none => .error (.undefinedLabel name)
  | some offset =>
      match Immediate.padded? offset width with
      | some immediate => .ok immediate.assemble
      | none => .error (.labelOutOfReach name offset width)

def Item.assemble (width : Nat) (table : List (String × Nat)) : Item → Except Error (List UInt8)
  | .op opcode => .ok [opcode.toByte]
  | .push immediate => .ok immediate.assemble
  | .pushLabel name => assembleLabelPush width table name
  | .label _ => .ok [Opcode.toByte .jumpdest]

def assembleItems (width : Nat) (items : List Item) : Except Error Bytes := do
  let chunks ← items.mapM (Item.assemble width (labelOffsets width 0 items))
  return chunks.flatten.toArray

/-- The bytes of a program, or the first thing that is wrong with it: with its directives in order,
then with the given width, then with its labels in order. -/
def compile (options : Options) (program : Program) : Except Error Bytes := do
  let listing ← program.flatten options.stackLimit
  let items := listing.items.toList
  let width ← labelWidth options.labelWidth items
  checkDistinct items
  assembleItems width items

end StackAssembler.Assembly

import StackAssembler.ErrorType.Description
import StackAssembler.ErrorType.Format

/-!
The implementations that an error type derives: a text for every value, the error trait with the
sources of wrapping variants, and conversions into those variants. Of a variant, the message is
looked at before the placement of `#[from]`.
-/

set_option autoImplicit false
set_option relaxedAutoImplicit false

namespace StackAssembler.ErrorType

inductive Subject
  | variant (name : String)
  | type (name : String)
  deriving DecidableEq

def Subject.text : Subject → String
  | .variant name => "variant \x60" ++ name ++ "\x60"
  | .type name => "type \x60" ++ name ++ "\x60"

inductive Fault
  | union
  | missingMessage (subject : Subject)
  | unlistedMessage
  | messageNotText
  | fromInLongTuple
  | fromOnNamedField
  deriving DecidableEq

def Fault.message : Fault → String
  | .union => "Error derive does not support unions"
  | .missingMessage subject => "missing #[error(\"...\")] attribute on " ++ subject.text
  | .unlistedMessage => "invalid #[error] attribute; use #[error(\"message\")]"
  | .messageNotText =>
      "#[error] expects a string literal, e.g. " ++
        "#[error(\"stack underflow: \x7bdepth\x7d\")]"
  | .fromInLongTuple => "#[from] requires a tuple variant with exactly one field"
  | .fromOnNamedField =>
      "#[from] is only supported on tuple variants, e.g. Compile(#[from] CompileError)"

inductive Access
  | binding (name : String)
  | member (name : String)
  deriving DecidableEq

structure Argument where
  name : String
  value : Access
  deriving DecidableEq

/-- A write of a format string to the formatter. Without fields there is no list of arguments, which
is not the same as an empty one. -/
structure Write where
  format : String
  arguments : Option (List Argument)
  deriving DecidableEq

/-- What a match arm binds of its variant's fields. -/
inductive Pattern
  | unit
  | tuple (slots : List (Option String))
  | named (names : List String)
  deriving DecidableEq

structure Arm where
  variant : String
  pattern : Pattern
  write : Write
  deriving DecidableEq

inductive Body
  | arms (arms : List Arm)
  | write (write : Write)
  deriving DecidableEq

/-- A variant made from a value of the type it wraps. -/
structure Conversion where
  variant : String
  type : String
  deriving DecidableEq

/-- One implementation. That of the error trait may have a method with an arm for each of some
variants. -/
inductive Impl
  | display (body : Body)
  | error (sources : Option (List String))
  | convert (conversion : Conversion)
  deriving DecidableEq

/-- The message in the first attribute that is meant to hold one. -/
def messageOf (subject : Subject) : List Attribute → Except Fault String
  | [] => .error (.missingMessage subject)
  | .foreign :: rest => messageOf subject rest
  | .message text :: _ => .ok text
  | .unlisted :: _ => .error .unlistedMessage
  | .notText :: _ => .error .messageNotText

def usedPositions (format : String) (count : Nat) : List Nat :=
  (List.range count).filter fun i => mentions format (positionName i)

def usedNames (format : String) (fields : List NamedField) : List String :=
  (fields.map (·.name)).filter (mentions format)

def displayArm (name message : String) : Fields → Arm
  | .unit => ⟨name, .unit, ⟨message, none⟩⟩
  | .tuple fields =>
      let format := namePositions message fields.length
      let slot (i : Nat) : Option String :=
        if mentions format (positionName i) then some (positionName i) else none
      let arguments := (usedPositions format fields.length).map fun i =>
        ⟨positionName i, .binding (positionName i)⟩
      ⟨name, .tuple ((List.range fields.length).map slot), ⟨format, some arguments⟩⟩
  | .named fields =>
      let used := usedNames message fields
      ⟨name, .named used, ⟨message, some (used.map fun field => ⟨field, .binding field⟩)⟩⟩

def displayStruct (message : String) : Fields → Write
  | .unit => ⟨message, none⟩
  | .tuple fields =>
      let format := namePositions message fields.length
      ⟨format, some ((usedPositions format fields.length).map fun i =>
        ⟨positionName i, .member (toString i)⟩)⟩
  | .named fields =>
      ⟨message, some ((usedNames message fields).map fun field => ⟨field, .member field⟩)⟩

/-- The type that a variant with these fields wraps. Only the single field of a tuple can be
marked as wrapped. -/
def wrapped : Fields → Except Fault (Option String)
  | .unit => .ok none
  | .tuple fields =>
      match fields.filter (·.converts), fields.length with
      | [], _ => .ok none
      | [field], 1 => .ok (some field.type)
      | _, _ => .error .fromInLongTuple
  | .named fields => if fields.any (·.converts) then .error .fromOnNamedField else .ok none

def expandVariant (variant : Variant) : Except Fault (Arm × Option Conversion) := do
  let message ← messageOf (.variant variant.name) variant.attributes
  let inner ← wrapped variant.fields
  let arm := displayArm variant.name message variant.fields
  return (arm, inner.map fun type => ⟨variant.name, type⟩)

/-- The variants in the method that gives the wrapped error, for types that wrap one. -/
def sources? (conversions : List Conversion) : Option (List String) :=
  if conversions.isEmpty then none else some (conversions.map (·.variant))

def expandEnum (variants : List Variant) : Except Fault (List Impl) := do
  let parts ← variants.mapM expandVariant
  let conversions := parts.filterMap (·.2)
  return .display (.arms (parts.map (·.1))) :: .error (sources? conversions) ::
    conversions.map .convert

def expandStruct (name : String) (attributes : List Attribute) (fields : Fields) :
    Except Fault (List Impl) := do
  let message ← messageOf (.type name) attributes
  return [.display (.write (displayStruct message fields)), .error none]

/-- All implementations of an error type, or the first fault in its description. -/
def expand (description : Description) : Except Fault (List Impl) :=
  match description.shape with
  | .enum variants => expandEnum variants
  | .struct attributes fields => expandStruct description.name attributes fields
  | .union => .error .union

end StackAssembler.ErrorType

/-!
Error types as a derivation sees them: names, fields, attributes, and generic parameters. Types,
bounds and predicates are kept in their written form.
-/

set_option autoImplicit false
set_option relaxedAutoImplicit false

namespace StackAssembler.ErrorType

inductive Attribute
  /-- A message in the proper form. -/
  | message (text : String)
  /-- An `error` attribute without a list in parentheses. -/
  | unlisted
  /-- An `error` attribute whose list is not a single string literal. -/
  | notText
  /-- An attribute of another name. -/
  | foreign
  deriving DecidableEq

structure TupleField where
  type : String
  /-- Whether the field carries `#[from]`. -/
  converts : Bool := false
  deriving DecidableEq

structure NamedField where
  name : String
  type : String
  /-- Whether the field carries `#[from]`. -/
  converts : Bool := false
  deriving DecidableEq

inductive Fields
  | unit
  | tuple (fields : List TupleField)
  | named (fields : List NamedField)
  deriving DecidableEq

structure Variant where
  name : String
  attributes : List Attribute
  fields : Fields
  deriving DecidableEq

inductive Parameter
  | plain (name : String)
  | bounded (name bounds : String)
  | const (name type : String)
  deriving DecidableEq

namespace Parameter

def name : Parameter → String
  | .plain name | .bounded name _ | .const name _ => name

def isLifetime (parameter : Parameter) : Bool :=
  parameter.name.toList.head? = some '\''

end Parameter

inductive Shape
  | enum (variants : List Variant)
  | struct (attributes : List Attribute) (fields : Fields)
  | union
  deriving DecidableEq

structure Description where
  name : String
  parameters : List Parameter := []
  predicates : String := ""
  shape : Shape
  deriving DecidableEq

end StackAssembler.ErrorType

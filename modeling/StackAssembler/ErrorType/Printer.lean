import StackAssembler.ErrorType.Expansion
import StackAssembler.Text.Latin1

/-!
Implementations as program text: tokens separated by single blanks, every bracket a token of its own.
-/

set_option autoImplicit false
set_option relaxedAutoImplicit false

namespace StackAssembler.ErrorType

/-- Tokens, or runs of tokens that are separated already. -/
abbrev Tokens := List String

def braced (inner : Tokens) : Tokens :=
  "\x7b" :: (inner ++ ["\x7d"])

def parenthesised (inner : Tokens) : Tokens :=
  "(" :: (inner ++ [")"])

def commaSeparated (runs : List Tokens) : Tokens :=
  (runs.intersperse [","]).flatten

/-- A character as it stands in a string literal before another one. Of those past the first block
all are taken to have a glyph. -/
def escaped (next : Option Char) : Char → List Char
  | '"' => ['\\', '"']
  | '\\' => ['\\', '\\']
  | '\n' => ['\\', 'n']
  | '\r' => ['\\', 'r']
  | '\t' => ['\\', 't']
  -- Before an octal digit a short zero would be read together with it.
  | '\x00' => if next.any fun c => '0' ≤ c && c ≤ '7' then "\\x00".toList else "\\0".toList
  | c =>
      if 0x100 ≤ c.toNat || Text.Latin1.isPrintable (UInt8.ofNat c.toNat) then [c]
      else ("\\u\x7b" ++ Text.Latin1.hexDigits c.toNat ++ "\x7d").toList

def escapedText : List Char → List Char
  | [] => []
  | c :: rest => escaped rest.head? c ++ escapedText rest

def stringLiteral (text : String) : String :=
  String.ofList ('"' :: (escapedText text.toList ++ ['"']))

namespace Parameter

def declaration : Parameter → Tokens
  | .plain name => [name]
  | .bounded name bounds => if bounds = "" then [name] else [name, ":", bounds]
  | .const name type => ["const", name, ":", type]

end Parameter

namespace Description

/-- Generic parameters with lifetimes first, as the language wants them. -/
def ordered (description : Description) : List Parameter :=
  description.parameters.filter (·.isLifetime) ++
    description.parameters.filter fun parameter => !parameter.isLifetime

/-- Whether a comma stands behind the last parameter. Every parameter but the one declared last has a
comma, and keeps it when lifetimes move to the front. -/
def endsInComma (description : Description) : Bool :=
  description.parameters.any (!·.isLifetime) &&
    description.parameters.getLast?.any (·.isLifetime)

def angled (description : Description) (form : Parameter → Tokens) : Tokens :=
  if description.parameters.isEmpty then []
  else
    "<" :: commaSeparated (description.ordered.map form) ++
      (if description.endsInComma then [","] else []) ++ [">"]

def subject (description : Description) : Tokens :=
  description.name :: description.angled (fun parameter => [parameter.name]) ++
    if description.predicates = "" then [] else ["where", description.predicates]

def implementation (description : Description) (trait items : Tokens) : Tokens :=
  "impl" :: description.angled Parameter.declaration ++ trait ++ ["for"] ++
    description.subject ++ braced items

end Description

def Access.tokens : Access → Tokens
  | .binding name => [name]
  | .member name => ["self", ".", name]

def Argument.tokens (argument : Argument) : Tokens :=
  argument.name :: "=" :: argument.value.tokens

def Write.tokens (write : Write) : Tokens :=
  let arguments :=
    match write.arguments with
    | none => []
    | some arguments => "," :: commaSeparated (arguments.map Argument.tokens)
  ["write", "!"] ++ parenthesised ("f" :: "," :: stringLiteral write.format :: arguments)

def Pattern.tokens : Pattern → Tokens
  | .unit => []
  | .tuple slots => parenthesised (commaSeparated (slots.map fun slot => [slot.getD "_"]))
  | .named names => braced (names.flatMap (fun name => [name, ","]) ++ [".."])

def Arm.tokens (arm : Arm) : Tokens :=
  ["Self", "::", arm.variant] ++ arm.pattern.tokens ++ ["=>"] ++ arm.write.tokens ++ [","]

def Body.tokens : Body → Tokens
  | .arms all => ["match", "self"] ++ braced (all.flatMap Arm.tokens)
  | .write single => single.tokens

def dynError : Tokens :=
  ["& ( dyn :: std :: error :: Error + 'static )"]

def sourceArm (variant : String) : Tokens :=
  ["Self", "::", variant, "( inner )", "=>", ":: std :: option :: Option :: Some"] ++
    parenthesised ("inner as" :: dynError) ++ [","]

def sourceMethod (variants : List String) : Tokens :=
  ["# [ allow ( unreachable_patterns ) ] fn source ( & self ) -> :: std :: option :: Option <"] ++
    dynError ++ [">"] ++
    braced (["match", "self"] ++ braced (variants.flatMap sourceArm ++
      ["_", "=>", ":: std :: option :: Option :: None", ","]))

def displayMethod (body : Body) : Tokens :=
  ["fn fmt ( & self , f : & mut :: std :: fmt :: Formatter < '_ > ) -> :: std :: fmt :: Result"] ++
    braced body.tokens

def conversionMethod (conversion : Conversion) : Tokens :=
  ["fn from ( inner :", conversion.type, ") -> Self"] ++
    braced ["Self", "::", conversion.variant, "( inner )"]

def Impl.tokens (description : Description) : Impl → Tokens
  | .display body => description.implementation [":: std :: fmt :: Display"] (displayMethod body)
  | .error sources =>
      description.implementation [":: std :: error :: Error"] ((sources.map sourceMethod).getD [])
  | .convert conversion =>
      description.implementation [":: std :: convert :: From <", conversion.type, ">"]
        (conversionMethod conversion)

def derive (description : Description) : Except Fault String := do
  let impls ← expand description
  return " ".intercalate (impls.flatMap (Impl.tokens description))

end StackAssembler.ErrorType

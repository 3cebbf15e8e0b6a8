/-!
Format strings of messages. Placeholders are found by plain search: a name counts as mentioned where
it stands between an opening brace and a closing brace or colon, whatever surrounds it.
-/

set_option autoImplicit false
set_option relaxedAutoImplicit false

namespace StackAssembler.ErrorType

/-- Passes over `skip` characters, then replaces every occurrence of `target`, from the left and
without overlap. -/
def replaceFrom (target replacement : List Char) : Nat → List Char → List Char
  | _, [] => []
  | skip + 1, _ :: rest => replaceFrom target replacement skip rest
  | 0, c :: rest =>
      if target.isPrefixOf (c :: rest) then
        replacement ++ replaceFrom target replacement (target.length - 1) rest
      else c :: replaceFrom target replacement 0 rest

def replaceAll (target replacement : List Char) (text : List Char) : List Char :=
  replaceFrom target replacement 0 text

def occursIn (target : List Char) : List Char → Bool
  | [] => target.isEmpty
  | c :: rest => target.isPrefixOf (c :: rest) || occursIn target rest

def placeholder (name : String) (finish : Char) : List Char :=
  '\x7b' :: (name.toList ++ [finish])

/-- Whether a message interpolates an argument. -/
def mentions (message name : String) : Bool :=
  occursIn (placeholder name '\x7d') message.toList ||
    occursIn (placeholder name ':') message.toList

/-- The name under which a position's field is passed. -/
def positionName (i : Nat) : String :=
  "f" ++ toString i

def namePosition (i : Nat) (message : List Char) : List Char :=
  replaceAll (placeholder (toString i) ':') (placeholder (positionName i) ':')
    (replaceAll (placeholder (toString i) '\x7d') (placeholder (positionName i) '\x7d') message)

/-- Renames the placeholders of all positions below `count`, the last first. -/
def namePositionsBelow : Nat → List Char → List Char
  | 0, message => message
  | count + 1, message => namePositionsBelow count (namePosition count message)

def namePositions (message : String) (count : Nat) : String :=
  String.ofList (namePositionsBelow count message.toList)

end StackAssembler.ErrorType

set_option autoImplicit false
set_option relaxedAutoImplicit false

namespace StackAssembler.Text.Latin1

def hexDigits (n : Nat) : String :=
  String.ofList (Nat.toDigits 16 n)

/-- Controls, the no-break space and the soft hyphen have no glyph of their own. -/
def isPrintable (byte : UInt8) : Bool :=
  (0x20 ≤ byte && byte ≤ 0x7e) || (0xa1 ≤ byte && byte != 0xad)

/-- The byte's character in single quotes. A quote, a backslash and the common controls are escaped
by one letter, any other byte without a glyph by its number. -/
def quoted (byte : UInt8) : String :=
  let body :=
    match byte with
    | 0x00 => "\\0"
    | 0x09 => "\\t"
    | 0x0a => "\\n"
    | 0x0d => "\\r"
    | 0x27 => "\\'"
    | 0x5c => "\\\\"
    | _ =>
      if isPrintable byte then String.singleton (Char.ofNat byte.toNat)
      else "\\u\x7b" ++ hexDigits byte.toNat ++ "\x7d"
  "'" ++ body ++ "'"

end StackAssembler.Text.Latin1

import Mathlib.Data.List.DropRight

/-! The text functions of the source's standard library that validation relies on. -/
namespace Soloist

abbrev Bytes := List UInt8

def usizeMax : Nat := 18446744073709551615

/-- The characters with the Unicode property `White_Space`. -/
def isWhitespace (c : Char) : Bool :=
  let n := c.toNat
  (0x09 ≤ n && n ≤ 0x0D) || n == 0x20 || n == 0x85 || n == 0xA0 || n == 0x1680 ||
    (0x2000 ≤ n && n ≤ 0x200A) || n == 0x2028 || n == 0x2029 || n == 0x202F || n == 0x205F ||
    n == 0x3000

def isBlank (s : String) : Bool := s.toList.all isWhitespace

def trimEnd (s : String) : String := String.ofList (s.toList.rdropWhile isWhitespace)

def trim (s : String) : String :=
  String.ofList ((s.toList.dropWhile isWhitespace).rdropWhile isWhitespace)

end Soloist

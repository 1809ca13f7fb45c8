set_option autoImplicit false

/-!
# Blank characters

## Main definitions

* `isBlank` — the characters with the Unicode property `White_Space`.
* `strip` — a text without the blanks at its ends.
-/

namespace Ohmic.Text

/-- The characters of the property `White_Space` outside the ranges of `isBlank`. -/
def singleBlanks : List Nat := [0x20, 0x85, 0xA0, 0x1680, 0x2028, 0x2029, 0x202F, 0x205F, 0x3000]

/-- The character has the property `White_Space`: tab to carriage return, the spaces from en quad
to hair space, or a single one. -/
def isBlank (c : Char) : Bool :=
  (0x09 ≤ c.toNat && c.toNat ≤ 0x0D) || (0x2000 ≤ c.toNat && c.toNat ≤ 0x200A) ||
    singleBlanks.contains c.toNat

/-- The text without the blanks at its ends. -/
def strip (s : String) : String :=
  let tail := s.toList.dropWhile isBlank
  String.ofList (tail.reverse.dropWhile isBlank).reverse

end Ohmic.Text

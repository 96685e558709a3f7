/-!
# Blank characters

The characters with the White_Space property of Unicode. A text of blanks only is an empty
document, and blanks at the end of a line of an ignore file do not count. Tokens are separated by
fewer characters than these.
-/

namespace Menus

/-- The White_Space property of Unicode. -/
def isBlank (c : Char) : Bool :=
  (0x09 ≤ c.toNat && c.toNat ≤ 0x0D) || c.toNat = 0x20 || c.toNat = 0x85 || c.toNat = 0xA0 ||
    c.toNat = 0x1680 || (0x2000 ≤ c.toNat && c.toNat ≤ 0x200A) || c.toNat = 0x2028 ||
    c.toNat = 0x2029 || c.toNat = 0x202F || c.toNat = 0x205F || c.toNat = 0x3000

/-- A text without a character that can be seen. -/
def isBlankText (text : String) : Bool := text.toList.all isBlank

/-- The characters up to the last one that is not blank. -/
def dropBlankEnd (chars : List Char) : List Char := (chars.reverse.dropWhile isBlank).reverse

end Menus

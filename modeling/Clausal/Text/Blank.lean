/-
# Blank characters

The characters that separate tokens and may stand around a number: the white space of Unicode
(tabulators, line ends, spaces of all widths, line and paragraph separators) and the four
information separators of ASCII.
-/
namespace Clausal.Text

/-- Whether a character is blank. -/
def isBlank (c : Char) : Bool :=
  let n := c.toNat
  0x09 ≤ n && n ≤ 0x0D || 0x1C ≤ n && n ≤ 0x20 || n == 0x85 || n == 0xA0 || n == 0x1680 ||
    0x2000 ≤ n && n ≤ 0x200A || n == 0x2028 || n == 0x2029 || n == 0x202F || n == 0x205F ||
    n == 0x3000

end Clausal.Text

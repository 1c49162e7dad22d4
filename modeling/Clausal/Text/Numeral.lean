/-
# Whole numbers in decimal

A numeral is a sign, which may be missing, and decimal digits of any script, with single
underscores allowed between two digits.  Blanks may stand around it, except the information
separators of ASCII.  A numeral has at most `maxDigits` digits; leading zeros count.
-/
import Clausal.Text.Blank
import Clausal.Text.Digit

namespace Clausal.Text

/-- The most digits that a numeral may have. -/
def maxDigits : Nat := 4300

/-- The values of the digits of a text that starts with a digit and has single underscores between
digits. -/
def readDigits? : List Char → Option (List Nat)
  | [] => none
  | [c] => (digitValue? c).map fun d => [d]
  | c :: '_' :: cs =>
    match digitValue? c with
    | none => none
    | some d => (readDigits? cs).map (d :: ·)
  | c :: cs =>
    match digitValue? c with
    | none => none
    | some d => (readDigits? cs).map (d :: ·)

/-- The number with the given decimal digits, the most significant first. -/
def ofDigits (digits : List Nat) : Nat :=
  digits.foldl (fun n d => 10 * n + d) 0

/-- The number that an unsigned numeral stands for. -/
def readNat? (cs : List Char) : Option Nat :=
  match readDigits? cs with
  | some digits => if digits.length ≤ maxDigits then some (ofDigits digits) else none
  | none => none

/-- Whether a character may stand around a numeral. -/
def isPadding (c : Char) : Bool :=
  isBlank c && !(0x1C ≤ c.toNat && c.toNat ≤ 0x1F)

/-- A text without the padding at its ends. -/
def trimPadding (cs : List Char) : List Char :=
  ((cs.dropWhile isPadding).reverse.dropWhile isPadding).reverse

/-- The number that a numeral stands for. -/
def readInt? (s : String) : Option Int :=
  match trimPadding s.toList with
  | '-' :: cs => (readNat? cs).map fun n => -(n : Int)
  | '+' :: cs => (readNat? cs).map fun n => (n : Int)
  | cs => (readNat? cs).map fun n => (n : Int)

end Clausal.Text

/-
# Quoted text

In messages a text stands between quotation marks, so that its ends, its blanks and its invisible
characters can be seen.  The marks are apostrophes, unless the text has an apostrophe and no double
quotation mark.  Backslash and the chosen mark are written with a backslash before them, line ends
and tabulators by letter, and every other character that is not printable by its code point in
hexadecimal, with two, four or eight digits as needed.
-/
import Clausal.Text.Printable

namespace Clausal.Text

/-- The hexadecimal digits of `n`, in lower case, padded with zeros to `width`. -/
def hexadecimal (width n : Nat) : List Char :=
  let digits := Nat.toDigits 16 n
  List.replicate (width - digits.length) '0' ++ digits

/-- How one character is written between the marks `mark`. -/
def quoteChar (mark c : Char) : List Char :=
  if c = mark || c = '\\' then ['\\', c]
  else if c = '\n' then ['\\', 'n']
  else if c = '\r' then ['\\', 'r']
  else if c = '\t' then ['\\', 't']
  else if isPrintable c then [c]
  else if c.toNat < 0x100 then '\\' :: 'x' :: hexadecimal 2 c.toNat
  else if c.toNat < 0x10000 then '\\' :: 'u' :: hexadecimal 4 c.toNat
  else '\\' :: 'U' :: hexadecimal 8 c.toNat

/-- The quotation mark for a text. -/
def quotationMark (s : String) : Char :=
  if s.toList.contains '\'' && !s.toList.contains '"' then '"' else '\''

/-- The text between quotation marks. -/
def quote (s : String) : String :=
  let mark := quotationMark s
  String.ofList (mark :: (s.toList.flatMap (quoteChar mark) ++ [mark]))

end Clausal.Text

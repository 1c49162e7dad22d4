/-
# Tokens

The written form of literals and terms is a sequence of names and marks with blanks between them.
A name is a run of ASCII letters and digits, as long as possible; the marks are `!`, the
parentheses, the comma and the brackets.  Any other character that is not blank is illegal.
-/
import Clausal.Text.Blank

namespace Clausal

/-- A punctuation mark of the written form. -/
inductive Mark where
  | bang
  | lparen
  | rparen
  | comma
  | lbracket
  | rbracket
  deriving DecidableEq

/-- The character that a mark is written as. -/
def Mark.char : Mark → Char
  | bang => '!'
  | lparen => '('
  | rparen => ')'
  | comma => ','
  | lbracket => '['
  | rbracket => ']'

/-- The mark that is written as a character. -/
def Mark.ofChar? (c : Char) : Option Mark :=
  [bang, lparen, rparen, comma, lbracket, rbracket].find? fun m => m.char = c

/-- A name or a mark. -/
inductive Token where
  | name (text : String)
  | mark (m : Mark)
  deriving DecidableEq

/-- A token in a text. -/
structure Lexeme where
  /-- The token. -/
  token : Token
  /-- The number of characters before it. -/
  pos : Nat

namespace Token

/-- How a token is written. -/
def text : Token → String
  | name s => s
  | mark m => String.singleton m.char

/-- Whether a character may stand in a name. -/
def isNameChar (c : Char) : Bool :=
  c.isAlphanum

/-- Whether a character may stand in a text. -/
def isLegal (c : Char) : Bool :=
  Text.isBlank c || isNameChar c || (Mark.ofChar? c).isSome

/-- The first illegal character, and the number of characters before it. -/
def firstIllegal? : List Char → (pos : Nat) → Option (Char × Nat)
  | [], _ => none
  | c :: cs, pos => if isLegal c then firstIllegal? cs (pos + 1) else some (c, pos)

/-- The name whose characters are `run`, last one first, and which ends before `pos`; nothing if
there are no such characters. -/
def nameEnding (run : List Char) (pos : Nat) : List Lexeme :=
  if run.isEmpty then [] else [⟨.name (String.ofList run.reverse), pos - run.length⟩]

/-- The tokens of the characters from position `pos` on, when the characters `run`, last one first,
are those of a name that has not ended yet.  Characters that are in no token are passed over. -/
def scan : List Char → (pos : Nat) → (run : List Char) → List Lexeme
  | [], pos, run => nameEnding run pos
  | c :: cs, pos, run =>
    if isNameChar c then scan cs (pos + 1) (c :: run)
    else
      match Mark.ofChar? c with
      | some m => nameEnding run pos ++ ⟨.mark m, pos⟩ :: scan cs (pos + 1) []
      | none => nameEnding run pos ++ scan cs (pos + 1) []

/-- The tokens of a text, or the first illegal character and its position. -/
def tokenize (s : String) : Except (Char × Nat) (List Lexeme) :=
  match firstIllegal? s.toList 0 with
  | some illegal => .error illegal
  | none => .ok (scan s.toList 0 [])

end Token

end Clausal

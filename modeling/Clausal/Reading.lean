/-
# Reading terms and literals

The grammar of the written form:

    literal     ::=  [ "!" ] application
    application ::=  name "(" [ term { "," term } ] ")"
    term        ::=  application  |  "[" name "]"

Tokens are read one at a time.  Between two tokens a reading stands inside some open applications,
the innermost of which has read some of its arguments; `Reading.step` says which tokens may come
next and what they do, and `Reading.wanted` what is asked for where no other token may come.  A
reading holds all that has been read, so nothing is ever looked at twice and the first token that
fits no continuation is where a wrong text is reported.
-/
import Clausal.Literal.Basic
import Clausal.Text.Quoted
import Clausal.Token

namespace Clausal

/-! ## 1. What went wrong -/

/-- What a text should have had. -/
inductive Wanted where
  | name
  | mark (m : Mark)
  | ending

/-- Why a text cannot be read. -/
inductive Misreading where
  /-- A character that belongs to no token. -/
  | illegal (c : Char)
  /-- A token that may not come here, or the end of the text. -/
  | expected (wanted : Wanted) (found : Option Token)

/-- A text that cannot be read, and where that shows. -/
structure ReadError where
  /-- The whole text. -/
  text : String
  /-- The number of characters before the place. -/
  pos : Nat
  /-- What is wrong there. -/
  cause : Misreading

/-- How the thing wanted is called in messages. -/
def Wanted.describe : Wanted → String
  | name => "a name"
  | mark m => Text.quote (String.singleton m.char)
  | ending => Text.quote "end"

/-- How the cause is told in messages. -/
def Misreading.describe : Misreading → String
  | illegal c => "unexpected character " ++ Text.quote (String.singleton c)
  | expected wanted found =>
    "expected " ++ wanted.describe ++ ", found " ++
      match found with
      | some token => Text.quote token.text
      | none => "end of input"

/-- The message for a text that cannot be read. -/
def ReadError.message (e : ReadError) : String :=
  e.cause.describe ++ " at position " ++ toString e.pos ++ " in " ++ Text.quote e.text

/-! ## 2. Reading an application -/

/-- An application that is being read: its functor and the arguments read so far. -/
structure OpenApplication where
  functor : String
  args : List Term

/-- Adds an argument. -/
def OpenApplication.push (a : OpenApplication) (t : Term) : OpenApplication :=
  { a with args := a.args ++ [t] }

/-- What the innermost open application has just read. -/
inductive Awaiting where
  /-- Its functor; its parenthesis comes next. -/
  | arguments
  /-- Its parenthesis; its first argument comes next, or its end. -/
  | firstArgument
  /-- A comma; another argument comes next. -/
  | argument
  /-- An argument; a comma comes next, or its end. -/
  | separator
  /-- The bracket of a variable; the variable's name comes next. -/
  | variableName
  /-- A bracket and the variable's name; the other bracket comes next. -/
  | bracket (x : String)

/-- What has been read of an application. -/
inductive Reading where
  /-- The application is open, perhaps with others inside it.  The innermost comes first. -/
  | within (inner : OpenApplication) (outer : List OpenApplication) (awaiting : Awaiting)
  /-- The application is complete. -/
  | complete (functor : String) (args : List Term)

namespace Reading

/-- What is asked for where a token comes that may not. -/
def wanted : Reading → Wanted
  | within _ _ .arguments => .mark .lparen
  | within _ _ .firstArgument => .name
  | within _ _ .argument => .name
  | within _ _ .separator => .mark .rparen
  | within _ _ .variableName => .name
  | within _ _ (.bracket _) => .mark .rbracket
  | complete _ _ => .ending

/-- The innermost open application ends: it becomes an argument of the next one, or is complete. -/
def close (inner : OpenApplication) : List OpenApplication → Reading
  | [] => complete inner.functor inner.args
  | next :: outer => within (next.push (.app inner.functor inner.args)) outer .separator

/-- A term begins with this token, inside the innermost open application. -/
def beginTerm (inner : OpenApplication) (outer : List OpenApplication) : Token → Option Reading
  | .name f => some (within ⟨f, []⟩ (inner :: outer) .arguments)
  | .mark .lbracket => some (within inner outer .variableName)
  | _ => none

/-- Reads one token; there is no result when it may not come here. -/
def step : Reading → Token → Option Reading
  | within inner outer .arguments, .mark .lparen => some (within inner outer .firstArgument)
  | within inner outer .firstArgument, .mark .rparen => some (close inner outer)
  | within inner outer .firstArgument, token => beginTerm inner outer token
  | within inner outer .argument, token => beginTerm inner outer token
  | within inner outer .separator, .mark .comma => some (within inner outer .argument)
  | within inner outer .separator, .mark .rparen => some (close inner outer)
  | within inner outer .variableName, .name x => some (within inner outer (.bracket x))
  | within inner outer (.bracket x), .mark .rbracket =>
    some (within (inner.push (.var x)) outer .separator)
  | _, _ => none

end Reading

/-- Where the tokens of a text stop to fit: what is wanted there, and what stands there instead. -/
structure Mismatch where
  wanted : Wanted
  /-- The first token that does not fit, or nothing at the end of the text. -/
  found : Option Lexeme

/-- Reads all tokens, which must complete the application. -/
def Reading.run : Reading → List Lexeme → Except Mismatch (String × List Term)
  | complete f args, [] => .ok (f, args)
  | r, [] => .error ⟨r.wanted, none⟩
  | r, l :: ls =>
    match r.step l.token with
    | some r' => run r' ls
    | none => .error ⟨r.wanted, some l⟩

/-! ## 3. Reading whole texts -/

namespace Lexeme

/-- Reads an application. -/
def readApplication : List Lexeme → Except Mismatch (String × List Term)
  | ⟨.name f, _⟩ :: ls => (Reading.within ⟨f, []⟩ [] .arguments).run ls
  | ls => .error ⟨.name, ls.head?⟩

/-- Reads a variable whose first bracket has been read. -/
def readVariable : List Lexeme → Except Mismatch Term
  | [⟨.name x, _⟩, ⟨.mark .rbracket, _⟩] => .ok (.var x)
  | ⟨.name _, _⟩ :: ⟨.mark .rbracket, _⟩ :: ls => .error ⟨.ending, ls.head?⟩
  | ⟨.name _, _⟩ :: ls => .error ⟨.mark .rbracket, ls.head?⟩
  | ls => .error ⟨.name, ls.head?⟩

/-- Reads a term. -/
def readTerm : List Lexeme → Except Mismatch Term
  | ⟨.mark .lbracket, _⟩ :: ls => readVariable ls
  | ls => (readApplication ls).map fun r => .app r.1 r.2

/-- Reads a literal. -/
def readLiteral : List Lexeme → Except Mismatch Literal
  | ⟨.mark .bang, _⟩ :: ls => (readApplication ls).map fun r => ⟨true, r.1, r.2⟩
  | ls => (readApplication ls).map fun r => ⟨false, r.1, r.2⟩

end Lexeme

/-- Reads the tokens of a whole text.  An illegal character counts before the grammar does. -/
def readText {α : Type} (read : List Lexeme → Except Mismatch α) (s : String) :
    Except ReadError α :=
  match Token.tokenize s with
  | .error (c, pos) => .error ⟨s, pos, .illegal c⟩
  | .ok lexemes =>
    match read lexemes with
    | .ok a => .ok a
    | .error ⟨wanted, some l⟩ => .error ⟨s, l.pos, .expected wanted (some l.token)⟩
    | .error ⟨wanted, none⟩ => .error ⟨s, s.length, .expected wanted none⟩

/-- The term that a text is the written form of. -/
def Term.parse (s : String) : Except ReadError Term :=
  readText Lexeme.readTerm s

/-- The literal that a text is the written form of. -/
def Literal.parse (s : String) : Except ReadError Literal :=
  readText Lexeme.readLiteral s

end Clausal

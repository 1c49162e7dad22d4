/-
# Command line arguments

The command takes a few switches, some of which want a value.  A long switch may be shortened as
long as only one begins so, and may have its value behind an equals sign; otherwise the value is the
next word.  A word that looks like a negative number, or that has a space in it, is not a switch,
and neither is any word after `--`.  Behind an equals sign `--` is no value either: the switch has
then been given, and nothing with it.

All words are classified before any of them is acted on, so an ambiguous switch counts before every
other fault, and before a request for help.  After that the words are taken from left to right, and
words that nothing asks for are reported at the end.
-/
import Clausal.Problem
import Clausal.Text.Numeral
import Clausal.Text.Quoted

namespace Clausal.CommandLine

/-! ## 1. Switches and settings -/

/-- A switch that wants a value. -/
inductive ValueSwitch where
  | domain
  | steps
  | dot
  deriving DecidableEq

/-- A switch. -/
inductive Switch where
  | help
  | quiet
  | valued (s : ValueSwitch)
  deriving DecidableEq

/-- How a switch is written, the long way last. -/
def Switch.spellings : Switch → List String
  | help => ["-h", "--help"]
  | quiet => ["--quiet"]
  | valued .domain => ["--domain"]
  | valued .steps => ["--steps"]
  | valued .dot => ["--dot"]

/-- How a switch is called in messages. -/
def Switch.title (s : Switch) : String :=
  "/".intercalate s.spellings

/-- The long spellings, in the order in which they are listed. -/
def longSpellings : List (String × Switch) :=
  [("--help", .help), ("--domain", .valued .domain), ("--steps", .valued .steps),
    ("--dot", .valued .dot), ("--quiet", .quiet)]

/-- The limit for the number of rounds. -/
inductive Limit where
  /-- The problem's own. -/
  | own
  | rounds (n : Int)
  /-- None, although there should be one. -/
  | missing

/-- What the user wants. -/
structure Settings where
  /-- The problem to be refuted; there is none if its switch came without one. -/
  problem : Option Problem
  limit : Limit
  /-- The path of the file for the graph. -/
  dot : Option String
  /-- Whether to say less. -/
  quiet : Bool

/-- The settings without any switch. -/
def Settings.initial : Settings where
  problem := some .syllogism
  limit := .own
  dot := none
  quiet := false

/-- What the command is asked to do. -/
inductive Request where
  | help
  | run (settings : Settings)

/-! ## 2. Faults -/

/-- Why the arguments make no sense. -/
inductive UsageFault where
  /-- The beginning of several switches. -/
  | ambiguous (word : String) (candidates : List String)
  /-- A switch without the value it wants. -/
  | expectedValue (s : ValueSwitch)
  /-- A switch with a value it does not want. -/
  | ignoredValue (s : Switch) (value : String)
  | invalidLimit (value : String)
  | invalidProblem (value : String)
  /-- Words that nothing asked for. -/
  | unrecognized (words : List String)

/-- A complaint about one switch. -/
def Switch.complain (s : Switch) (complaint : String) : String :=
  "argument " ++ s.title ++ ": " ++ complaint

/-- The message for a fault. -/
def UsageFault.message : UsageFault → String
  | ambiguous word candidates =>
    "ambiguous option: " ++ word ++ " could match " ++ ", ".intercalate candidates
  | expectedValue s => (Switch.valued s).complain "expected one argument"
  | ignoredValue s value => s.complain ("ignored explicit argument " ++ Text.quote value)
  | invalidLimit value =>
    (Switch.valued .steps).complain ("invalid int value: " ++ Text.quote value)
  | invalidProblem value =>
    (Switch.valued .domain).complain ("invalid choice: " ++ Text.quote value ++ " (choose from " ++
      ", ".intercalate (Problem.all.map fun p => Text.quote p.name) ++ ")")
  | unrecognized words => "unrecognized arguments: " ++ " ".intercalate words

/-! ## 3. Classifying words -/

/-- What a word is. -/
inductive Word where
  /-- A value, or a word that nothing asks for. -/
  | plain
  /-- The word `--`. -/
  | separator
  /-- A word that looks like a switch and is none. -/
  | unknown
  /-- A switch, with the value that is attached to it. -/
  | switch (s : Switch) (attached : Option String)

/-- Whether characters are decimal digits, and there is at least one. -/
def isNumeral (cs : List Char) : Bool :=
  !cs.isEmpty && cs.all Text.isDigit

/-- Whether the characters after a minus sign make it a negative number: digits, perhaps with a
decimal point before the last of them.  One line end may stand behind them. -/
def isMagnitude (cs : List Char) : Bool :=
  let cs := if cs.getLast? = some '\n' then cs.dropLast else cs
  isNumeral cs ||
    match cs.span (· ≠ '.') with
    | (whole, '.' :: fraction) => whole.all Text.isDigit && isNumeral fraction
    | _ => false

/-- A word with a minus sign first that is not the beginning of a switch. -/
def classifyOther (cs : List Char) : Word :=
  if isMagnitude (cs.drop 1) || cs.contains ' ' then .plain else .unknown

/-- The value that the characters behind `-h` attach to it.  There may be an equals sign, and the
letter may be repeated; what is left then is a value. -/
def attachedToHelp (cs : List Char) : Option String :=
  if cs = ['='] then some ""
  else
    let letters := if cs.head? = some '=' then cs.drop 1 else cs
    match letters.dropWhile (· = 'h') with
    | [] => none
    | rest => some (String.ofList rest)

/-- What a word with two minus signs first is. -/
def classifyLong (word : String) : Except UsageFault Word :=
  let (name, rest) := word.toList.span (· ≠ '=')
  let attached :=
    match rest with
    | '=' :: value => some (String.ofList value)
    | _ => none
  match longSpellings.find? fun p => p.1.toList = name with
  | some (_, s) => .ok (.switch s attached)
  | none =>
    match longSpellings.filter fun p => name.isPrefixOf p.1.toList with
    | [] => .ok (classifyOther word.toList)
    | [(_, s)] => .ok (.switch s attached)
    | candidates => .error (.ambiguous word (candidates.map fun p => p.1))

/-- What a word is, if it does not come after `--`. -/
def classify (word : String) : Except UsageFault Word :=
  match word.toList with
  | ['-', '-'] => .ok .separator
  | '-' :: '-' :: _ => classifyLong word
  | '-' :: 'h' :: cs => .ok (.switch .help (attachedToHelp cs))
  | '-' :: c :: cs => .ok (classifyOther ('-' :: c :: cs))
  | _ => .ok .plain

/-- What each word is. -/
def classifyAll : List String → Except UsageFault (List (String × Word))
  | [] => .ok []
  | word :: words =>
    match classify word with
    | .error e => .error e
    | .ok .separator => .ok ((word, .separator) :: words.map fun w => (w, .plain))
    | .ok kind => (classifyAll words).map ((word, kind) :: ·)

/-! ## 4. Acting on words -/

/-- Gives a switch its value. -/
def Settings.set (settings : Settings) (s : ValueSwitch) (value : String) :
    Except UsageFault Settings :=
  match s with
  | .domain =>
    match Problem.find? value with
    | some p => .ok { settings with problem := some p }
    | none => .error (.invalidProblem value)
  | .steps =>
    match Text.readInt? value with
    | some n => .ok { settings with limit := .rounds n }
    | none => .error (.invalidLimit value)
  | .dot => .ok { settings with dot := some value }

/-- Takes the value of a switch away. -/
def Settings.clear (settings : Settings) : ValueSwitch → Settings
  | .domain => { settings with problem := none }
  | .steps => { settings with limit := .missing }
  | .dot => { settings with dot := none }

/-- Gives a switch the value that is attached to it. -/
def Settings.attach (settings : Settings) (s : ValueSwitch) (value : String) :
    Except UsageFault Settings :=
  if value = "--" then .ok (settings.clear s) else settings.set s value

/-- Acts on the words from left to right; `unused` are the words that nothing has asked for. -/
def interpret : List (String × Word) → Settings → (unused : List String) →
    Except UsageFault Request
  | [], settings, unused =>
    if unused.isEmpty then .ok (.run settings) else .error (.unrecognized unused)
  | (_, .switch .help none) :: _, _, _ => .ok .help
  | (_, .switch .help (some value)) :: _, _, _ => .error (.ignoredValue .help value)
  | (_, .switch .quiet none) :: rest, settings, unused =>
    interpret rest { settings with quiet := true } unused
  | (_, .switch .quiet (some value)) :: _, _, _ => .error (.ignoredValue .quiet value)
  | (_, .switch (.valued s) (some value)) :: rest, settings, unused =>
    match settings.attach s value with
    | .ok settings' => interpret rest settings' unused
    | .error e => .error e
  | (_, .switch (.valued s) none) :: (value, .plain) :: rest, settings, unused =>
    match settings.set s value with
    | .ok settings' => interpret rest settings' unused
    | .error e => .error e
  | (_, .switch (.valued s) none) :: _, _, _ => .error (.expectedValue s)
  | (word, .plain) :: rest, settings, unused => interpret rest settings (unused ++ [word])
  | (word, .separator) :: rest, settings, unused => interpret rest settings (unused ++ [word])
  | (word, .unknown) :: rest, settings, unused => interpret rest settings (unused ++ [word])

/-- What the arguments ask for. -/
def request (words : List String) : Except UsageFault Request :=
  match classifyAll words with
  | .error e => .error e
  | .ok classified => interpret classified .initial []

end Clausal.CommandLine

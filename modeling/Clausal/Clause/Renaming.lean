/-
# Renaming the variables of a clause

Two renamings are used.  `Clause.apart` gives a clause variables of its own: each new name ends in a
suffix that no other clause uses, and what stands before the suffix is the variable's base name, with
a number behind it where two variables have the same base.  `Clause.key` gives the variables names
that do not depend on the old ones, so that a clause can be recognised under a renaming.

A renaming only depends on the order in which the variables of a clause first occur, so both are
computed from the list of those variables.
-/
import Clausal.Clause.Basic
import Clausal.Text.Digit

namespace Clausal

/-! ## 1. Base names -/

/-- Takes an underscore and the digits after it off the end of a name.  The name is given, and the
result returned, with its last character first. -/
def dropNumber? (reversed : List Char) : Option (List Char) :=
  match reversed.takeWhile Text.isDigit, reversed.dropWhile Text.isDigit with
  | _ :: _, '_' :: rest => some rest
  | _, _ => none

/-- A variable name without the number of its clause: an underscore and decimal digits at the end
are taken off.  One line end may stand behind them, and stays. -/
def baseName (name : String) : String :=
  match name.toList.reverse with
  | '\n' :: reversed =>
    match dropNumber? reversed with
    | some rest => String.ofList ('\n' :: rest).reverse
    | none => name
  | reversed =>
    match dropNumber? reversed with
    | some rest => String.ofList rest.reverse
    | none => name

/-! ## 2. Standardising apart -/

/-- New names for variables, each with the old name first. -/
structure Renaming where
  pairs : List (String × String)

/-- The new name of a variable; a variable without one keeps its name. -/
def Renaming.image (ρ : Renaming) (x : String) : String :=
  (ρ.pairs.lookup x).getD x

/-- The first of `base`, `base1`, `base2`, ... that is not taken.  One more of them than there are
taken names is enough to find it. -/
def freshName (base : String) (taken : List String) : String :=
  let numbered := (List.range taken.length).map fun n => base ++ toString (n + 1)
  ((base :: numbered).find? fun candidate => !taken.contains candidate).getD base

/-- Names for a list of variables, each made from its base name and different from those taken
before, with the suffix behind it. -/
def freshNames (suffix : String) : (vars taken : List String) → List (String × String)
  | [], _ => []
  | x :: xs, taken =>
    let candidate := freshName (baseName x) taken
    (x, candidate ++ suffix) :: freshNames suffix xs (candidate :: taken)

namespace Clause

/-- The renaming that gives every variable of the clause a name with the suffix. -/
def apartRenaming (suffix : String) (c : Clause) : Renaming :=
  ⟨freshNames suffix c.vars.eraseDups []⟩

/-- The clause with a name with the suffix for every variable. -/
def apart (suffix : String) (c : Clause) : Clause :=
  c.rename (c.apartRenaming suffix).image

end Clause

/-! ## 3. Keys -/

namespace Literal

/-- Compares literals by sign, positive ones first, then by shape, then by written form. -/
def keyCmp : Literal → Literal → Ordering :=
  compareLex (compareOn negated) (compareLex (compareOn shape) (compareOn text))

/-- Puts a literal before the first literal of a list that is not smaller by `keyCmp`. -/
def keyInsert (l : Literal) : List Literal → List Literal
  | [] => [l]
  | m :: ms => if (keyCmp l m).isLE then l :: m :: ms else m :: keyInsert l ms

/-- The literals of a list in the order of `keyCmp`. -/
def keySort (ls : List Literal) : List Literal :=
  ls.foldr keyInsert []

end Literal

namespace Clause

/-- The variables of a clause, in the order in which they first occur when the literals are walked
by sign and shape. -/
def keyVariables (c : Clause) : List String :=
  ((Literal.keySort c.literals).flatMap Literal.vars).eraseDups

/-- The clause with its variables numbered in the order of `keyVariables`.  Clauses with equal keys
are renamings of each other.  A renaming that changes the order of literals of equal sign and
shape may change the key. -/
def key (c : Clause) : Clause :=
  let vars := c.keyVariables
  c.rename fun x => "_" ++ toString (vars.idxOf x)

end Clause

end Clausal

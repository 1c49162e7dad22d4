/-
# Literals

A literal is an atom, a predicate applied to argument terms, with a sign.  An atom is written like
an application, and two atoms are unified as the applications that they are written as.
-/
import Clausal.Unifier

namespace Clausal

/-- An atom or its negation. -/
structure Literal where
  /-- Whether the atom is negated. -/
  negated : Bool
  /-- The predicate of the atom. -/
  predicate : String
  /-- The arguments of the atom. -/
  args : List Term
  deriving DecidableEq

namespace Literal

/-- The atom, as a term. -/
def atom (l : Literal) : Term :=
  .app l.predicate l.args

/-- The literal of the opposite sign. -/
def complement (l : Literal) : Literal :=
  { l with negated := !l.negated }

/-- The written form: the atom, after an exclamation mark if it is negated. -/
def text (l : Literal) : String :=
  (if l.negated then "!" else "") ++ l.atom.text

/-- The shape of the atom. -/
def shape (l : Literal) : String :=
  l.atom.shape

/-- The occurrences of variables, from left to right. -/
def vars (l : Literal) : List String :=
  l.args.flatMap Term.vars

/-- Replaces every variable `x` by `θ x`; the sign is kept. -/
def subst (θ : String → Term) (l : Literal) : Literal :=
  { l with args := l.args.map (Term.subst θ) }

/-- Replaces every variable name `x` by `ρ x`; the sign is kept. -/
def rename (ρ : String → String) (l : Literal) : Literal :=
  { l with args := l.args.map (Term.rename ρ) }

/-- Replaces all bound variables at once; the sign is kept. -/
def apply (σ : Substitution) (l : Literal) : Literal :=
  l.subst σ.image

/-- Replaces bound variables until none is left; there is no result when that has no end. -/
def expand? (σ : Substitution) (l : Literal) : Option Literal :=
  (l.args.mapM σ.expand?).map fun args => { l with args := args }

/-- A most general unifier of the atoms of two literals, whatever their signs. -/
def unify? (l m : Literal) : Option Substitution :=
  l.atom.unify? m.atom

end Literal

end Clausal

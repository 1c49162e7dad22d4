/-
# Rules of inference

Two rules derive clauses.  *Factoring* merges two literals of one clause that have the same sign
and whose atoms unify; *resolution* joins two clauses on a pair of literals of opposite signs whose
atoms unify, and leaves the pair out.  The unifier is applied to all literals that remain.  Both
rules try the pairs of literals in ascending order, so the order of the results is determined.

Resolution is only right for clauses that share no variable: the caller standardises them apart.
-/
import Clausal.Clause.Basic

namespace Clausal

/-- The pairs of members of a list, the earlier member first. -/
def pairs {α : Type} : List α → List (α × α)
  | [] => []
  | a :: as => as.map (fun b => (a, b)) ++ pairs as

namespace Clause

/-- The clause with `m` merged into `l`. -/
def factorOn? (c : Clause) (l m : Literal) : Option Clause :=
  if l.negated = m.negated then
    (l.unify? m).map fun σ => ofList ((c.others m).map (Literal.apply σ))
  else none

/-- All clauses that one step of factoring derives. -/
def factors (c : Clause) : List Clause :=
  (pairs c.literals).filterMap fun p => c.factorOn? p.1 p.2

/-- The two clauses joined on `l` of the first and `m` of the second. -/
def resolventOn? (c d : Clause) (l m : Literal) : Option Clause :=
  if l.negated = m.negated then none
  else (l.unify? m).map fun σ => ofList ((c.others l ++ d.others m).map (Literal.apply σ))

/-- All clauses that one step of resolution derives. -/
def resolvents (c d : Clause) : List Clause :=
  c.literals.flatMap fun l => d.literals.filterMap fun m => c.resolventOn? d l m

end Clause

end Clausal

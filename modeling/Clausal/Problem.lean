/-
# Ready-made problems

Small textbook problems: each is a list of clauses, the last of which is the negated goal, with a
limit for the number of rounds.
-/
import Clausal.KnowledgeBase.Saturation

namespace Clausal

/-- An axiom, a premise or a negated goal. -/
structure Statement where
  /-- The written forms of its literals. -/
  literals : List String
  label : String

/-- A problem to be refuted. -/
structure Problem where
  name : String
  description : String
  /-- How many rounds are made unless another limit is given. -/
  limit : Nat
  statements : List Statement

namespace Problem

/-- The knowledge base of the problem's statements. -/
def knowledgeBase (p : Problem) : KnowledgeBase :=
  p.statements.foldl (fun kb s =>
    match kb.ingest (s.literals.map Item.text) s.label with
    | .ok (kb', _) => kb'
    | .error _ => kb) .empty

/-- The laws of equality, and addition that commutes and associates: replacing equals by equals
inside a sum. -/
def equality : Problem where
  name := "equality"
  description := "Hand-axiomatized equality: d = c -> a+(b+c) = a+(b+d)"
  limit := 10
  statements := [
    ⟨["Eq([x], [x])"], "reflexivity"⟩,
    ⟨["!Eq([x], [y])", "Eq([y], [x])"], "symmetry"⟩,
    ⟨["!Eq([x], [y])", "!Eq([y], [z])", "Eq([x], [z])"], "transitivity"⟩,
    ⟨["!Eq([x], [xs])", "!Eq([y], [ys])", "Eq(add([x], [y]), add([xs], [ys]))"],
      "congruence of add"⟩,
    ⟨["Eq(add([x], [y]), add([y], [x]))"], "add commutes"⟩,
    ⟨["Eq(add([x], add([y], [z])), add(add([x], [y]), [z]))"], "add associates"⟩,
    ⟨["Eq(d(), c())"], "premise: d = c"⟩,
    ⟨["!Eq(add(a(), add(b(), c())), add(a(), add(b(), d())))"],
      "negated goal: a+(b+c) != a+(b+d)"⟩]

/-- Socrates is human, humans are mortal. -/
def syllogism : Problem where
  name := "syllogism"
  description := "Socrates syllogism: prove mortal(socrates) by refutation"
  limit := 10
  statements := [
    ⟨["!human([x])", "mortal([x])"], "all humans are mortal"⟩,
    ⟨["human(socrates())"], "socrates is human"⟩,
    ⟨["!mortal(socrates())"], "negated goal: socrates not mortal"⟩]

/-- A chain of three implications. -/
def chain : Problem where
  name := "chain"
  description := "Multi-step resolution: prove a chain of implications"
  limit := 10
  statements := [
    ⟨["knows(alice(), bob())"], "alice knows bob"⟩,
    ⟨["!knows([x], [y])", "trusts([x], [y])"], "knowing implies trusting"⟩,
    ⟨["!trusts([x], [y])", "cooperates([x], [y])"], "trusting implies cooperating"⟩,
    ⟨["!cooperates([x], [y])", "builds([x], [y])"], "cooperating implies building"⟩,
    ⟨["!builds(alice(), bob())"], "negated goal: alice doesn't build with bob"⟩]

/-- Clauses that have a model. -/
def consistent : Problem where
  name := "consistent"
  description := "Satisfiable clauses: saturation stops without a proof"
  limit := 10
  statements := [
    ⟨["P(a())"], "fact"⟩,
    ⟨["!P([x])", "Q([x])"], "P implies Q"⟩,
    ⟨["!R(b())"], "not R(b)"⟩]

/-- All problems. -/
def all : List Problem :=
  [equality, syllogism, chain, consistent]

/-- The problem of the given name. -/
def find? (name : String) : Option Problem :=
  all.find? fun p => p.name = name

end Problem

end Clausal

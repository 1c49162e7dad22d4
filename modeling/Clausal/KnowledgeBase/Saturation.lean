/-
# Rounds of inference

A round factors the clauses that have not met the others yet, and resolves every pair of clauses
that has not met: row by row, each clause with the later ones.  It stops at the first pair that has
the empty clause among its resolvents, and then stores nothing.  Otherwise all clauses have met,
and what was derived is offered to the store, factors first.

A run makes rounds until the empty clause is found, a round stores nothing, or the limit is
reached.
-/
import Clausal.KnowledgeBase.Basic

namespace Clausal

/-! ## 1. Gathering until a stop -/

section Gather

variable {α β ρ : Type} (f : α → β) (stop : β → Bool)

/-- The results for the members of a list, up to the first one that is a stop. -/
def gather : List α → List β
  | [] => []
  | a :: as =>
    let b := f a
    if stop b then [b] else b :: gather as

/-- The results for the members of all rows, row by row, up to the first one that is a stop. -/
def gatherRows (row : ρ → List α) : List ρ → List β
  | [] => []
  | r :: rs =>
    let bs := gather f stop (row r)
    if bs.any stop then bs else bs ++ gatherRows row rs

theorem gather_append (as as' : List α) :
    gather f stop (as ++ as') =
      if (gather f stop as).any stop then gather f stop as
      else gather f stop as ++ gather f stop as' := by
  induction as with
  | nil => simp [gather]
  | cons a as ih =>
    by_cases h : stop (f a) = true
    · simp [gather, h]
    · simp only [List.cons_append, gather, h, ih, Bool.false_eq_true, if_false, List.any_cons,
        Bool.false_or]
      split <;> rfl

/-- Gathering row by row is gathering along all rows in a line. -/
theorem gatherRows_eq_gather (row : ρ → List α) (rs : List ρ) :
    gatherRows f stop row rs = gather f stop (rs.flatMap row) := by
  induction rs with
  | nil => rfl
  | cons r rs ih => simp only [gatherRows, List.flatMap_cons, gather_append, ih]

end Gather

/-! ## 2. What a round derives -/

/-- The factors of the stored clause at an index. -/
structure Factoring where
  index : Nat
  factors : List Clause

/-- The resolvents of the stored clauses at two indices. -/
structure Meeting where
  left : Nat
  right : Nat
  resolvents : List Clause

/-- All that a round derives, in order. -/
structure Round where
  factorings : List Factoring
  meetings : List Meeting

/-- The factors, as candidates for the store. -/
def Factoring.candidates (f : Factoring) : List Candidate :=
  f.factors.map fun c => ⟨c, [.stored f.index], ""⟩

/-- The resolvents, as candidates for the store. -/
def Meeting.candidates (m : Meeting) : List Candidate :=
  m.resolvents.map fun c => ⟨c, [.stored m.left, .stored m.right], ""⟩

/-- Whether the empty clause is among the resolvents. -/
def Meeting.refutes (m : Meeting) : Bool :=
  m.resolvents.any Clause.isEmpty

namespace Round

/-- All factors. -/
def factors (r : Round) : List Candidate :=
  r.factorings.flatMap Factoring.candidates

/-- All resolvents. -/
def resolvents (r : Round) : List Candidate :=
  r.meetings.flatMap Meeting.candidates

/-- All candidates for the store, factors first. -/
def candidates (r : Round) : List Candidate :=
  r.factors ++ r.resolvents

/-- The first empty clause among the resolvents. -/
def refutation? (r : Round) : Option Candidate :=
  r.resolvents.find? fun c => c.clause.isEmpty

end Round

namespace KnowledgeBase

/-- The stored clauses with their indices. -/
def numbered (kb : KnowledgeBase) : List (Clause × Nat) :=
  (kb.clauses.map fun e => e.clause).zipIdx

/-- The later clauses that the clause at `index` has not met. -/
def unmet (kb : KnowledgeBase) (index : Nat) : List (Clause × Nat) :=
  kb.numbered.drop (max kb.met (index + 1))

/-- The pairs of which a clause is the earlier member and which have not met. -/
def unmetPairs (kb : KnowledgeBase) (a : Clause × Nat) : List ((Clause × Nat) × (Clause × Nat)) :=
  (kb.unmet a.2).map fun b => (a, b)

/-- Resolves a pair of stored clauses. -/
def meet (pair : (Clause × Nat) × (Clause × Nat)) : Meeting :=
  ⟨pair.1.2, pair.2.2, pair.1.1.resolvents pair.2.1⟩

/-- What the next round derives. -/
def nextRound (kb : KnowledgeBase) : Round where
  factorings := (kb.numbered.drop kb.met).map fun a => ⟨a.2, a.1.factors⟩
  meetings := gatherRows meet Meeting.refutes kb.unmetPairs kb.numbered

/-! ## 3. Rounds and runs -/

/-- Adds the record of a round that stored `admitted` clauses. -/
def record (kb : KnowledgeBase) (r : Round) (admitted : Nat) : KnowledgeBase :=
  { kb with history := kb.history ++
      [{ round := kb.rounds, factors := r.factors.length, resolvents := r.resolvents.length,
         admitted := admitted, clauses := kb.clauses.length, met := kb.met }] }

/-- Offers all candidates to the store, in order. -/
def storeAll (kb : KnowledgeBase) (cs : List Candidate) : KnowledgeBase :=
  cs.foldl (fun kb c => (kb.store c).1) kb

/-- Makes a round.  The number is that of the clauses stored or, if the empty clause was found,
that of the clauses derived; so it is zero exactly when the round came to nothing. -/
def performRound (kb : KnowledgeBase) : KnowledgeBase × Nat :=
  let r := kb.nextRound
  let kb := { kb with rounds := kb.rounds + 1 }
  match r.refutation? with
  | some c =>
    let (kb', ref) := kb.enlist { c with round := kb.rounds }
    ((kb'.refuted ref).record r 0, r.candidates.length)
  | none =>
    let kb' := { kb with met := kb.clauses.length }.storeAll r.candidates
    let admitted := kb'.clauses.length - kb.clauses.length
    (kb'.record r admitted, admitted)

/-- Makes a round, unless the empty clause has been found. -/
def runRound (kb : KnowledgeBase) : Except Refusal (KnowledgeBase × Nat) :=
  if kb.contradictory then .error .contradictory else .ok kb.performRound

/-- What a run does. -/
structure Run where
  /-- The knowledge base after each of the rounds made. -/
  rounds : List KnowledgeBase
  /-- The knowledge base at the end. -/
  final : KnowledgeBase

/-- Makes rounds until the empty clause is found, a round comes to nothing, or `limit` rounds have
been made. -/
def runRounds (kb : KnowledgeBase) (limit : Nat) : Run :=
  if kb.contradictory then ⟨[], kb⟩
  else
    match limit with
    | 0 => ⟨[], { kb with halt := some .stepLimit }⟩
    | limit + 1 =>
      let (kb', count) := kb.performRound
      if count = 0 then ⟨[kb'], { kb' with halt := some .saturated }⟩
      else
        let rest := kb'.runRounds limit
        ⟨kb' :: rest.rounds, rest.final⟩

/-- The limit of a run for which no other one is given. -/
def defaultLimit : Int := 10

/-- The knowledge base after at most `limit` rounds; a negative limit allows none. -/
def run (kb : KnowledgeBase) (limit : Int := defaultLimit) : KnowledgeBase :=
  (kb.runRounds limit.toNat).final

end KnowledgeBase

end Clausal

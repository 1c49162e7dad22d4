/-
# Knowledge bases that walk their clauses

A knowledge base whose clauses are kept in tables walks each of them in an order of its own.
`SetOrder` says what is known of such an order: a set that is built from a list has the members of
the list, and a walk meets each of them once.  Which walk it is may depend on the list and on the
occasion.

`Walked.Base` is a knowledge base of that kind.  It makes the same calls as the one with ordered
clauses, by the operations on enumerations, and `settled` forgets the walks.  To store a clause and
to take one in commutes with `settled` as long as all names are plain (`Settles.store`,
`Settles.ingest`).
-/
import Clausal.Proofs.Enumeration
import Clausal.Proofs.Session

namespace Clausal

/-! ## 1. Set orders -/

/-- A walk through a set of literals, which meets each of them once. -/
structure Walk where
  /-- The literals, in the order of the walk. -/
  literals : List Literal
  nodup : literals.Nodup

namespace Walk

/-- The set that is walked. -/
def clause (w : Walk) : Clause :=
  .ofList w.literals

/-- Whether all literals are plain. -/
def Plain (w : Walk) : Prop :=
  ∀ l ∈ w.literals, l.Plain

end Walk

/-- When a set of literals is built. -/
inductive Occasion where
  /-- For a clause of the user, after so many rounds and with so many clauses stored. -/
  | given (rounds stored : Nat)
  /-- For what a round derives at a position. -/
  | derived (round position : Nat)
  /-- For the clause that is stored at an index. -/
  | stored (index : Nat)

/-- A way to walk sets of literals. -/
structure SetOrder where
  /-- The walk through the set that is built from a list. -/
  walk : Occasion → List Literal → Walk
  mem_walk : ∀ {t : Occasion} {ls : List Literal} {l : Literal}, l ∈ (walk t ls).literals ↔ l ∈ ls

namespace SetOrder

/-- A set is walked in the order in which it was built. -/
def forwards : SetOrder where
  walk _ ls := ⟨ls.eraseDups, nodup_eraseDups ls⟩
  mem_walk := List.mem_eraseDups

/-- A set is walked against the order in which it was built. -/
def backwards : SetOrder where
  walk _ ls := ⟨ls.eraseDups.reverse, List.nodup_reverse.mpr (nodup_eraseDups ls)⟩
  mem_walk := List.mem_reverse.trans List.mem_eraseDups

variable (o : SetOrder) (t : Occasion) {ls : List Literal}

@[simp] theorem clause_walk (ls : List Literal) : (o.walk t ls).clause = .ofList ls :=
  Clause.ofList_congr fun _ => o.mem_walk

theorem plain_walk (h : ∀ l ∈ ls, l.Plain) : (o.walk t ls).Plain :=
  fun l hl => h l (o.mem_walk.mp hl)

end SetOrder

/-! ## 2. Knowledge bases that walk their clauses -/

namespace Walked

/-- A clause that is offered to the store. -/
structure Candidate where
  walk : Walk
  source : List Ref
  label : String

/-- A clause that is stored. -/
structure Entry extends Candidate where
  round : Nat

/-- The literals that an inference leads to, and the clauses that it was made from. -/
structure Conclusion where
  literals : List Literal
  source : List Ref

/-- A knowledge base whose clauses are walked in some order. -/
structure Base where
  clauses : List Entry
  /-- The clauses outside of the store, which are pointed to and never walked. -/
  outside : List Clausal.Entry
  /-- An enumeration of the key of every stored clause, with the clause's index. -/
  signatures : List (List Literal × Nat)
  met : Nat
  emptyClause : Option Ref
  history : List RoundRecord
  rounds : Nat
  halt : Option Halt

def Candidate.settled (c : Candidate) : Clausal.Candidate :=
  ⟨c.walk.clause, c.source, c.label⟩

def Entry.settled (e : Entry) : Clausal.Entry :=
  ⟨e.toCandidate.settled, e.round⟩

def Conclusion.settled (d : Conclusion) : Clausal.Candidate :=
  ⟨.ofList d.literals, d.source, ""⟩

namespace Base

/-- The knowledge base with clauses in place of walks. -/
def settled (kb : Base) : KnowledgeBase where
  clauses := kb.clauses.map Entry.settled
  outside := kb.outside
  signatures := kb.signatures.map fun p => (.ofList p.1, p.2)
  met := kb.met
  emptyClause := kb.emptyClause
  history := kb.history
  rounds := kb.rounds
  halt := kb.halt

/-- The knowledge base without any clause. -/
def empty : Base where
  clauses := []
  outside := []
  signatures := []
  met := 0
  emptyClause := none
  history := []
  rounds := 0
  halt := none

/-- The index of the stored clause whose key has the given literals. -/
def find? (kb : Base) (key : List Literal) : Option Nat :=
  (kb.signatures.find? fun p => p.1 ⊆ key ∧ key ⊆ p.1).map Prod.snd

variable (o : SetOrder)

/-- Stores a clause with variables of its own. -/
def append (kb : Base) (c : Candidate) : Base :=
  let index := kb.clauses.length
  let stored : Entry :=
    { walk := o.walk (.stored index) (Enumeration.apart ("_" ++ toString index) c.walk.literals),
      source := c.source, label := c.label, round := kb.rounds }
  { kb with
    clauses := kb.clauses ++ [stored]
    signatures := kb.signatures ++ [(Enumeration.key c.walk.literals, index)] }

/-- Stores a clause unless its key is known. -/
def store (kb : Base) (c : Candidate) : Base :=
  match kb.find? (Enumeration.key c.walk.literals) with
  | some _ => kb
  | none => kb.append o c

/-- Offers all candidates to the store, in order. -/
def storeAll (kb : Base) (cs : List Candidate) : Base :=
  cs.foldl (store o) kb

/-- Notes that the empty clause has been found. -/
def refuted (kb : Base) (r : Ref) : Base :=
  { kb with emptyClause := some r, halt := some .contradiction }

/-- Takes in the clause of the listed literals. -/
def ingest (kb : Base) (ls : List Literal) (label : String) : Base :=
  let walk := o.walk (.given kb.rounds kb.clauses.length) ls
  match kb.find? (Enumeration.key walk.literals) with
  | some _ => kb
  | none =>
    let kb' := kb.append o ⟨walk, [], label⟩
    if walk.literals.isEmpty then kb'.refuted (.stored kb.clauses.length) else kb'

/-- The walks of the stored clauses with their indices. -/
def numbered (kb : Base) : List (Walk × Nat) :=
  (kb.clauses.map fun e => e.walk).zipIdx

/-- The factors of a stored clause. -/
def factor (a : Walk × Nat) : List Conclusion :=
  (Enumeration.factors a.1.literals).map fun ls => ⟨ls, [.stored a.2]⟩

/-- The resolvents of a pair of stored clauses. -/
def meet (pair : (Walk × Nat) × (Walk × Nat)) : List Conclusion :=
  (Enumeration.resolvents pair.1.1.literals pair.2.1.literals).map fun ls =>
    ⟨ls, [.stored pair.1.2, .stored pair.2.2]⟩

/-- The factors that the next round derives. -/
def factors (kb : Base) : List Conclusion :=
  (kb.numbered.drop kb.met).flatMap factor

/-- The pairs of which a clause is the earlier member and which have not met. -/
def unmetPairs (kb : Base) (a : Walk × Nat) : List ((Walk × Nat) × (Walk × Nat)) :=
  (kb.numbered.drop (max kb.met (a.2 + 1))).map fun b => (a, b)

/-- The resolvents that the next round derives, up to the first pair that gives the empty clause. -/
def resolvents (kb : Base) : List Conclusion :=
  (gatherRows meet (fun ds => ds.any fun d => d.literals.isEmpty) kb.unmetPairs kb.numbered).flatten

/-- Adds the record of a round. -/
def record (kb : Base) (factors resolvents admitted : Nat) : Base :=
  { kb with history := kb.history ++
      [{ round := kb.rounds, factors := factors, resolvents := resolvents, admitted := admitted,
         clauses := kb.clauses.length, met := kb.met }] }

/-- What the next round derives, as candidates for the store. -/
def candidates (kb : Base) : List Candidate :=
  (kb.factors ++ kb.resolvents).mapIdx fun k d =>
    ⟨o.walk (.derived (kb.rounds + 1) k) d.literals, d.source, ""⟩

/-- Makes a round, and gives the number of clauses stored or, if the empty clause was found, of
those derived. -/
def performRound (kb : Base) : Base × Nat :=
  match kb.resolvents.find? fun d => d.literals.isEmpty with
  | some d =>
    let found : Clausal.Entry := { toCandidate := d.settled, round := kb.rounds + 1 }
    let kb' := { kb with rounds := kb.rounds + 1, outside := kb.outside ++ [found] }
    ((kb'.refuted (.outside kb.outside.length)).record kb.factors.length kb.resolvents.length 0,
      (kb.candidates o).length)
  | none =>
    let kb' := { kb with rounds := kb.rounds + 1, met := kb.clauses.length }.storeAll o
      (kb.candidates o)
    let admitted := kb'.clauses.length - kb.clauses.length
    (kb'.record kb.factors.length kb.resolvents.length admitted, admitted)

/-- Makes rounds until the empty clause is found, a round comes to nothing, or `limit` rounds have
been made. -/
def runRounds (kb : Base) (limit : Nat) : Base :=
  if kb.emptyClause.isSome then kb
  else
    match limit with
    | 0 => { kb with halt := some .stepLimit }
    | limit + 1 =>
      let (kb', count) := kb.performRound o
      if count = 0 then { kb' with halt := some .saturated } else kb'.runRounds limit

/-- Makes a call; a refused call changes nothing. -/
def call (kb : Base) : Call → Base
  | .ingest items label =>
    if kb.emptyClause.isSome then kb
    else
      match Item.readAll items with
      | .error _ => kb
      | .ok ls => kb.ingest o ls label
  | .offer outside c =>
    if kb.emptyClause.isSome then kb
    else { kb with outside := kb.outside ++ outside }.store o
      ⟨o.walk (.given kb.rounds kb.clauses.length) c.clause.literals, c.source, c.label⟩
  | .round => if kb.emptyClause.isSome then kb else (kb.performRound o).1
  | .run limit => kb.runRounds o limit.toNat

/-- The knowledge base after a sequence of calls. -/
def ofCalls (calls : List Call) : Base :=
  calls.foldl (call o) empty

end Base

/-! ## 3. The store -/

/-- A knowledge base that walks its clauses stands for one with ordered clauses, and its names are
plain. -/
structure Settles (kb : Base) (kb' : KnowledgeBase) : Prop where
  settled : kb.settled = kb'
  plain : ∀ e ∈ kb.clauses, e.walk.Plain

section Store

variable {o : SetOrder} {kb : Base} {kb' : KnowledgeBase} {c : Candidate}

theorem lookup_map_ofList (key : List Literal) : ∀ signatures : List (List Literal × Nat),
    (signatures.map fun p => (Clause.ofList p.1, p.2)).lookup (Clause.ofList key) =
      (signatures.find? fun p => p.1 ⊆ key ∧ key ⊆ p.1).map Prod.snd
  | [] => rfl
  | p :: signatures => by
    have hkey : (Clause.ofList key == Clause.ofList p.1) = decide (p.1 ⊆ key ∧ key ⊆ p.1) := by
      rw [beq_eq_decide, decide_eq_decide, Clause.ofList_eq_iff]
      exact ⟨fun h => ⟨fun l => (h l).mpr, fun l => (h l).mp⟩,
        fun h l => ⟨fun hl => h.2 hl, fun hl => h.1 hl⟩⟩
    rw [List.map_cons, List.lookup_cons, List.find?_cons, hkey, lookup_map_ofList key signatures]
    cases decide (p.1 ⊆ key ∧ key ⊆ p.1) <;> rfl

/-- Keys are looked up by their members. -/
theorem find?_settled (kb : Base) (key : List Literal) :
    kb.settled.find? (.ofList key) = kb.find? key :=
  lookup_map_ofList key kb.signatures

theorem Settles.append (h : Settles kb kb') (hc : c.walk.Plain) :
    Settles (kb.append o c) (kb'.append c.settled) := by
  obtain ⟨rfl, hplain⟩ := h
  have hkey : Clause.ofList (Enumeration.key c.walk.literals) = c.walk.clause.key :=
    Enumeration.ofList_key hc
  have hclause : ∀ t suffix, (o.walk t (Enumeration.apart suffix c.walk.literals)).clause =
      c.walk.clause.apart suffix := fun t suffix => by
    rw [SetOrder.clause_walk, Enumeration.ofList_apart suffix hc]
    rfl
  constructor
  · simp only [Base.append, Base.settled, KnowledgeBase.append, List.map_append, List.map_cons,
      List.map_nil, List.length_map, Entry.settled, Candidate.settled, hclause, hkey]
  · intro e he
    rcases List.mem_append.mp he with he | he
    · exact hplain e he
    · rw [List.mem_singleton.mp he]
      exact o.plain_walk _ (Enumeration.plain_apart (isPlain_suffix _) hc)

theorem Settles.find?_key (h : Settles kb kb') {w : Walk} (hw : w.Plain) :
    kb'.find? w.clause.key = kb.find? (Enumeration.key w.literals) := by
  rw [← h.settled, ← find?_settled, Enumeration.ofList_key hw]
  rfl

/-- **To store a clause does not depend on how it is walked.** -/
theorem Settles.store (h : Settles kb kb') (hc : c.walk.Plain) :
    Settles (kb.store o c) (kb'.store c.settled).1 := by
  have hfind : kb'.find? c.settled.clause.key = _ := h.find?_key hc
  rw [Base.store, KnowledgeBase.store, hfind]
  cases kb.find? (Enumeration.key c.walk.literals) with
  | some _ => exact h
  | none => exact h.append hc

theorem Settles.storeAll {cs : List Candidate} (h : Settles kb kb')
    (hcs : ∀ c ∈ cs, c.walk.Plain) :
    Settles (kb.storeAll o cs) (kb'.storeAll (cs.map Candidate.settled)) := by
  induction cs generalizing kb kb' with
  | nil => exact h
  | cons c cs ih =>
    rw [List.forall_mem_cons] at hcs
    exact ih (h.store hcs.1) hcs.2

theorem Settles.length_clauses (h : Settles kb kb') : kb'.clauses.length = kb.clauses.length := by
  rw [← h.settled]
  exact List.length_map _

theorem Settles.contradictory (h : Settles kb kb') :
    kb'.contradictory = kb.emptyClause.isSome := by
  rw [← h.settled]
  rfl

theorem Settles.refuted (h : Settles kb kb') (r : Ref) :
    Settles (kb.refuted r) (kb'.refuted r) := by
  obtain ⟨rfl, hplain⟩ := h
  exact ⟨rfl, hplain⟩

/-- **To take in a clause does not depend on how its literals are listed.** -/
theorem Settles.ingest (h : Settles kb kb') {items : List Item} {ls ms : List Literal}
    (hread : Item.readAll items = .ok ls) (hactive : kb'.contradictory = false)
    (hplain : ∀ l ∈ ms, l.Plain) (hmem : ∀ l, l ∈ ms ↔ l ∈ ls) (label : String) :
    ∃ kb'' i, kb'.ingest items label = .ok (kb'', i) ∧ Settles (kb.ingest o ms label) kb'' := by
  have hwalk := o.plain_walk (.given kb.rounds kb.clauses.length) hplain
  have hclause : Clause.ofList ls = (o.walk (.given kb.rounds kb.clauses.length) ms).clause := by
    rw [SetOrder.clause_walk]
    exact Clause.ofList_congr fun l => (hmem l).symm
  simp only [KnowledgeBase.ingest, Base.ingest, hactive, Bool.false_eq_true, if_false, hread,
    hclause]
  generalize o.walk (.given kb.rounds kb.clauses.length) ms = w at hwalk
  rw [h.find?_key hwalk, h.length_clauses, Walk.clause, Clause.isEmpty_ofList]
  cases kb.find? (Enumeration.key w.literals) with
  | some i => exact ⟨_, _, rfl, h⟩
  | none =>
    refine ⟨_, _, rfl, ?_⟩
    have happend : Settles (kb.append o ⟨w, [], label⟩) _ := h.append hwalk
    cases w.literals.isEmpty with
    | true => exact happend.refuted _
    | false => exact happend

end Store

end Walked

end Clausal

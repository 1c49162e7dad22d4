/-
# Knowledge bases

A knowledge base stores clauses in the order in which they came in.  A clause that is stored is
first given variables of its own, whose names end in the clause's index, so no two stored clauses
share a variable.  A clause whose key is known already is not stored again.

An entry remembers which clauses it was derived from.  Clauses are told apart by where they are,
not by what they say: a reference points to a stored clause, or to a clause outside of the store,
which may say the same as a stored one without being it.  A knowledge base keeps the clauses outside
of its store that it has references to, among them an empty clause that was derived.

Once the empty clause has been found nothing can be added any more.
-/
import Clausal.Clause.Inference
import Clausal.Clause.Renaming
import Clausal.Reading

namespace Clausal

/-! ## 1. Entries -/

/-- Where a clause is kept. -/
inductive Ref where
  /-- In the store, at this index. -/
  | stored (index : Nat)
  /-- Outside of the store, at this index of the clauses outside. -/
  | outside (index : Nat)
  deriving DecidableEq

/-- A clause that is offered to the store. -/
structure Candidate where
  clause : Clause
  /-- The clauses that it was derived from; none for an axiom or a premise. -/
  source : List Ref
  /-- A remark of the user, possibly empty. -/
  label : String

/-- A clause that is kept. -/
structure Entry extends Candidate where
  /-- The round in which the clause came in. -/
  round : Nat

/-- Why a knowledge base has come to a halt. -/
inductive Halt where
  | contradiction
  | saturated
  | stepLimit
  deriving DecidableEq

/-- How a halt is called. -/
def Halt.reason : Halt → String
  | contradiction => "empty clause derived"
  | saturated => "saturated"
  | stepLimit => "step limit"

/-- What one round of inference did. -/
structure RoundRecord where
  /-- The number of the round. -/
  round : Nat
  /-- How many factors were derived. -/
  factors : Nat
  /-- How many resolvents were derived. -/
  resolvents : Nat
  /-- How many clauses were stored. -/
  admitted : Nat
  /-- How many clauses there were after the round. -/
  clauses : Nat
  /-- How many clauses had met each other after the round. -/
  met : Nat

/-- A growing store of clauses. -/
structure KnowledgeBase where
  /-- The stored clauses. -/
  clauses : List Entry
  /-- The clauses outside of the store that there are references to. -/
  outside : List Entry
  /-- The key of every stored clause, with the clause's index. -/
  signatures : List (Clause × Nat)
  /-- The number of clauses, from the first on, all pairs of which have been resolved. -/
  met : Nat
  /-- The empty clause, once it has been found. -/
  emptyClause : Option Ref
  /-- The rounds so far. -/
  history : List RoundRecord
  /-- The number of rounds so far. -/
  rounds : Nat
  /-- The last halt. -/
  halt : Option Halt

/-! ## 2. Refusals -/

/-- Why a knowledge base refuses a request. -/
inductive Refusal where
  /-- The empty clause has been found. -/
  | contradictory
  /-- The text of a literal cannot be read. -/
  | unreadable (e : ReadError)
  /-- A value of the given kind was offered as a literal. -/
  | notALiteral (kind : String)
  /-- A stored clause was asked for, and this one is not stored. -/
  | notStored (c : Clause)

/-- The message for a refusal. -/
def Refusal.message : Refusal → String
  | contradictory => "knowledge base already contains the empty clause"
  | unreadable e => e.message
  | notALiteral kind => "expected literal text or Literal, got " ++ kind
  | notStored c => c.display ++ " is not stored in this knowledge base"

/-- What is offered as a literal of a new clause. -/
inductive Item where
  /-- The written form of a literal. -/
  | text (s : String)
  | literal (l : Literal)
  /-- A value of another kind, which is no literal. -/
  | other (kind : String)

/-- The literal that an item stands for. -/
def Item.read : Item → Except Refusal Literal
  | text s =>
    match Literal.parse s with
    | .ok l => .ok l
    | .error e => .error (.unreadable e)
  | literal l => .ok l
  | other kind => .error (.notALiteral kind)

/-- The literals that a list of items stands for; the first item that is none decides. -/
def Item.readAll : List Item → Except Refusal (List Literal)
  | [] => .ok []
  | item :: items =>
    match item.read with
    | .error e => .error e
    | .ok l => (readAll items).map (l :: ·)

/-! ## 3. Looking up -/

namespace KnowledgeBase

/-- The knowledge base without any clause. -/
def empty : KnowledgeBase where
  clauses := []
  outside := []
  signatures := []
  met := 0
  emptyClause := none
  history := []
  rounds := 0
  halt := none

/-- Whether the empty clause has been found. -/
def contradictory (kb : KnowledgeBase) : Bool :=
  kb.emptyClause.isSome

/-- The entry that a reference points to. -/
def entry? (kb : KnowledgeBase) : Ref → Option Entry
  | .stored i => kb.clauses[i]?
  | .outside i => kb.outside[i]?

/-- The references to the clauses that a clause was derived from. -/
def parents (kb : KnowledgeBase) (r : Ref) : List Ref :=
  match kb.entry? r with
  | some e => e.source
  | none => []

/-- The name of the clause that a reference points to. -/
def nameOf (kb : KnowledgeBase) (r : Ref) : String :=
  match kb.entry? r with
  | some e => e.clause.name
  | none => ""

/-- The index of a stored clause. -/
def indexOf (kb : KnowledgeBase) : Ref → Except Refusal Nat
  | .stored i => .ok i
  | .outside i =>
    match kb.outside[i]? with
    | some e => .error (.notStored e.clause)
    | none => .error (.notStored .empty)

/-- The index of the stored clause with the given key. -/
def find? (kb : KnowledgeBase) (key : Clause) : Option Nat :=
  kb.signatures.lookup key

/-! ## 4. Adding clauses -/

/-- Keeps a clause outside of the store, and gives the reference to it. -/
def enlist (kb : KnowledgeBase) (e : Entry) : KnowledgeBase × Ref :=
  ({ kb with outside := kb.outside ++ [e] }, .outside kb.outside.length)

/-- Stores a clause with variables of its own. -/
def append (kb : KnowledgeBase) (c : Candidate) : KnowledgeBase :=
  let index := kb.clauses.length
  let stored : Entry :=
    { clause := c.clause.apart ("_" ++ toString index), source := c.source, label := c.label,
      round := kb.rounds }
  { kb with
    clauses := kb.clauses ++ [stored]
    signatures := kb.signatures ++ [(c.clause.key, index)] }

/-- Stores a clause unless its key is known, and gives the index if it was stored. -/
def store (kb : KnowledgeBase) (c : Candidate) : KnowledgeBase × Option Nat :=
  match kb.find? c.clause.key with
  | some _ => (kb, none)
  | none => (kb.append c, some kb.clauses.length)

/-- Offers a derived clause.  The result has its index, unless a clause with its key is there. -/
def offer (kb : KnowledgeBase) (c : Candidate) : Except Refusal (KnowledgeBase × Option Nat) :=
  if kb.contradictory then .error .contradictory else .ok (kb.store c)

/-- Notes that the empty clause has been found. -/
def refuted (kb : KnowledgeBase) (r : Ref) : KnowledgeBase :=
  { kb with emptyClause := some r, halt := some .contradiction }

/-- Takes in an axiom or a premise, and gives the index of the clause that stands for it: a stored
clause with the same key, or else the new one.  To take in the empty clause is to find it. -/
def ingest (kb : KnowledgeBase) (items : List Item) (label : String) :
    Except Refusal (KnowledgeBase × Nat) :=
  if kb.contradictory then .error .contradictory
  else
    match Item.readAll items with
    | .error e => .error e
    | .ok literals =>
      let clause := Clause.ofList literals
      let index := kb.clauses.length
      match kb.find? clause.key with
      | some i => .ok (kb, i)
      | none =>
        let kb' := kb.append ⟨clause, [], label⟩
        .ok (if clause.isEmpty then kb'.refuted (.stored index) else kb', index)

end KnowledgeBase

end Clausal

/-
# Reports

What a knowledge base holds, what its rounds did, and how the empty clause was derived, as texts
to be read.  Every line ends with a line end.
-/
import Clausal.Derivation
import Clausal.KnowledgeBase.Saturation

namespace Clausal

/-- The line for a round. -/
def RoundRecord.line (r : RoundRecord) : String :=
  "  Round " ++ toString r.round ++ ": " ++ toString r.factors ++ " factors, " ++
    toString r.resolvents ++ " resolvents -> " ++ toString r.admitted ++ " admitted (" ++
    toString r.clauses ++ " clauses)"

namespace KnowledgeBase

/-! ## 1. Parts of reports -/

/-- Lines, each with its line end. -/
def unlines (lines : List String) : String :=
  String.join (lines.map (· ++ "\n"))

/-- A line across the page. -/
def ruler : String :=
  String.ofList (List.replicate 60 '=')

/-- Texts with plus signs between them. -/
def plus (texts : List String) : String :=
  " + ".intercalate texts

/-- The number of the last clause that has met all before it; minus one if there is none. -/
def processed (met : Nat) : Int :=
  (met : Int) - 1

/-! ## 2. The store -/

/-- The indices of stored clauses; there is no result if one of the clauses is not stored. -/
def storedIndices? (kb : KnowledgeBase) : List Ref → Option (List Nat)
  | [] => some []
  | .stored i :: refs =>
    if i < kb.clauses.length then (kb.storedIndices? refs).map (i :: ·) else none
  | .outside _ :: _ => none

/-- The line for a stored clause. -/
def entryLine? (kb : KnowledgeBase) (e : Entry) (index : Nat) : Option String :=
  (kb.storedIndices? e.source).map fun indices =>
    "  " ++ toString index ++ ". " ++ e.clause.labelled e.label ++
      if indices.isEmpty then "" else " (from " ++ plus (indices.map toString) ++ ")"

/-- All stored clauses.  There is no report if a parent of a stored clause is not stored. -/
def stateReport? (kb : KnowledgeBase) : Option String :=
  (kb.clauses.zipIdx.mapM fun p => kb.entryLine? p.1 p.2).map fun entries =>
    unlines (["", ruler, "Round: " ++ toString kb.rounds,
        "Clauses (" ++ toString kb.clauses.length ++ ", processed through " ++
          toString (processed kb.met) ++ "):"] ++
      entries ++ (if kb.contradictory then ["Empty clause: derived"] else []) ++ [ruler])

/-! ## 3. The rounds -/

/-- All rounds so far. -/
def historyReport (kb : KnowledgeBase) : String :=
  unlines (["", ruler, "Saturation history:", ruler] ++ kb.history.map RoundRecord.line)

/-- The names of the clauses that an entry was derived from. -/
def sourceNames (kb : KnowledgeBase) (e : Entry) : String :=
  plus (e.source.map kb.nameOf)

/-- What a round did, from the knowledge bases before and after it. -/
def roundReport (before after : KnowledgeBase) : String :=
  let heading := "--- Round " ++ toString after.rounds ++ ": " ++
    toString before.clauses.length ++ " clauses, " ++
    toString (before.clauses.length - before.met) ++ " new ---"
  let lines :=
    match after.emptyClause.bind after.entry? with
    | some e => ["  [empty clause] from " ++ after.sourceNames e]
    | none =>
      let new := after.clauses.drop before.clauses.length
      (new.map fun e => "  [new] " ++ e.clause.name ++ " (from " ++ after.sourceNames e ++ ")") ++
        ["  Admitted: " ++ toString new.length ++ " | Clauses: " ++
          toString after.clauses.length]
  unlines (["", heading] ++ lines)

/-- What each round of a run did, from the knowledge base before the run and those after its
rounds. -/
def runReport (before : KnowledgeBase) : List KnowledgeBase → String
  | [] => ""
  | after :: rest => roundReport before after ++ runReport after rest

/-! ## 4. The derivation of the empty clause -/

/-- The empty clause and all that it was derived from, each clause after its parents; nothing if
the empty clause has not been found. -/
def proof (kb : KnowledgeBase) : List Ref :=
  match kb.emptyClause with
  | none => []
  | some r => Derivation.listing kb.parents (kb.clauses.length + kb.outside.length) r

/-- The line for a clause of a proof, given all clauses of the proof; there is none if a parent is
not in the proof. -/
def proofLine? (kb : KnowledgeBase) (proof : List Ref) (r : Ref) (number : Nat) : Option String :=
  ((kb.parents r).mapM proof.idxOf?).map fun places =>
    let origin :=
      if places.isEmpty then "KB"
      else "from " ++ plus (places.map fun n => toString (n + 1))
    let label := ((kb.entry? r).map fun e => e.label).getD ""
    "  " ++ toString number ++ ". " ++ origin ++ " |= " ++ kb.nameOf r ++
      if label = "" then "" else "  [" ++ label ++ "]"

/-- The derivation of the empty clause, step by step.  There is no report if a parent of one of its
clauses is not in it. -/
def proofReport? (kb : KnowledgeBase) : Option String :=
  let proof := kb.proof
  if proof.isEmpty then some (unlines ["No proof found."])
  else
    ((proof.zipIdx 1).mapM fun p => kb.proofLine? proof p.1 p.2).map fun lines =>
      unlines (["", ruler, "PROOF (refutation)", ruler] ++ lines ++
        [ruler,
          "  QED: empty clause derived -> negated goal is contradictory -> theorem holds."])

end KnowledgeBase

end Clausal

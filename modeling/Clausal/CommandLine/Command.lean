/-
# The command

`refute` takes one of the ready-made problems, runs it, and reports what came out.
-/
import Clausal.CommandLine.Arguments
import Clausal.KnowledgeBase.Graph

namespace Clausal.CommandLine

open KnowledgeBase (unlines)

/-- A graph to be written to a file. -/
structure GraphFile where
  path : String
  knowledgeBase : KnowledgeBase

/-- What the command does. -/
structure Outcome where
  exitCode : Nat
  /-- What it prints. -/
  out : String
  /-- What it prints as a complaint. -/
  err : String
  /-- The graph that it writes after printing. -/
  graph : Option GraphFile

/-- A short summary of the switches. -/
def usage : List String :=
  ["usage: refute [-h] [--domain \x7bequality,syllogism,chain,consistent\x7d]",
    "              [--steps STEPS] [--dot DOT] [--quiet]"]

/-- The help text. -/
def help : String :=
  unlines (usage ++
    ["",
      "First-order resolution prover",
      "",
      "options:",
      "  -h, --help            show this help message and exit",
      "  --domain \x7bequality,syllogism,chain,consistent\x7d",
      "                        Which knowledge base to refute",
      "  --steps STEPS         Max saturation rounds",
      "  --dot DOT             Export DOT graph to file",
      "  --quiet               Less output"])

/-- What came out of a run, if the proof can be reported. -/
def verdict? (kb : KnowledgeBase) : Option String :=
  if kb.contradictory then kb.proofReport?.map (unlines ["", "Proof found!"] ++ ·)
  else
    match kb.halt with
    | some .saturated =>
      some (unlines ["", "Saturated: no new clauses (not a consistency proof)."])
    | some h => some (unlines ["", "No proof found (" ++ h.reason ++ ")."])
    | none => some (unlines ["", "No proof found (interrupted)."])

/-- Why a problem cannot be run. -/
inductive RunFault where
  | missingProblem
  | missingLimit
  /-- A report comes upon a parent that it does not list. -/
  | unknownParent

/-- The message for a problem that cannot be run. -/
def RunFault.message : RunFault → String
  | missingProblem => "unhashable type: 'list'"
  | missingLimit => "'list' object cannot be interpreted as an integer"
  | unknownParent => "a clause has a parent that is not listed"

/-- The limit for the rounds of a problem. -/
def Limit.forProblem (p : Problem) : Limit → Except RunFault Int
  | own => .ok p.limit
  | rounds n => .ok n
  | missing => .error .missingLimit

/-- Runs a problem, with a limit for the number of rounds.  There is no outcome if a report fails. -/
def runProblem? (problem : Problem) (limit : Int) (settings : Settings) : Option Outcome := do
  let start := problem.knowledgeBase
  let run := start.runRounds limit.toNat
  let before ← start.stateReport?
  let details ←
    if settings.quiet then some ""
    else run.final.stateReport?.map (KnowledgeBase.runReport start run.rounds ++ ·)
  let verdict ← verdict? run.final
  return {
    exitCode := 0
    out := unlines ["Domain: " ++ problem.name ++ " -- " ++ problem.description] ++
      before ++ details ++ run.final.historyReport ++ verdict
    err := ""
    graph :=
      match settings.dot with
      | some path => if path = "" then none else some ⟨path, run.final⟩
      | none => none }

/-- Runs the problem that the settings ask for. -/
def solve (settings : Settings) : Except RunFault Outcome :=
  match settings.problem with
  | none => .error .missingProblem
  | some problem =>
    match settings.limit.forProblem problem with
    | .error fault => .error fault
    | .ok limit =>
      match runProblem? problem limit settings with
      | none => .error .unknownParent
      | some outcome => .ok outcome

/-- What the command does with its arguments. -/
def respond (words : List String) : Except RunFault Outcome :=
  match request words with
  | .error fault =>
    .ok ⟨2, "", unlines (usage ++ ["refute: error: " ++ fault.message]), none⟩
  | .ok .help => .ok ⟨0, help, "", none⟩
  | .ok (.run settings) => solve settings

end Clausal.CommandLine

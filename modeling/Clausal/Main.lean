/-
# Entry point of the command
-/
import Clausal.CommandLine.Command

namespace Clausal

/-- Writes the graph of a knowledge base to a file. -/
def KnowledgeBase.writeGraph (kb : KnowledgeBase) (path : String := graphPath) : IO Unit := do
  let opened ← (IO.FS.Handle.mk path .write).toBaseIO
  match kb.exportGraph opened with
  | .error (.unusable fault) => throw fault
  | .error .unknownParent => throw (IO.userError "a clause has a parent that has no node")
  | .ok (file, contents) =>
    file.putStr contents
    IO.print (exportNotice path)

/-- Prints what the command says, and writes the graph that it asks for. -/
def perform (outcome : CommandLine.Outcome) : IO UInt32 := do
  IO.print outcome.out
  IO.eprint outcome.err
  match outcome.graph with
  | none => pure ()
  | some file => file.knowledgeBase.writeGraph file.path
  return outcome.exitCode.toUInt32

end Clausal

open Clausal

/-- The command. -/
def main (args : List String) : IO UInt32 :=
  match CommandLine.respond args with
  | .ok outcome => perform outcome
  | .error fault => throw (IO.userError fault.message)

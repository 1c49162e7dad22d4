/-
# The graph of all derivations

The clauses of a knowledge base and where they come from, in the language of the graph drawing
program `dot`: a node for every stored clause and one for the empty clause, if it has been found,
with an arrow from each parent.  An empty clause that is stored has a node in both places, and
counts as the later one.
-/
import Clausal.KnowledgeBase.Report

namespace Clausal.KnowledgeBase

/-- The clauses that have a node, in the order of the nodes. -/
def graphNodes (kb : KnowledgeBase) : List Ref :=
  (List.range kb.clauses.length).map Ref.stored ++ kb.emptyClause.toList

/-- The number of the node that a clause counts as, if it has one. -/
def nodeNumber? (kb : KnowledgeBase) (r : Ref) : Option Nat :=
  if kb.emptyClause = some r then some kb.clauses.length
  else
    match r with
    | .stored i => if i < kb.clauses.length then some i else none
    | .outside _ => none

/-- The colour of a node. -/
def nodeColour (e : Entry) : String :=
  if e.clause.isEmpty then "salmon" else if e.source.isEmpty then "lightgray" else "lightblue"

/-- A text as it stands inside a label: double quotation marks have a backslash before them. -/
def graphLabel (s : String) : String :=
  String.ofList (s.toList.flatMap fun c => if c = '"' then ['\\', '"'] else [c])

/-- The lines of a node and of the arrows that lead to it; there are none if a parent has no
node. -/
def nodeLines? (kb : KnowledgeBase) (e : Entry) (number : Nat) : Option (List String) :=
  let node := "  c" ++ toString number ++ " [label=\"" ++ graphLabel e.clause.name ++
    "\", fillcolor=" ++ nodeColour e ++ ", style=filled];"
  (e.source.mapM kb.nodeNumber?).map fun numbers =>
    node :: numbers.map fun n => "  c" ++ toString n ++ " -> c" ++ toString number ++ ";"

/-- The whole graph.  There is none if a clause with a node has a parent without one. -/
def graph? (kb : KnowledgeBase) : Option String :=
  let entries := (kb.graphNodes.filterMap kb.entry?).zipIdx
  (entries.mapM fun p => kb.nodeLines? p.1 p.2).map fun lines =>
    unlines (["digraph refute \x7b", "  rankdir=BT;", "  node [shape=box, style=rounded];"] ++
      lines.flatten ++ ["\x7d"])

/-! ## Writing the graph to a file -/

/-- The path of a graph for which no other one is given. -/
def graphPath : String := "refute_graph.dot"

/-- Why a graph is not written. -/
inductive ExportError (Fault : Type) where
  /-- The file cannot be opened, for a reason that lies outside. -/
  | unusable (fault : Fault)
  /-- There is no graph. -/
  | unknownParent

/-- The file that the graph is written to, and its contents, for what came of opening the file.  The
file is opened first, so one that cannot be opened counts before a missing graph. -/
def exportGraph {Fault File : Type} (kb : KnowledgeBase) (opened : Except Fault File) :
    Except (ExportError Fault) (File × String) :=
  match opened with
  | .error fault => .error (.unusable fault)
  | .ok file =>
    match kb.graph? with
    | none => .error .unknownParent
    | some contents => .ok (file, contents)

/-- The notice after a graph has been written. -/
def exportNotice (path : String) : String :=
  unlines ["Graph exported to " ++ path]

end Clausal.KnowledgeBase

/-
# What the graph shows

The graph of all derivations is a text with a line for every node and for every arrow.
`GraphLine.read?` says what a line stands for, and what is read off the lines is compared with what there
is to show: the stored clauses and the empty clause, each once (`KnowledgeBase.shown`).  A clause should
have one node, and one arrow from each of its sources, which comes from a node with a smaller number
(`KnowledgeBase.ShownOnce`).

In sessions without offers the arrows are always right.  A clause is numbered by its place in the store,
an empty clause that was derived comes after all of them, and sources come before what was derived from
them.  The nodes are right as well, with one exception: an empty clause that was taken in is a stored
clause, and it is drawn a second time as the empty clause.  It has no sources and is the source of
nothing, so no arrow is drawn twice with it or leads to the wrong one of its nodes (`graphLines_eq`).

Names may have line ends in them.  The statements are about the lines as they are written; where no
name has a line end these are the lines of the file (`fileLines_unlines`).
-/
import Clausal.Proofs.InPlace
import Clausal.Proofs.PlainNames
import Clausal.Proofs.Reports

namespace Clausal

/-! ## 1. Reading a line -/

/-- What a line of a graph stands for. -/
inductive GraphLine where
  /-- A node with its number, and how it is drawn. -/
  | node (number : Nat) (drawing : String)
  /-- An arrow between the nodes with these numbers. -/
  | arrow (source target : Nat)
  deriving DecidableEq

namespace GraphLine

/-- Takes the name of a node off the beginning of a text, and gives the number and the rest. -/
def takeNumber? : List Char → Option (Nat × List Char)
  | 'c' :: cs =>
    if cs.takeWhile Char.isDigit = [] then none
    else some (Nat.ofDigitChars 10 (cs.takeWhile Char.isDigit) 0, cs.dropWhile Char.isDigit)
  | _ => none

/-- What a line stands for, if it is that of a node or of an arrow. -/
def read? (line : String) : Option GraphLine :=
  match line.toList with
  | ' ' :: ' ' :: cs =>
    match takeNumber? cs with
    | some (number, ' ' :: '[' :: rest) => some (node number (String.ofList ('[' :: rest)))
    | some (source, ' ' :: '-' :: '>' :: ' ' :: rest) =>
      match takeNumber? rest with
      | some (target, [';']) => some (arrow source target)
      | _ => none
    | _ => none
  | _ => none

/-- The line as it is written. -/
def text : GraphLine → String
  | node number drawing => "  c" ++ toString number ++ " " ++ drawing
  | arrow source target => "  c" ++ toString source ++ " -> c" ++ toString target ++ ";"

/-- Whether the line is that of a node. -/
def isNode : GraphLine → Bool
  | node _ _ => true
  | arrow _ _ => false

theorem takeNumber?_append (n : Nat) {d : Char} (hd : d.isDigit = false) (rest : List Char) :
    takeNumber? ('c' :: ((toString n).toList ++ d :: rest)) = some (n, d :: rest) := by
  have hdigits : ∀ c ∈ (toString n).toList, c.isDigit = true := fun _ => isDigit_of_mem_toString
  have hne : (toString n).toList ≠ [] := fun h =>
    toString_ne_empty n (String.toList_inj.mp (h.trans String.toList_empty.symm))
  have htake : ((toString n).toList ++ d :: rest).takeWhile Char.isDigit = (toString n).toList := by
    rw [List.takeWhile_append_of_pos hdigits, List.takeWhile_cons_of_neg (by simp [hd]),
      List.append_nil]
  have hdrop : ((toString n).toList ++ d :: rest).dropWhile Char.isDigit = d :: rest := by
    rw [List.dropWhile_append_of_pos hdigits, List.dropWhile_cons_of_neg (by simp [hd])]
  have hvalue : Nat.ofDigitChars 10 (toString n).toList 0 = n := by
    rw [Nat.toString_eq_ofList_toDigits, String.toList_ofList, Nat.ofDigitChars_ten_toDigits]
  rw [takeNumber?, htake, hdrop, if_neg hne, hvalue]

theorem read?_arrow (i j : Nat) : read? (arrow i j).text = some (arrow i j) := by
  have hchars : (arrow i j).text.toList = ' ' :: ' ' :: 'c' :: ((toString i).toList ++
      ' ' :: '-' :: '>' :: ' ' :: 'c' :: ((toString j).toList ++ ';' :: [])) := by
    simp [text]
  simp only [read?, hchars, takeNumber?_append i (d := ' ') (by decide),
    takeNumber?_append j (d := ';') (by decide)]

theorem read?_node (n : Nat) (rest : String) :
    read? (node n ("[" ++ rest)).text = some (node n ("[" ++ rest)) := by
  have hchars : (node n ("[" ++ rest)).text.toList =
      ' ' :: ' ' :: 'c' :: ((toString n).toList ++ ' ' :: '[' :: rest.toList) := by
    simp [text]
  have hdrawing : String.ofList ('[' :: rest.toList) = "[" ++ rest := by
    rw [← String.toList_inj, String.toList_ofList, String.toList_append]
    rfl
  simp only [read?, hchars, takeNumber?_append n (d := ' ') (by decide), hdrawing]

/-- What is written is read. -/
theorem filterMap_read?_text : ∀ {ls : List GraphLine}, (∀ l ∈ ls, read? l.text = some l) →
    (ls.map text).filterMap read? = ls
  | [], _ => rfl
  | l :: ls, h => by
    rw [List.forall_mem_cons] at h
    rw [List.map_cons, List.filterMap_cons, h.1, filterMap_read?_text h.2]

end GraphLine

/-! ## 2. The lines of a file -/

/-- The lines of a text, each of which has its line end. -/
def fileLines (contents : String) : List String :=
  (contents.toList.splitOn '\n').dropLast.map String.ofList

theorem splitOn_unlines : ∀ {lines : List String}, (∀ l ∈ lines, '\n' ∉ l.toList) →
    (KnowledgeBase.unlines lines).toList.splitOn '\n' = lines.map String.toList ++ [[]]
  | [], _ => rfl
  | l :: lines, h => by
    rw [List.forall_mem_cons] at h
    have hline : ∀ c ∈ l.toList, (c == '\n') = false := fun c hc => by
      have hne : c ≠ '\n' := fun he => h.1 (he ▸ hc)
      simpa using hne
    have hrest := splitOn_unlines h.2
    have hchars : (KnowledgeBase.unlines (l :: lines)).toList =
        l.toList ++ '\n' :: (KnowledgeBase.unlines lines).toList := by
      simp [KnowledgeBase.unlines]
    rw [List.splitOn] at hrest ⊢
    rw [hchars, List.splitOnP_append_cons_of_forall_mem hline '\n' (by decide), hrest]
    rfl

/-- **The lines that were written are those of the file**, if none has a line end in it. -/
theorem fileLines_unlines {lines : List String} (h : ∀ l ∈ lines, '\n' ∉ l.toList) :
    fileLines (KnowledgeBase.unlines lines) = lines := by
  rw [fileLines, splitOn_unlines h, List.dropLast_concat, List.map_map]
  simp [Function.comp_def]

/-! ## 3. What there is to show -/

namespace KnowledgeBase

open GraphLine

variable {kb : KnowledgeBase} {number : Ref → Nat} {r p : Ref} {e : Entry} {i n : Nat}

/-- The stored clauses and the empty clause, each once. -/
def shown (kb : KnowledgeBase) : List Ref :=
  ((List.range kb.clauses.length).map Ref.stored ++ kb.emptyClause.toList).eraseDups

/-- How the node of an entry is drawn: with its name, and in its colour. -/
def entryDrawing (e : Entry) : String :=
  "[" ++ ("label=\"" ++ graphLabel e.clause.name ++ "\", fillcolor=" ++ nodeColour e ++
    ", style=filled];")

/-- How the node of a clause is drawn. -/
def drawing (kb : KnowledgeBase) (r : Ref) : String :=
  match kb.entry? r with
  | some e => entryDrawing e
  | none => ""

/-- A node for a clause, and an arrow to it from the node of each source. -/
def linesFor (kb : KnowledgeBase) (number : Ref → Nat) (r : Ref) (own : Nat) : List GraphLine :=
  node own (kb.drawing r) :: (kb.parents r).map fun p => arrow (number p) own

/-- The nodes can be told apart, and arrows lead to larger numbers. -/
structure Numbers (kb : KnowledgeBase) (number : Ref → Nat) : Prop where
  distinct : ∀ r ∈ kb.shown, ∀ r' ∈ kb.shown, number r = number r' → r = r'
  rising : ∀ r ∈ kb.shown, ∀ p ∈ kb.parents r, p ∈ kb.shown ∧ number p < number r

/-- The lines are, in some order, one node for each clause and one arrow for each place in the sources
of a clause. -/
def ShownOnce (kb : KnowledgeBase) (lines : List GraphLine) : Prop :=
  ∃ number, kb.Numbers number ∧
    lines.Perm (kb.shown.flatMap fun r => kb.linesFor number r (number r))

theorem mem_shown : r ∈ kb.shown ↔
    (∃ i < kb.clauses.length, r = .stored i) ∨ kb.emptyClause = some r := by
  simp [shown, eq_comm]

theorem nodup_stored (n : Nat) : ((List.range n).map Ref.stored).Nodup :=
  (List.nodup_range).map fun _ _ h => Ref.stored.inj h

/-- An empty clause in the store is one of the stored clauses. -/
theorem shown_of_stored (h : kb.emptyClause = some (.stored i)) (hi : i < kb.clauses.length) :
    kb.shown = (List.range kb.clauses.length).map .stored := by
  rw [shown, h, List.eraseDups_append, eraseDups_of_nodup (nodup_stored _)]
  simp [List.removeAll, hi]

/-- Otherwise it is shown besides them. -/
theorem shown_of_not_stored (h : ∀ i, kb.emptyClause ≠ some (.stored i)) :
    kb.shown = kb.graphNodes := by
  refine eraseDups_of_nodup (List.nodup_append.mpr ⟨nodup_stored _, ?_, ?_⟩)
  · cases kb.emptyClause <;> simp
  · rintro _ hr r hr' rfl
    obtain ⟨i, -, rfl⟩ := List.mem_map.mp hr
    exact h i (Option.mem_toList.mp hr')

/-- However the nodes are numbered, a clause has one. -/
theorem countP_linesFor (refs : List Ref) :
    (refs.flatMap fun r => kb.linesFor number r (number r)).countP isNode = refs.length := by
  induction refs with
  | nil => rfl
  | cons r refs ih =>
    have harrows : ((kb.parents r).map fun p => arrow (number p) (number r)).countP isNode = 0 := by
      simp [List.countP_eq_zero, isNode]
    rw [List.flatMap_cons, List.countP_append, ih, linesFor, List.countP_cons_of_pos rfl, harrows,
      List.length_cons]
    omega

theorem ShownOnce.countP_isNode {lines : List GraphLine} (h : kb.ShownOnce lines) :
    lines.countP isNode = kb.shown.length := by
  obtain ⟨number, -, hperm⟩ := h
  rw [hperm.countP_eq, countP_linesFor]

/-! ## 4. The lines that are written -/

/-- What sessions without offers have in common: sources are stored before what was derived from them,
and an empty clause in the store is the last clause and has no sources. -/
structure Sourced (kb : KnowledgeBase) : Prop where
  stored : ∀ (i : Nat) (e : Entry), kb.clauses[i]? = some e → ∀ p ∈ e.source, ∃ j < i, p = .stored j
  empty : ∀ r, kb.emptyClause = some r → ∃ e, kb.entry? r = some e ∧
    ((∃ i, r = .stored i ∧ i + 1 = kb.clauses.length ∧ e.source = []) ∨
      (∃ i, r = .outside i) ∧ ∀ p ∈ e.source, ∃ j < kb.clauses.length, p = .stored j)

theorem Sourced.lt_of_shown (h : kb.Sourced) (hr : .stored i ∈ kb.shown) :
    i < kb.clauses.length := by
  rcases mem_shown.mp hr with ⟨k, hk, hik⟩ | hempty
  · rw [Ref.stored.inj hik]
    exact hk
  · obtain ⟨e, he, -⟩ := h.empty _ hempty
    exact (List.getElem?_eq_some_iff.mp he).1

theorem emptyClause_of_outside (hr : .outside i ∈ kb.shown) :
    kb.emptyClause = some (.outside i) := by
  rcases mem_shown.mp hr with ⟨k, -, hik⟩ | hempty
  · exact absurd hik (by simp)
  · exact hempty

/-- An empty clause in the store leaves the number after all indices to its second node. -/
theorem Sourced.height_lt (h : kb.Sourced) (hempty : kb.emptyClause = some (.stored i))
    (hr : r ∈ kb.shown) : kb.height r < kb.clauses.length := by
  cases r with
  | stored k => exact h.lt_of_shown hr
  | outside k =>
    exact absurd (hempty.symm.trans (emptyClause_of_outside hr)) (by simp)

theorem Sourced.exists_entry (h : kb.Sourced) (hr : r ∈ kb.shown) : ∃ e, kb.entry? r = some e := by
  cases r with
  | stored i => exact ⟨_, List.getElem?_eq_getElem (h.lt_of_shown hr)⟩
  | outside i =>
    obtain ⟨e, he, -⟩ := h.empty _ (emptyClause_of_outside hr)
    exact ⟨e, he⟩

/-- The sources of a clause that is shown come before it. -/
theorem Sourced.source_lt (h : kb.Sourced) (hr : r ∈ kb.shown) (he : kb.entry? r = some e)
    (hp : p ∈ e.source) : ∃ j < kb.height r, j < kb.clauses.length ∧ p = .stored j := by
  cases r with
  | stored i =>
    obtain ⟨j, hj, rfl⟩ := h.stored i e he p hp
    exact ⟨j, hj, hj.trans (h.lt_of_shown hr), rfl⟩
  | outside i =>
    obtain ⟨e', he', ⟨k, hk, -⟩ | ⟨-, hsrc⟩⟩ := h.empty _ (emptyClause_of_outside hr)
    · exact absurd hk (by simp)
    · obtain rfl := Option.some.inj (he.symm.trans he')
      obtain ⟨j, hj, rfl⟩ := hsrc p hp
      exact ⟨j, hj, hj, rfl⟩

/-- No clause was derived from the empty clause. -/
theorem Sourced.emptyClause_ne (h : kb.Sourced) (hr : r ∈ kb.shown) (he : kb.entry? r = some e)
    (hp : p ∈ e.source) : kb.emptyClause ≠ some p := by
  intro hempty
  obtain ⟨j, hj, -, rfl⟩ := h.source_lt hr he hp
  have hlt := h.height_lt hempty hr
  obtain ⟨-, -, ⟨i, hi, hlast, -⟩ | ⟨⟨i, hi⟩, -⟩⟩ := h.empty _ hempty
  · -- The empty clause is the last one in the store, so nothing that is shown comes after it.
    rw [Ref.stored.inj hi] at hj
    omega
  · exact absurd hi (by simp)

/-- So sources are found under their own numbers. -/
theorem Sourced.nodeNumber?_eq (h : kb.Sourced) (hr : r ∈ kb.shown) (he : kb.entry? r = some e)
    (hp : p ∈ e.source) : kb.nodeNumber? p = some (kb.height p) := by
  obtain ⟨j, -, hj, rfl⟩ := h.source_lt hr he hp
  rw [nodeNumber?, if_neg (h.emptyClause_ne hr he hp)]
  exact if_pos hj

theorem Sourced.numbers (h : kb.Sourced) : kb.Numbers kb.height where
  distinct := by
    intro r hr r' hr' heq
    cases r with
    | stored i =>
      cases r' with
      | stored i' => exact congrArg Ref.stored heq
      | outside i' => exact absurd heq (Nat.ne_of_lt (h.lt_of_shown hr))
    | outside i =>
      cases r' with
      | stored i' => exact absurd heq (Nat.ne_of_gt (h.lt_of_shown hr'))
      | outside i' =>
        exact Option.some.inj ((emptyClause_of_outside hr).symm.trans (emptyClause_of_outside hr'))
  rising := by
    intro r hr p hp
    obtain ⟨e, he⟩ := h.exists_entry hr
    rw [parents_eq_source he] at hp
    obtain ⟨j, hj, hjn, rfl⟩ := h.source_lt hr he hp
    exact ⟨mem_shown.mpr (Or.inl ⟨j, hjn, rfl⟩), hj⟩

theorem mem_graphNodes : r ∈ kb.graphNodes ↔ r ∈ kb.shown :=
  List.mem_eraseDups.symm

theorem drawing_eq (he : kb.entry? r = some e) : kb.drawing r = entryDrawing e := by
  rw [drawing, he]

/-- The lines for one node. -/
theorem Sourced.nodeLines?_eq (h : kb.Sourced) (hr : r ∈ kb.shown) (he : kb.entry? r = some e)
    (n : Nat) : kb.nodeLines? e n = some ((kb.linesFor kb.height r n).map text) := by
  have hnumbers : e.source.mapM kb.nodeNumber? = some (e.source.map kb.height) :=
    mapM_eq_some_map fun p hp => h.nodeNumber?_eq hr he hp
  have hbracket (s : String) : " " ++ ("[" ++ ("label=\"" ++ s)) = " [label=\"" ++ s := by
    rw [← String.append_assoc, ← String.append_assoc]
    rfl
  rw [nodeLines?, hnumbers, linesFor, drawing_eq he, parents_eq_source he]
  simp [text, entryDrawing, hbracket, String.append_assoc, Function.comp_def]

/-- The lines for all nodes, each with the number that is its place. -/
theorem Sourced.mapM_nodeLines?_eq (h : kb.Sourced) : ∀ {refs : List Ref} (n : Nat),
    (∀ r ∈ refs, r ∈ kb.shown) →
    ((refs.filterMap kb.entry?).zipIdx n).mapM (fun q => kb.nodeLines? q.1 q.2) =
      some ((refs.zipIdx n).map fun q => (kb.linesFor kb.height q.1 q.2).map text)
  | [], _, _ => rfl
  | r :: refs, n, hrefs => by
    rw [List.forall_mem_cons] at hrefs
    obtain ⟨e, he⟩ := h.exists_entry hrefs.1
    rw [List.filterMap_cons_some he, List.zipIdx_cons, List.mapM_cons, h.nodeLines?_eq hrefs.1 he,
      h.mapM_nodeLines?_eq (n + 1) hrefs.2]
    rfl

/-- The lines of the nodes and arrows, in order. -/
def graphLines (kb : KnowledgeBase) : List GraphLine :=
  kb.graphNodes.zipIdx.flatMap fun q => kb.linesFor kb.height q.1 q.2

/-- All lines of the graph. -/
def writtenLines (kb : KnowledgeBase) : List String :=
  ["digraph refute \x7b", "  rankdir=BT;", "  node [shape=box, style=rounded];"] ++
    kb.graphLines.map text ++ ["\x7d"]

theorem Sourced.graph?_eq (h : kb.Sourced) : kb.graph? = some (unlines kb.writtenLines) := by
  rw [graph?, h.mapM_nodeLines?_eq 0 fun r hr => mem_graphNodes.mp hr, writtenLines, graphLines,
    List.map_flatMap, List.flatMap]
  rfl

/-! ## 5. What is read off them -/

/-- The node that an empty clause in the store has besides its own. -/
def secondNode (kb : KnowledgeBase) : List GraphLine :=
  match kb.emptyClause with
  | some (.stored i) => [node kb.clauses.length (kb.drawing (.stored i))]
  | _ => []

/-- Stored clauses have their indices as numbers. -/
theorem flatMap_zipIdx_stored (kb : KnowledgeBase) (n : Nat) :
    (((List.range n).map Ref.stored).zipIdx.flatMap fun q => kb.linesFor kb.height q.1 q.2) =
      ((List.range n).map Ref.stored).flatMap fun r => kb.linesFor kb.height r (kb.height r) := by
  have hnumber : ∀ q ∈ ((List.range n).map Ref.stored).zipIdx,
      kb.linesFor kb.height q.1 q.2 = kb.linesFor kb.height q.1 (kb.height q.1) := by
    rintro ⟨r, k⟩ hq
    rw [List.mem_zipIdx_iff_getElem?, List.getElem?_map, Option.map_eq_some_iff] at hq
    obtain ⟨i, hi, rfl⟩ := hq
    obtain ⟨hk, hi⟩ := List.getElem?_eq_some_iff.mp hi
    rw [List.getElem_range] at hi
    exact congrArg (kb.linesFor kb.height (.stored i)) hi
  rw [List.flatMap_congr hnumber]
  conv_rhs => rw [← List.zipIdx_map_fst 0 ((List.range n).map Ref.stored), List.flatMap_map]

/-- **The lines of the nodes and arrows** are those that there should be, and a second node for an empty
clause that is stored. -/
theorem Sourced.graphLines_eq (h : kb.Sourced) : kb.graphLines =
    (kb.shown.flatMap fun r => kb.linesFor kb.height r (kb.height r)) ++ kb.secondNode := by
  have hsplit : kb.graphLines =
      (((List.range kb.clauses.length).map Ref.stored).flatMap fun r =>
        kb.linesFor kb.height r (kb.height r)) ++
      kb.emptyClause.toList.flatMap fun r => kb.linesFor kb.height r kb.clauses.length := by
    rw [graphLines, graphNodes, List.zipIdx_append, List.flatMap_append, flatMap_zipIdx_stored]
    cases kb.emptyClause <;> simp
  rw [hsplit, secondNode]
  cases hempty : kb.emptyClause with
  | none =>
    rw [shown_of_not_stored (by simp [hempty]), graphNodes, hempty]
    simp
  | some r =>
    obtain ⟨e, he, ⟨i, rfl, hi, hsrc⟩ | ⟨⟨i, rfl⟩, -⟩⟩ := h.empty r hempty
    · rw [shown_of_stored hempty (by omega)]
      simp [linesFor, parents_eq_source he, hsrc]
    · rw [shown_of_not_stored (by simp [hempty]), graphNodes, hempty]
      simp [height]

/-- The lines of the nodes and arrows, one by one. -/
theorem Sourced.line_cases (h : kb.Sourced) {l : GraphLine} (hl : l ∈ kb.graphLines) :
    (∃ n, ∃ r ∈ kb.shown, ∃ e, kb.entry? r = some e ∧ l = node n (entryDrawing e)) ∨
      ∃ i j, l = arrow i j := by
  obtain ⟨⟨r, n⟩, hq, hl⟩ := List.mem_flatMap.mp hl
  have hr : r ∈ kb.shown := mem_graphNodes.mp (List.fst_mem_of_mem_zipIdx hq)
  obtain ⟨e, he⟩ := h.exists_entry hr
  rcases List.mem_cons.mp hl with rfl | hl
  · exact Or.inl ⟨n, r, hr, e, he, congrArg (node n) (drawing_eq he)⟩
  · obtain ⟨p, -, rfl⟩ := List.mem_map.mp hl
    exact Or.inr ⟨_, _, rfl⟩

/-- **The graph can be read.** -/
theorem Sourced.read_lines (h : kb.Sourced) : kb.writtenLines.filterMap read? = kb.graphLines := by
  have hread : ∀ l ∈ kb.graphLines, read? l.text = some l := by
    intro l hl
    obtain ⟨n, r, -, e, -, rfl⟩ | ⟨i, j, rfl⟩ := h.line_cases hl
    · exact read?_node n _
    · exact read?_arrow i j
  rw [writtenLines, List.filterMap_append, List.filterMap_append, filterMap_read?_text hread]
  have hopening : ["digraph refute \x7b", "  rankdir=BT;",
      "  node [shape=box, style=rounded];"].filterMap read? = [] := by decide
  have hclosing : ["\x7d"].filterMap read? = [] := by decide
  rw [hopening, hclosing, List.nil_append, List.append_nil]

/-- **Every clause is shown once** exactly if the empty clause is not a stored one. -/
theorem Sourced.shownOnce_iff (h : kb.Sourced) :
    kb.ShownOnce kb.graphLines ↔ ∀ i, kb.emptyClause ≠ some (.stored i) := by
  rw [h.graphLines_eq]
  constructor
  · intro honce i hempty
    -- There is one node too many, whatever the numbers are.
    have hcount := honce.countP_isNode
    rw [List.countP_append, countP_linesFor, secondNode, hempty] at hcount
    exact absurd hcount (by simp [isNode])
  · intro hempty
    refine ⟨kb.height, h.numbers, ?_⟩
    have hnone : kb.secondNode = [] := by
      rw [secondNode]
      split
      · rename_i i hi
        exact absurd hi (hempty i)
      · rfl
    rw [hnone, List.append_nil]

/-! ## 6. Line ends -/

theorem mem_graphLabel {s : String} {c : Char} (h : c ∈ (graphLabel s).toList) :
    c ∈ s.toList ∨ c = '\\' := by
  rw [graphLabel, String.toList_ofList, List.mem_flatMap] at h
  obtain ⟨d, hd, hc⟩ := h
  split at hc
  · rename_i hquote
    rcases List.mem_cons.mp hc with rfl | hc
    · exact Or.inr rfl
    · rw [List.mem_singleton.mp hc, ← hquote]
      exact Or.inl hd
  · rw [List.mem_singleton.mp hc]
    exact Or.inl hd

theorem newline_not_mem_toDigits (n : Nat) : '\n' ∉ Nat.toDigits 10 n := by
  intro h
  have hdigit : '\n'.isDigit = true := Nat.isDigit_of_mem_toDigits (by decide) (by decide) h
  exact absurd hdigit (by decide)

theorem newline_not_mem_entryDrawing (h : '\n' ∉ e.clause.name.toList) :
    '\n' ∉ (entryDrawing e).toList := by
  have hlabel : '\n' ∉ (graphLabel e.clause.name).toList := by
    intro hc
    rcases mem_graphLabel hc with hc | hc
    · exact h hc
    · exact absurd hc (by decide)
  have hcolour : '\n' ∉ (nodeColour e).toList := by
    unfold nodeColour
    split
    · decide
    · split <;> decide
  simp [entryDrawing, hlabel, hcolour]

theorem Sourced.fileLines_eq (h : kb.Sourced) (hnames : ∀ r ∈ kb.shown, '\n' ∉ (kb.nameOf r).toList) :
    fileLines (unlines kb.writtenLines) = kb.writtenLines := by
  refine fileLines_unlines ?_
  have hlines : ∀ l ∈ kb.graphLines.map text, '\n' ∉ l.toList := by
    intro l hl
    obtain ⟨g, hg, rfl⟩ := List.mem_map.mp hl
    obtain ⟨n, r, hr, e, he, rfl⟩ | ⟨i, j, rfl⟩ := h.line_cases hg
    · have hname := hnames r hr
      simp only [nameOf, he] at hname
      simp [text, newline_not_mem_toDigits, newline_not_mem_entryDrawing hname]
    · simp [text, newline_not_mem_toDigits]
  rw [writtenLines, List.forall_mem_append, List.forall_mem_append]
  exact ⟨⟨by decide, hlines⟩, by decide⟩

end KnowledgeBase

/-! ## 7. Sessions without offers -/

open KnowledgeBase

namespace Session

variable {s : Session}

theorem Reachable.sourced (h : Reachable False s) : s.kb.Sourced where
  stored := by
    intro i e he p hp
    obtain ⟨j, -, rfl, hj, -⟩ := h.descending.source_lt i e he p hp
    exact ⟨j, hj, rfl⟩
  empty := by
    intro r hr
    obtain ⟨e, he, hempty, ⟨i, rfl, hsrc⟩ | ⟨hout, hder⟩⟩ := h.emptyClause_cases hr
    · exact ⟨e, he, Or.inl ⟨i, rfl, (h.last_of_empty he hempty).2, hsrc⟩⟩
    · refine ⟨e, he, Or.inr ⟨hout, fun p hp => ?_⟩⟩
      obtain ⟨j, -, rfl, hj, -⟩ := hder.source_stored p hp
      exact ⟨j, hj, rfl⟩

/-- The empty clause is stored exactly if it was taken in. -/
theorem Reachable.stored_empty_iff (h : Reachable False s) :
    (∃ i, s.kb.emptyClause = some (.stored i)) ↔ Clause.empty ∈ s.premises := by
  have hnone : ∀ {kb : KnowledgeBase}, kb.contradictory = false →
      ¬ ∃ i, kb.emptyClause = some (.stored i) := by
    rintro kb hactive ⟨i, hi⟩
    simp [contradictory, hi] at hactive
  induction h with
  | start => simp [Session.start, KnowledgeBase.empty]
  | @known s c i reach active found ih =>
    -- A stored clause is a variant of what was taken in, and none is empty.
    obtain ⟨originals, hfiled⟩ := reach.filed
    obtain ⟨e, he, hvar⟩ := hfiled.variant_of_find? found
    have hc : c ≠ .empty :=
      hvar.symm.ne_empty (reach.ne_empty active e (List.mem_of_getElem? he))
    refine ih.trans ?_
    simp [hc.symm]
  | @taken s c label _ active _ nonempty ih =>
    have hc : c ≠ .empty := by
      rintro rfl
      exact absurd nonempty (by decide)
    refine ih.trans ?_
    simp [hc.symm]
  | refuted => simp [KnowledgeBase.refuted]
  | enlisted _ ho _ _ => exact ho.elim
  | offered _ ho _ _ _ => exact ho.elim
  | @round s _ active ih =>
    have hprem : Clause.empty ∉ s.premises := fun hmem => hnone active (ih.mpr hmem)
    refine ⟨?_, fun hmem => absurd hmem hprem⟩
    rintro ⟨i, hi⟩
    cases hr : s.kb.nextRound.refutation? with
    | none =>
      have hstill := (contradictory_performRound_of_none hr).trans active
      exact absurd ⟨i, hi⟩ (hnone hstill)
    | some c =>
      rw [afterRound, performRound_of_some hr] at hi
      exact absurd (Option.some.inj hi) (by simp)
  | halted _ _ _ ih => exact ih

end Session

/-- **Every clause is shown once, unless the empty clause was taken in.**  After any calls but offers the
graph is written to whatever file has been opened, and it is made of the given lines; they are the lines
of the file if no name has a line end in it.  What is read off them is one node for each stored clause and
for the empty clause, and one arrow for each source of each clause, from the node of the source to a node
with a larger number, exactly if no call took in the empty clause.  If one did, the same is read off the
lines, and then one more node, which has a number of its own and is drawn as the empty clause. -/
theorem clauses_are_shown_once_iff (calls : List Call)
    (hplain : ∀ call ∈ calls, call.isOffer = false) :
    let kb := (Session.ofCalls calls).kb
    ∃ lines, kb.graph? = some (unlines lines) ∧
      (∀ (Fault File : Type) (file : File),
        kb.exportGraph (.ok file : Except Fault File) = .ok (file, unlines lines)) ∧
      ((∀ r ∈ kb.shown, '\n' ∉ (kb.nameOf r).toList) → fileLines (unlines lines) = lines) ∧
      (kb.ShownOnce (lines.filterMap GraphLine.read?) ↔
        Clause.empty ∉ (Session.ofCalls calls).premises) ∧
      (Clause.empty ∈ (Session.ofCalls calls).premises →
        ∃ number again empty, kb.Numbers number ∧ (∀ r ∈ kb.shown, number r ≠ again) ∧
          kb.emptyClause = some empty ∧
          lines.filterMap GraphLine.read? =
            (kb.shown.flatMap fun r => kb.linesFor number r (number r)) ++
              [.node again (kb.drawing empty)]) := by
  intro kb
  have hreach : Session.Reachable False (Session.ofCalls calls) := Session.reachable_of_plain hplain
  have hsourced : kb.Sourced := hreach.sourced
  refine ⟨kb.writtenLines, hsourced.graph?_eq, fun _ _ => exportGraph_ok hsourced.graph?_eq,
    hsourced.fileLines_eq, ?_, fun hmem => ?_⟩
  · rw [hsourced.read_lines, hsourced.shownOnce_iff, ← hreach.stored_empty_iff, not_exists]
  · obtain ⟨i, hi⟩ := hreach.stored_empty_iff.mpr hmem
    refine ⟨kb.height, kb.clauses.length, .stored i, hsourced.numbers, fun r hr => ?_, hi, ?_⟩
    · exact Nat.ne_of_lt (hsourced.height_lt hi hr)
    · rw [hsourced.read_lines, hsourced.graphLines_eq, secondNode, hi]

/-- In `factoredFirst` two clauses are taken in and three derived before the empty clause, which is outside
of the store: each has one node. -/
theorem factoredFirst_is_shown_once :
    (∀ call ∈ factoredFirst, call.isOffer = false) ∧
    (Session.ofCalls factoredFirst).kb.shown =
      [.stored 0, .stored 1, .stored 2, .stored 3, .stored 4, .outside 0] ∧
    ∃ contents, (Session.ofCalls factoredFirst).kb.graph? = some contents ∧
      (Session.ofCalls factoredFirst).kb.ShownOnce
        ((fileLines contents).filterMap GraphLine.read?) := by
  have hplain : ∀ call ∈ factoredFirst, call.isOffer = false := by decide
  have hnames : ∀ r ∈ (Session.ofCalls factoredFirst).kb.shown,
      '\n' ∉ ((Session.ofCalls factoredFirst).kb.nameOf r).toList := by decide +kernel
  have hpremises : Clause.empty ∉ (Session.ofCalls factoredFirst).premises := by decide +kernel
  obtain ⟨lines, hgraph, -, hfile, honce, -⟩ := clauses_are_shown_once_iff factoredFirst hplain
  refine ⟨hplain, by decide +kernel, unlines lines, hgraph, ?_⟩
  rw [hfile hnames]
  exact honce.mpr hpremises

/-- The empty clause is all that is taken in. -/
def emptyTakenIn : List Call := [.ingest [] ""]

/-- There is one clause to show, and the file has two nodes for it. -/
theorem emptyTakenIn_is_shown_twice :
    (∀ call ∈ emptyTakenIn, call.isOffer = false) ∧
    (Session.ofCalls emptyTakenIn).kb.shown = [.stored 0] ∧
    ∃ contents, (Session.ofCalls emptyTakenIn).kb.graph? = some contents ∧
      (fileLines contents).filterMap GraphLine.read? =
        [.node 0 "[label=\"[]\", fillcolor=salmon, style=filled];",
          .node 1 "[label=\"[]\", fillcolor=salmon, style=filled];"] ∧
      ¬ (Session.ofCalls emptyTakenIn).kb.ShownOnce
        ((fileLines contents).filterMap GraphLine.read?) := by
  have hshown : (Session.ofCalls emptyTakenIn).kb.shown = [.stored 0] := by decide +kernel
  have hread : (fileLines (unlines (Session.ofCalls emptyTakenIn).kb.writtenLines)).filterMap
      GraphLine.read? =
        [.node 0 "[label=\"[]\", fillcolor=salmon, style=filled];",
          .node 1 "[label=\"[]\", fillcolor=salmon, style=filled];"] := by decide +kernel
  refine ⟨by decide, hshown, _, by decide +kernel, hread, ?_⟩
  intro honce
  have hcount := honce.countP_isNode
  rw [hshown, hread] at hcount
  exact absurd hcount (by decide)

end Clausal

/-
# Reports do not fail

Reports write the number of a clause where they tell what another clause was derived from, and fail
where the clause has no number.  In sessions without offers this cannot happen.  The sources of a
stored clause are stored, at smaller indices and from earlier rounds (`Reachable.descending`), and
so are those of the empty clause; thus the reports of the store, of the proof and of the graph find
all the numbers that they look for.

A graph is written to a file that has been opened before.  Whether it can be opened is not for the
knowledge base to say, so what came of it is given (`exportGraph`), and nothing is assumed about it.

A clause that is offered may name sources outside of the store.  The report of the store fails
exactly when a stored clause has such a source (`stateReport?_eq_none_iff`).
-/
import Clausal.KnowledgeBase.Graph
import Clausal.Proofs.Provenance
import Clausal.Proofs.Traversal

namespace Clausal

namespace KnowledgeBase

variable {kb : KnowledgeBase} {c : Candidate}

/-! ## 1. Sources are stored before -/

/-- Whether a reference points to a stored clause. -/
def Stores (kb : KnowledgeBase) (p : Ref) : Prop :=
  ∃ i e, p = .stored i ∧ kb.clauses[i]? = some e

/-- Stored clauses come from rounds that were made, and their sources from earlier ones, at smaller
indices. -/
structure Descending (kb : KnowledgeBase) : Prop where
  round_le : ∀ e ∈ kb.clauses, e.round ≤ kb.rounds
  source_lt : ∀ (i : Nat) (e : Entry), kb.clauses[i]? = some e → ∀ p ∈ e.source,
    ∃ j d, p = .stored j ∧ j < i ∧ kb.clauses[j]? = some d ∧ d.round < e.round

/-- **The step.**  A clause may be stored if its sources are stored and come from earlier rounds. -/
theorem Descending.append (h : kb.Descending)
    (hc : ∀ p ∈ c.source, ∃ j d, p = .stored j ∧ kb.clauses[j]? = some d ∧ d.round < kb.rounds) :
    (kb.append c).Descending where
  round_le := by
    intro e he
    rcases List.mem_append.mp he with he | he
    · exact h.round_le e he
    · obtain rfl := List.mem_singleton.mp he
      exact Nat.le_refl _
  source_lt := by
    have hkept : ∀ {j : Nat} {d : Entry}, kb.clauses[j]? = some d →
        (kb.append c).clauses[j]? = some d := by
      intro j d hd
      obtain ⟨hj, -⟩ := List.getElem?_eq_some_iff.mp hd
      have hle : kb.clauses <+: (kb.append c).clauses := List.prefix_append _ _
      rw [getElem?_of_isPrefix hle hj, hd]
    intro i e he p hp
    rcases getElem?_append_cases he with hold | ⟨rfl, hsrc, hround, -⟩
    · obtain ⟨j, d, rfl, hji, hd, hlt⟩ := h.source_lt i e hold p hp
      exact ⟨j, d, rfl, hji, hkept hd, hlt⟩
    · rw [hsrc] at hp
      obtain ⟨j, d, rfl, hd, hlt⟩ := hc p hp
      obtain ⟨hj, -⟩ := List.getElem?_eq_some_iff.mp hd
      exact ⟨j, d, rfl, hj, hkept hd, hround ▸ hlt⟩

theorem Descending.round (h : kb.Descending) : kb.performRound.1.Descending := by
  cases hr : kb.nextRound.refutation? with
  | some c =>
    rw [performRound_of_some hr]
    exact ⟨fun e he => Nat.le_succ_of_le (h.round_le e he), h.source_lt⟩
  | none =>
    have hall : (kb.clauses <+: (kb.allMet.storeAll kb.nextRound.candidates).clauses ∧
        (kb.allMet.storeAll kb.nextRound.candidates).rounds = kb.rounds + 1) ∧
        (kb.allMet.storeAll kb.nextRound.candidates).Descending := by
      refine storeAll_induction (P := fun kb' => (kb.clauses <+: kb'.clauses ∧
        kb'.rounds = kb.rounds + 1) ∧ kb'.Descending) ⟨⟨List.prefix_rfl, rfl⟩, ?_⟩ ?_
      · exact ⟨fun e he => Nat.le_succ_of_le (h.round_le e he), h.source_lt⟩
      · rintro kb' c hc ⟨⟨hle, hrounds⟩, hkb'⟩ -
        refine ⟨⟨hle.trans (List.prefix_append _ _), hrounds⟩, hkb'.append fun p hp => ?_⟩
        -- The sources were stored when the round began, so they come from earlier rounds.
        obtain ⟨j, d, rfl, hj, hd⟩ := (derived_of_mem_candidates hc).source_stored p hp
        have hround := h.round_le d (List.mem_of_getElem? hd)
        exact ⟨j, d, rfl, by rw [getElem?_of_isPrefix hle hj, hd], by omega⟩
    rw [performRound_of_none hr]
    exact ⟨hall.2.round_le, hall.2.source_lt⟩

end KnowledgeBase

open KnowledgeBase

theorem Session.Reachable.descending {s : Session} (h : Reachable False s) : s.kb.Descending := by
  have hno : ∀ {kb : KnowledgeBase} (p : Ref), p ∈ ([] : List Ref) →
      ∃ j d, p = .stored j ∧ kb.clauses[j]? = some d ∧ d.round < kb.rounds :=
    fun p hp => absurd hp List.not_mem_nil
  induction h with
  | start =>
    refine ⟨fun e he => absurd he List.not_mem_nil, fun i e he => ?_⟩
    exact absurd he (by simp [Session.start, KnowledgeBase.empty])
  | known _ _ _ ih => exact ih
  | taken _ _ _ _ ih => exact ih.append hno
  | @refuted _ label _ _ _ ih =>
    have happ := ih.append (c := ⟨.empty, [], label⟩) hno
    exact ⟨happ.round_le, happ.source_lt⟩
  | enlisted _ h _ _ => exact h.elim
  | offered _ h _ _ _ => exact h.elim
  | round _ _ ih => exact ih.round
  | halted _ _ _ ih => exact ⟨ih.round_le, ih.source_lt⟩

/-! ## 2. The report of the store -/

namespace KnowledgeBase

variable {kb : KnowledgeBase}

theorem stores_iff_lt {i : Nat} : kb.Stores (.stored i) ↔ i < kb.clauses.length := by
  constructor
  · rintro ⟨j, e, hij, he⟩
    obtain rfl := Ref.stored.inj hij
    exact (List.getElem?_eq_some_iff.mp he).1
  · intro hi
    exact ⟨i, _, rfl, List.getElem?_eq_getElem hi⟩

theorem not_stores_outside (i : Nat) : ¬ kb.Stores (.outside i) := by
  rintro ⟨j, e, hij, -⟩
  exact absurd hij (by simp)

theorem storedIndices?_eq_none_iff : ∀ {refs : List Ref},
    kb.storedIndices? refs = none ↔ ∃ p ∈ refs, ¬ kb.Stores p
  | [] => by simp [storedIndices?]
  | .outside i :: refs => by simp [storedIndices?, not_stores_outside]
  | .stored i :: refs => by
    unfold storedIndices?
    split
    · rename_i hi
      simp [storedIndices?_eq_none_iff, stores_iff_lt, hi]
    · rename_i hi
      simp [stores_iff_lt, hi]

/-- **The report of the store fails** exactly when a stored clause has a source outside of it. -/
theorem stateReport?_eq_none_iff :
    kb.stateReport? = none ↔ ∃ e ∈ kb.clauses, ∃ p ∈ e.source, ¬ kb.Stores p := by
  have hline : ∀ (e : Entry) (i : Nat),
      kb.entryLine? e i = none ↔ ∃ p ∈ e.source, ¬ kb.Stores p := by
    intro e i
    rw [entryLine?, Option.map_eq_none_iff, storedIndices?_eq_none_iff]
  rw [stateReport?, Option.map_eq_none_iff, mapM_eq_none_iff]
  simp only [hline]
  constructor
  · rintro ⟨⟨e, i⟩, he, hp⟩
    exact ⟨e, List.fst_mem_of_mem_zipIdx he, hp⟩
  · rintro ⟨e, he, hp⟩
    obtain ⟨i, hi⟩ := List.mem_iff_getElem?.mp he
    exact ⟨(e, i), List.mem_zipIdx_iff_getElem?.mpr hi, hp⟩

/-! ## 3. The report of the proof -/

/-- The line for a clause of a proof in which all parents are found, with the numbers of their
places. -/
def proofLine (kb : KnowledgeBase) (proof : List Ref) (r : Ref) (number : Nat) : String :=
  let source := kb.parents r
  let origin :=
    if source.isEmpty then "KB"
    else "from " ++ plus (source.map fun p => toString (proof.idxOf p + 1))
  let label := ((kb.entry? r).map fun e => e.label).getD ""
  "  " ++ toString number ++ ". " ++ origin ++ " |= " ++ kb.nameOf r ++
    if label = "" then "" else "  [" ++ label ++ "]"

theorem proofLine?_eq_some {proof : List Ref} {r : Ref} (h : ∀ p ∈ kb.parents r, p ∈ proof)
    (number : Nat) : kb.proofLine? proof r number = some (kb.proofLine proof r number) := by
  have hplaces : (kb.parents r).mapM proof.idxOf? = some ((kb.parents r).map proof.idxOf) := by
    refine mapM_eq_some_map fun p hp => ?_
    obtain ⟨n, hn⟩ := Option.isSome_iff_exists.mp (List.isSome_idxOf?.mpr (h p hp))
    rw [List.idxOf_eq_getD_idxOf?, hn, Option.getD_some]
  rw [proofLine?, hplaces, proofLine]
  simp [List.map_map, Function.comp_def]

/-- There is a report of a proof that has all parents of its clauses in it. -/
theorem exists_proofReport? (h : ∀ r ∈ kb.proof, ∀ p ∈ kb.parents r, p ∈ kb.proof) :
    ∃ report, kb.proofReport? = some report := by
  have hlines : (kb.proof.zipIdx 1).mapM (fun q => kb.proofLine? kb.proof q.1 q.2) =
      some ((kb.proof.zipIdx 1).map fun q => kb.proofLine kb.proof q.1 q.2) :=
    mapM_eq_some_map fun q hq => proofLine?_eq_some (h q.1 (List.fst_mem_of_mem_zipIdx hq)) q.2
  simp only [proofReport?, hlines]
  split
  · exact ⟨_, rfl⟩
  · exact ⟨_, rfl⟩

/-! ## 4. The graph -/

theorem exists_nodeNumber? {p : Ref} (h : kb.Stores p) : ∃ n, kb.nodeNumber? p = some n := by
  obtain ⟨i, e, rfl, he⟩ := h
  obtain ⟨hi, -⟩ := List.getElem?_eq_some_iff.mp he
  unfold nodeNumber?
  split
  · exact ⟨_, rfl⟩
  · exact ⟨i, if_pos hi⟩

/-- There is a graph if the sources of all clauses that have a node are stored. -/
theorem exists_graph? (h : ∀ r ∈ kb.graphNodes, ∀ e, kb.entry? r = some e →
    ∀ p ∈ e.source, kb.Stores p) : ∃ contents, kb.graph? = some contents := by
  rw [← Option.isSome_iff_exists, Option.isSome_iff_ne_none]
  intro hnone
  rw [graph?, Option.map_eq_none_iff, mapM_eq_none_iff] at hnone
  obtain ⟨⟨e, n⟩, hmem, hlines⟩ := hnone
  obtain ⟨r, hr, he⟩ := List.mem_filterMap.mp (List.fst_mem_of_mem_zipIdx hmem)
  rw [nodeLines?, Option.map_eq_none_iff, mapM_eq_none_iff] at hlines
  obtain ⟨p, hp, hnumber⟩ := hlines
  obtain ⟨k, hk⟩ := exists_nodeNumber? (h r hr e he p hp)
  rw [hk] at hnumber
  exact absurd hnumber (by simp)

/-- A graph that is there is written to any file that is open. -/
theorem exportGraph_ok {Fault File : Type} {contents : String} (h : kb.graph? = some contents)
    (file : File) : kb.exportGraph (.ok file : Except Fault File) = .ok (file, contents) := by
  simp only [exportGraph, h]

end KnowledgeBase

/-! ## 5. Sessions without offers -/

namespace Session

variable {s : Session}

theorem Reachable.stores_source (h : Reachable False s) {i : Nat} {e : Entry}
    (he : s.kb.clauses[i]? = some e) : ∀ p ∈ e.source, s.kb.Stores p := by
  intro p hp
  obtain ⟨j, d, rfl, -, hd, -⟩ := h.descending.source_lt i e he p hp
  exact ⟨j, d, rfl, hd⟩

theorem Reachable.stores_source_of_empty (h : Reachable False s) {r : Ref}
    (hr : s.kb.emptyClause = some r) :
    ∃ e, s.kb.entry? r = some e ∧ ∀ p ∈ e.source, s.kb.Stores p := by
  obtain ⟨e, he, -, ⟨i, -, hsrc⟩ | ⟨-, hder⟩⟩ := h.emptyClause_cases hr
  · exact ⟨e, he, fun p hp => absurd (hsrc ▸ hp) List.not_mem_nil⟩
  · refine ⟨e, he, fun p hp => ?_⟩
    obtain ⟨j, d, rfl, -, hd⟩ := hder.source_stored p hp
    exact ⟨j, d, rfl, hd⟩

theorem Reachable.exists_stateReport? (h : Reachable False s) :
    ∃ report, s.kb.stateReport? = some report := by
  rw [← Option.isSome_iff_exists, Option.isSome_iff_ne_none]
  intro hnone
  obtain ⟨e, he, p, hp, hnot⟩ := stateReport?_eq_none_iff.mp hnone
  obtain ⟨i, hi⟩ := List.mem_iff_getElem?.mp he
  exact hnot (h.stores_source hi p hp)

/-- Every parent of a clause in the proof is in the proof. -/
theorem Reachable.mem_proof_of_parent (h : Reachable False s) {r : Ref} (hr : r ∈ s.kb.proof) :
    ∀ p ∈ s.kb.parents r, p ∈ s.kb.proof := by
  intro p hp
  cases hroot : s.kb.emptyClause with
  | none =>
    have hnil : s.kb.proof = [] := by simp only [KnowledgeBase.proof, hroot]
    exact absurd (hnil ▸ hr) List.not_mem_nil
  | some root =>
    obtain ⟨k, hk⟩ := List.mem_iff_getElem?.mp hr
    obtain ⟨-, horder, -⟩ := h.proof_spec hroot
    obtain ⟨j, -, hj⟩ := horder k r hk p hp
    exact List.mem_of_getElem? hj

theorem Reachable.exists_graph? (h : Reachable False s) :
    ∃ contents, s.kb.graph? = some contents := by
  refine KnowledgeBase.exists_graph? fun r hr e he => ?_
  rcases List.mem_append.mp hr with hr | hr
  · obtain ⟨i, -, rfl⟩ := List.mem_map.mp hr
    exact h.stores_source he
  · obtain ⟨e', he', hstores⟩ := h.stores_source_of_empty (Option.mem_toList.mp hr)
    obtain rfl := Option.some.inj (he.symm.trans he')
    exact hstores

end Session

/-- **Provenance is well founded, and reports do not fail.**  After any calls but offers, the
sources of a stored clause are stored, at smaller indices and from earlier rounds, and the sources
of the empty clause are stored.  So there is a report of the store; there is a report of the proof,
every line of which finds the numbers of the parents; and there is a graph, which is written to
whatever file has been opened.  After any calls whatsoever, the report of the store fails if and only
if a stored clause has a source that is not stored. -/
theorem provenance_is_well_founded :
    (∀ calls : List Call, (∀ call ∈ calls, call.isOffer = false) →
      let kb := (Session.ofCalls calls).kb
      ((∀ (i : Nat) (e : Entry), kb.clauses[i]? = some e → ∀ p ∈ e.source,
          ∃ j d, p = .stored j ∧ j < i ∧ kb.clauses[j]? = some d ∧ d.round < e.round) ∧
        ∀ r, kb.emptyClause = some r →
          ∃ e, kb.entry? r = some e ∧ ∀ p ∈ e.source, kb.Stores p) ∧
      (∃ report, kb.stateReport? = some report) ∧
      ((∃ report, kb.proofReport? = some report) ∧ ∀ r ∈ kb.proof, ∀ number,
        kb.proofLine? kb.proof r number = some (kb.proofLine kb.proof r number)) ∧
      ∃ contents, kb.graph? = some contents ∧ ∀ (Fault File : Type) (file : File),
        kb.exportGraph (.ok file : Except Fault File) = .ok (file, contents)) ∧
    ∀ calls : List Call,
      let kb := (Session.ofCalls calls).kb
      kb.stateReport? = none ↔ ∃ e ∈ kb.clauses, ∃ p ∈ e.source, ¬ kb.Stores p := by
  refine ⟨?_, fun _ => stateReport?_eq_none_iff⟩
  intro calls hplain kb
  have hreach : Session.Reachable False (Session.ofCalls calls) := Session.reachable_of_plain hplain
  obtain ⟨contents, hgraph⟩ := hreach.exists_graph?
  refine ⟨⟨hreach.descending.source_lt, fun r hr => hreach.stores_source_of_empty hr⟩,
    hreach.exists_stateReport?, ⟨?_, ?_⟩, contents, hgraph, fun _ _ => exportGraph_ok hgraph⟩
  · exact exists_proofReport? fun r hr => hreach.mem_proof_of_parent hr
  · exact fun r hr => proofLine?_eq_some (hreach.mem_proof_of_parent hr)

/-- A clause that names a clause outside of the store as its source. -/
def foreignSource : List Call := [
  .offer [⟨⟨.ofList [⟨false, "Q", []⟩], [], ""⟩, 0⟩]
    ⟨.ofList [⟨false, "P", [.var "x"]⟩], [.outside 0], ""⟩]

/-- In `factoredFirst` the clause that was factored comes from an earlier round than its factor, and
there is a report of the store; for `foreignSource` there is none. -/
theorem factoredFirst_is_reported :
    ((∀ call ∈ factoredFirst, call.isOffer = false) ∧
      ∃ report, (Session.ofCalls factoredFirst).kb.stateReport? = some report) ∧
    (∃ d e, (Session.ofCalls factoredFirst).kb.clauses[0]? = some d ∧
      (Session.ofCalls factoredFirst).kb.clauses[2]? = some e ∧ e.source = [.stored 0] ∧
        d.round < e.round) ∧
    (Session.ofCalls foreignSource).kb.stateReport? = none := by
  have hplain : ∀ call ∈ factoredFirst, call.isOffer = false := by decide
  obtain ⟨hsessions, hfails⟩ := provenance_is_well_founded
  obtain ⟨⟨hsource, -⟩, hreport, -⟩ := hsessions factoredFirst hplain
  have hsome : ((Session.ofCalls factoredFirst).kb.entry? (.stored 2)).isSome = true := by
    decide +kernel
  have hparents : (Session.ofCalls factoredFirst).kb.parents (.stored 2) = [.stored 0] := by
    decide +kernel
  obtain ⟨e, he⟩ := Option.isSome_iff_exists.mp hsome
  rw [parents_eq_source he] at hparents
  obtain ⟨j, d, hj, -, hd, hlt⟩ := hsource 2 e he (.stored 0) (hparents ▸ List.mem_cons_self)
  obtain rfl := Ref.stored.inj hj
  refine ⟨⟨hplain, hreport⟩, ⟨d, e, hd, he, hparents, hlt⟩, (hfails foreignSource).mpr ?_⟩
  exact ⟨_, List.mem_cons_self, .outside 0, List.mem_cons_self, not_stores_outside 0⟩

end Clausal

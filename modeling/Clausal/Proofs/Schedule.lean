/-
# Every pair meets once

The account of a session lists the rounds that were made, and a round lists the clauses that it
factored and the pairs that it resolved.  `Session.factored` and `Session.resolved` are the indices
of all of them, in order.

The watermark `met` tells how far the rounds have come: while no empty clause has been found, the
pairs resolved are exactly those below it, and the clauses factored are exactly those below it.  A
round adds the pairs whose later member is at or above the watermark, so it repeats nothing, even if
it stops early; and if it does not, it raises the watermark to the number of clauses that it began
with.  Calls that only store clauses leave the watermark and the account as they are.  `Scheduled`
is this invariant.
-/
import Clausal.KnowledgeBase.Report
import Clausal.Proofs.Session

namespace Clausal

/-! ## 1. The account of a session -/

namespace Session

/-- The indices of the pairs of clauses that were resolved, in order. -/
def resolved (s : Session) : List (Nat × Nat) :=
  s.rounds.flatMap fun r => r.meetings.map Meeting.indices

/-- The indices of the clauses that were factored, in order. -/
def factored (s : Session) : List Nat :=
  s.rounds.flatMap fun r => r.factorings.map Factoring.index

theorem resolved_afterRound (s : Session) :
    s.afterRound.resolved = s.resolved ++ s.kb.nextRound.meetings.map Meeting.indices := by
  simp [resolved, afterRound]

theorem factored_afterRound (s : Session) :
    s.afterRound.factored = s.factored ++ (List.range s.kb.clauses.length).drop s.kb.met := by
  simp [factored, afterRound, KnowledgeBase.map_index_factorings]

end Session

namespace KnowledgeBase

/-- The results that a round lists are those of the stored clauses at the indices that it lists. -/
def Accounts (kb : KnowledgeBase) (r : Round) : Prop :=
  (∀ f ∈ r.factorings, ∃ e, kb.clauses[f.index]? = some e ∧ f.factors = e.clause.factors) ∧
  ∀ m ∈ r.meetings, ∃ d e, kb.clauses[m.left]? = some d ∧ kb.clauses[m.right]? = some e ∧
    m.resolvents = d.clause.resolvents e.clause

theorem accounts_nextRound (kb : KnowledgeBase) : kb.Accounts kb.nextRound :=
  ⟨fun _ hf => (mem_factorings.mp hf).2, fun _ hm => (mem_meetings hm).2⟩

/-- What was stored stays, so an account stays right when the store grows. -/
theorem Accounts.mono {kb kb' : KnowledgeBase} {r : Round} (h : kb.Accounts r)
    (hsub : kb.clauses <+: kb'.clauses) : kb'.Accounts r := by
  have hget : ∀ {i : Nat} {e : Entry}, kb.clauses[i]? = some e → kb'.clauses[i]? = some e := by
    intro i e he
    obtain ⟨hi, -⟩ := List.getElem?_eq_some_iff.mp he
    rw [getElem?_of_isPrefix hsub hi, he]
  constructor
  · intro f hf
    obtain ⟨e, he, hfac⟩ := h.1 f hf
    exact ⟨e, hget he, hfac⟩
  · intro m hm
    obtain ⟨d, e, hd, he, hres⟩ := h.2 m hm
    exact ⟨d, e, hget hd, hget he, hres⟩

end KnowledgeBase

/-! ## 2. The invariant -/

open KnowledgeBase

/-- The rounds of a session have resolved and factored what lies below the watermark, without
repetition. -/
structure Scheduled (s : Session) : Prop where
  /-- The watermark does not pass the number of clauses. -/
  met_le : s.kb.met ≤ s.kb.clauses.length
  nodup_resolved : s.resolved.Nodup
  nodup_factored : s.factored.Nodup
  mem_resolved : s.kb.contradictory = false → ∀ p, p ∈ s.resolved ↔ p.1 < p.2 ∧ p.2 < s.kb.met
  mem_factored : s.kb.contradictory = false → ∀ i, i ∈ s.factored ↔ i < s.kb.met
  accounts : ∀ r ∈ s.rounds, s.kb.Accounts r

namespace Scheduled

variable {s : Session}

/-- Storing clauses and finding the empty clause keep the invariant, if the watermark stays. -/
theorem mono {kb : KnowledgeBase} (h : Scheduled s) (premises : List Clause)
    (hsub : s.kb.clauses <+: kb.clauses) (hmet : kb.met = s.kb.met)
    (hactive : s.kb.contradictory = false) : Scheduled ⟨kb, premises, s.rounds⟩ where
  met_le := by
    have := h.met_le
    have := hsub.length_le
    show kb.met ≤ kb.clauses.length
    omega
  nodup_resolved := h.nodup_resolved
  nodup_factored := h.nodup_factored
  mem_resolved _ := hmet ▸ h.mem_resolved hactive
  mem_factored _ := hmet ▸ h.mem_factored hactive
  accounts r hr := (h.accounts r hr).mono hsub

/-- **A round resolves no pair again**, whether it stops early or not. -/
theorem nodup_resolved_afterRound (h : Scheduled s) (hactive : s.kb.contradictory = false) :
    s.afterRound.resolved.Nodup := by
  have hline := map_indices_meetings_isPrefix s.kb
  rw [Session.resolved_afterRound, List.nodup_append]
  refine ⟨h.nodup_resolved, (nodup_unmetIndices s.kb).sublist hline.sublist, ?_⟩
  rintro p hp _ hq rfl
  have hold := (h.mem_resolved hactive p).mp hp
  have hnew := mem_unmetIndices.mp (hline.subset hq)
  omega

theorem mem_range_drop {i n k : Nat} : i ∈ (List.range n).drop k ↔ k ≤ i ∧ i < n := by
  rw [List.range_eq_range', List.drop_range', List.mem_range'_1]
  omega

theorem nodup_factored_afterRound (h : Scheduled s) (hactive : s.kb.contradictory = false) :
    s.afterRound.factored.Nodup := by
  rw [Session.factored_afterRound, List.nodup_append]
  refine ⟨h.nodup_factored, List.nodup_range.sublist (List.drop_sublist _ _), ?_⟩
  rintro i hi _ hj rfl
  have hold := (h.mem_factored hactive i).mp hi
  have hnew := mem_range_drop.mp hj
  omega

/-- **The step.**  A round keeps the invariant. -/
theorem afterRound (h : Scheduled s) (hactive : s.kb.contradictory = false) :
    Scheduled s.afterRound where
  met_le := by
    simp only [Session.afterRound]
    cases hr : s.kb.nextRound.refutation? with
    | some c =>
      rw [performRound_of_some hr]
      exact h.met_le
    | none =>
      rw [met_performRound_of_none hr]
      exact (clauses_prefix_performRound s.kb).length_le
  nodup_resolved := h.nodup_resolved_afterRound hactive
  nodup_factored := h.nodup_factored_afterRound hactive
  mem_resolved := by
    intro hstill p
    have hr := refutation?_of_active hstill
    have hmet : s.afterRound.kb.met = s.kb.clauses.length := met_performRound_of_none hr
    have hle := h.met_le
    rw [Session.resolved_afterRound, map_indices_meetings_of_none hr, List.mem_append,
      h.mem_resolved hactive, mem_unmetIndices, hmet]
    omega
  mem_factored := by
    intro hstill i
    have hr := refutation?_of_active hstill
    have hmet : s.afterRound.kb.met = s.kb.clauses.length := met_performRound_of_none hr
    have hle := h.met_le
    rw [Session.factored_afterRound, List.mem_append, h.mem_factored hactive, mem_range_drop,
      hmet]
    omega
  accounts := by
    intro r hr
    have hsub := clauses_prefix_performRound s.kb
    rcases List.mem_append.mp hr with hr | hr
    · exact (h.accounts r hr).mono hsub
    · rw [List.mem_singleton.mp hr]
      exact (accounts_nextRound s.kb).mono hsub

end Scheduled

theorem Session.Reachable.scheduled {offers : Prop} {s : Session} (h : Reachable offers s) :
    Scheduled s := by
  induction h with
  | start =>
    refine ⟨Nat.le_refl _, List.nodup_nil, List.nodup_nil, fun _ p => ?_, fun _ i => ?_, ?_⟩
    · simp [Session.start, resolved, KnowledgeBase.empty]
    · simp [Session.start, factored, KnowledgeBase.empty]
    · simp [Session.start]
  | known _ hactive _ ih => exact ih.mono _ List.prefix_rfl rfl hactive
  | taken _ hactive _ _ ih => exact ih.mono _ (List.prefix_append _ _) rfl hactive
  | refuted _ hactive _ ih => exact ih.mono _ (List.prefix_append _ _) rfl hactive
  | enlisted _ _ hactive ih => exact ih.mono _ List.prefix_rfl rfl hactive
  | offered _ _ hactive _ ih => exact ih.mono _ (List.prefix_append _ _) rfl hactive
  | round _ hactive ih => exact ih.afterRound hactive
  | halted _ hactive _ ih => exact ih.mono _ List.prefix_rfl rfl hactive

/-! ## 3. The schedule -/

/-- **Every pair meets exactly once.**  After any sequence of calls the rounds made so far have
resolved no pair and factored no clause twice, also if the last one stopped at an empty clause.
While no empty clause has been found, the pairs resolved are those of an earlier clause and one up
to the last processed index, the clauses factored are those up to that index, and the index lies
between minus one and the last of the clauses.  What a round lists are the results for the clauses
stored at the indices that it lists. -/
theorem every_pair_meets_once (calls : List Call) :
    let s := Session.ofCalls calls
    (s.kb.contradictory = false →
      (∀ i j : Nat, s.resolved.count (i, j) =
        if i < j ∧ (j : Int) ≤ processed s.kb.met then 1 else 0) ∧
      (∀ i : Nat, s.factored.count i = if (i : Int) ≤ processed s.kb.met then 1 else 0)) ∧
    (-1 ≤ processed s.kb.met ∧ processed s.kb.met ≤ s.kb.clauses.length - 1) ∧
    s.resolved.Nodup ∧ s.factored.Nodup ∧ ∀ r ∈ s.rounds, s.kb.Accounts r := by
  intro s
  have h : Scheduled s := (Session.reachable_ofCalls fun _ _ _ => trivial).scheduled
  have hle := h.met_le
  refine ⟨fun hactive => ⟨fun i j => ?_, fun i => ?_⟩, ?_, h.nodup_resolved, h.nodup_factored,
    h.accounts⟩
  · have hiff : i < j ∧ j < s.kb.met ↔ i < j ∧ (j : Int) ≤ processed s.kb.met := by
      unfold processed
      omega
    simp only [h.nodup_resolved.count, h.mem_resolved hactive, hiff]
  · have hiff : i < s.kb.met ↔ (i : Int) ≤ processed s.kb.met := by
      unfold processed
      omega
    simp only [h.nodup_factored.count, h.mem_factored hactive, hiff]
  · unfold processed
    omega

end Clausal

/-
# Refutations are sound

What a session stores without offers is true wherever the clauses that were taken in are: a clause
is stored because it was taken in, or because a round derived it from stored clauses, and it is
stored under a renaming.  The empty clause is true nowhere, so when it has been found the clauses
taken in have no model.  In terms of properties that clauses inherit: to be true in an interpretation
is one of them (`Interpretation.hereditary_satisfies`), and the empty clause does not have it.

The invariant `Entailed` holds of every session of this kind.  That a clause with a known key is
dropped does no harm to it: the account has one more clause, and the store has none.
-/
import Clausal.Proofs.Hereditary
import Clausal.Proofs.Interpretation

namespace Clausal

universe u

open KnowledgeBase

variable {s : Session}

/-! ## 1. Rounds and runs where the stored clauses are true -/

theorem Interpretation.hereditary_satisfies (I : Interpretation.{u}) : Hereditary I.Satisfies where
  rename ρ h := h.rename ρ
  factor h hr := h.factors hr
  resolvent hc hd hr := hc.resolvents hd hr

/-- **The step.**  Where the stored clauses are true, a round stores true clauses, and does not find
the empty clause. -/
theorem satisfies_performRound {I : Interpretation.{u}} {kb : KnowledgeBase}
    (h : ∀ e ∈ kb.clauses, I.Satisfies e.clause) :
    (∀ e ∈ kb.performRound.1.clauses, I.Satisfies e.clause) ∧
      kb.performRound.1.contradictory = kb.contradictory := by
  refine ⟨I.hereditary_satisfies.performRound h, ?_⟩
  cases hr : kb.nextRound.refutation? with
  | some c =>
    obtain ⟨hempty, hmem⟩ := refutation?_eq_some hr
    have hsat := I.hereditary_satisfies.candidate h hmem
    rw [hempty] at hsat
    exact absurd hsat I.not_satisfies_empty
  | none => exact contradictory_performRound_of_none hr

/-- **The run.**  Where the stored clauses are true, no run finds the empty clause. -/
theorem contradictory_runRounds {I : Interpretation.{u}} (limit : Nat) {kb : KnowledgeBase} :
    (∀ e ∈ kb.clauses, I.Satisfies e.clause) → kb.contradictory = false →
      (kb.runRounds limit).final.contradictory = false := by
  refine final_runRounds_induct (P := fun _ kb final =>
    (∀ e ∈ kb.clauses, I.Satisfies e.clause) → kb.contradictory = false →
      final.contradictory = false) ?found ?cut ?idle ?more limit kb
  case found => exact fun _ _ _ _ hactive => hactive
  case cut => exact fun _ _ _ hactive => hactive
  case idle => exact fun _ _ _ _ h hactive => (satisfies_performRound h).2.trans hactive
  case more =>
    intro limit kb _ _ ih h hactive
    obtain ⟨hround, hsame⟩ := satisfies_performRound h
    exact ih hround (hsame.trans hactive)

/-! ## 2. What is stored follows from what was taken in -/

/-- Every interpretation of the clauses taken in satisfies the stored clauses, and there is none
once the empty clause has been found. -/
def Entailed (s : Session) : Prop :=
  ∀ I : Interpretation.{u}, (∀ c ∈ s.premises, I.Satisfies c) →
    (∀ e ∈ s.kb.clauses, I.Satisfies e.clause) ∧ s.kb.contradictory = false

theorem Entailed.known {c : Clause} (h : Entailed.{u} s) :
    Entailed.{u} ⟨s.kb, s.premises ++ [c], s.rounds⟩ := by
  intro I hI
  exact h I fun d hd => hI d (List.mem_append_left _ hd)

theorem Entailed.taken {c : Clause} {label : String} (h : Entailed.{u} s) :
    Entailed.{u} ⟨s.kb.append ⟨c, [], label⟩, s.premises ++ [c], s.rounds⟩ := by
  intro I hI
  obtain ⟨hstored, hactive⟩ := h I fun d hd => hI d (List.mem_append_left _ hd)
  have hc : I.Satisfies c := hI c (List.mem_append_right _ List.mem_cons_self)
  exact ⟨I.hereditary_satisfies.append hstored hc, hactive⟩

theorem Entailed.refuted {kb : KnowledgeBase} {rounds : List Round} :
    Entailed.{u} ⟨kb, s.premises ++ [.empty], rounds⟩ := by
  intro I hI
  exact absurd (hI .empty (List.mem_append_right _ List.mem_cons_self)) I.not_satisfies_empty

theorem Entailed.round (h : Entailed.{u} s) : Entailed.{u} s.afterRound := by
  intro I hI
  obtain ⟨hstored, hactive⟩ := h I hI
  obtain ⟨hround, hsame⟩ := satisfies_performRound hstored
  exact ⟨hround, hsame.trans hactive⟩

theorem Session.Reachable.entailed (h : Reachable False s) : Entailed.{u} s := by
  induction h with
  | start => exact fun I _ => ⟨fun e he => absurd he List.not_mem_nil, rfl⟩
  | known _ _ _ ih => exact ih.known
  | taken _ _ _ _ ih => exact ih.taken
  | refuted _ _ _ _ => exact .refuted
  | enlisted _ h _ _ => exact h.elim
  | offered _ h _ _ _ => exact h.elim
  | round _ _ ih => exact ih.round
  | halted _ _ _ ih => exact ih

/-! ## 3. Soundness -/

/-- **Refutations are sound.**  After any calls but offers, every interpretation in which the
clauses taken in are true is one in which all stored clauses are true; and if the empty clause has
been found, there is no such interpretation. -/
theorem refutation_sound (calls : List Call) (hplain : ∀ call ∈ calls, call.isOffer = false) :
    (∀ I : Interpretation.{u}, (∀ c ∈ (Session.ofCalls calls).premises, I.Satisfies c) →
      ∀ e ∈ (Session.ofCalls calls).kb.clauses, I.Satisfies e.clause) ∧
    ((Session.ofCalls calls).kb.contradictory = true →
      ¬ ∃ I : Interpretation.{u}, ∀ c ∈ (Session.ofCalls calls).premises, I.Satisfies c) := by
  have h : Entailed.{u} (Session.ofCalls calls) := (Session.reachable_of_plain hplain).entailed
  constructor
  · intro I hI
    exact (h I hI).1
  · rintro hcontra ⟨I, hI⟩
    rw [(h I hI).2] at hcontra
    exact absurd hcontra (by decide)

/-- Two clauses that resolution alone does not refute, for its results have two literals again. -/
def factoringNeeded : List Call := [
  .ingest [.literal ⟨false, "P", [.var "x"]⟩, .literal ⟨false, "P", [.var "y"]⟩] "",
  .ingest [.literal ⟨true, "P", [.var "x"]⟩, .literal ⟨true, "P", [.var "y"]⟩] "",
  .run 3]

theorem factoringNeeded_contradictory :
    (Session.ofCalls factoringNeeded).kb.contradictory = true := by
  decide +kernel

/-- The two clauses are refuted with factors of them, so they have no model. -/
theorem factoringNeeded_has_no_model :
    (∀ call ∈ factoringNeeded, call.isOffer = false) ∧
    (Session.ofCalls factoringNeeded).kb.contradictory = true ∧
    ¬ ∃ I : Interpretation.{u},
      ∀ c ∈ (Session.ofCalls factoringNeeded).premises, I.Satisfies c := by
  refine ⟨by decide, factoringNeeded_contradictory, ?_⟩
  exact (refutation_sound factoringNeeded (by decide)).2 factoringNeeded_contradictory

end Clausal

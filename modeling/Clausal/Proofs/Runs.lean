/-
# What a run does

A run makes rounds and notes why it stopped, so what rounds keep, and does not depend on the note,
runs keep too (`runRounds_induction`).

A run has three outcomes (`runRounds_outcome`): it finds the empty clause, it ends with all clauses
met, or it makes all the rounds that it was allowed.  In the last case the store has grown by as many
clauses at least (`length_add_limit_le`).  The note tells the outcomes apart: where it says that the
run has saturated, the empty clause has not been found and all clauses have met
(`met_of_saturated`).
-/
import Clausal.Proofs.Session
import Mathlib.Logic.Function.Iterate

namespace Clausal

open KnowledgeBase

variable {s : Session}

/-! ## 1. Rounds in a row -/

namespace KnowledgeBase

variable {kb : KnowledgeBase}

/-- What holds of a knowledge base, and is kept by rounds and by the note of a halt, holds after a
run. -/
theorem runRounds_induction {P : KnowledgeBase → Prop}
    (round : ∀ kb, kb.contradictory = false → P kb → P kb.performRound.1)
    (note : ∀ kb halt, P kb → P { kb with halt := some halt }) (limit : Nat) {kb : KnowledgeBase} :
    P kb → P (kb.runRounds limit).final := by
  refine final_runRounds_induct (P := fun _ kb final => P kb → P final)
    ?found ?cut ?idle ?more limit kb
  case found => exact fun _ _ _ h => h
  case cut => exact fun kb _ h => note kb _ h
  case idle => exact fun _ kb hc _ h => note _ _ (round kb hc h)
  case more => exact fun _ kb hc _ ih h => ih (round kb hc h)

/-- Whatever a run does, the stored clauses stay where they are. -/
theorem clauses_prefix_runRounds (limit : Nat) (kb : KnowledgeBase) :
    kb.clauses <+: (kb.runRounds limit).final.clauses :=
  runRounds_induction (P := fun kb' => kb.clauses <+: kb'.clauses)
    (fun kb' _ h => h.trans (clauses_prefix_performRound kb')) (fun _ _ h => h) limit
    List.prefix_rfl

/-- Where a round came to nothing, all clauses have met. -/
theorem met_performRound_of_count (h : kb.performRound.2 = 0) :
    kb.performRound.1.met = kb.performRound.1.clauses.length := by
  have hr := refutation?_of_count h
  have hle := (clauses_prefix_performRound kb).length_le
  rw [met_performRound_of_none hr]
  rw [performRound_of_none hr] at h hle ⊢
  simp only [record] at h hle ⊢
  omega

/-- A round that did not come to nothing found the empty clause, or stored a clause. -/
theorem length_lt_of_count (h : kb.performRound.2 ≠ 0)
    (hactive : kb.performRound.1.contradictory = false) :
    kb.clauses.length < kb.performRound.1.clauses.length := by
  have hr := refutation?_of_active hactive
  rw [performRound_of_none hr] at h ⊢
  simp only [record] at h ⊢
  omega

end KnowledgeBase

/-! ## 2. The outcomes of a run -/

/-- **The outcomes of a run**: the empty clause has been found, or all clauses have met, or all
rounds that were allowed have been made. -/
theorem runRounds_outcome (limit : Nat) (s : Session) :
    let final := (s.kb.runRounds limit).final
    final.contradictory = true ∨
    (final.halt = some .saturated ∧ final.met = final.clauses.length) ∨
    (final.halt = some .stepLimit ∧ (Session.afterRound^[limit] s).kb.contradictory = false) := by
  refine final_runRounds_induct (P := fun limit kb final => ∀ s : Session, s.kb = kb →
    final.contradictory = true ∨
    (final.halt = some .saturated ∧ final.met = final.clauses.length) ∨
    (final.halt = some .stepLimit ∧ (Session.afterRound^[limit] s).kb.contradictory = false))
    ?found ?cut ?idle ?more limit s.kb s rfl
  case found => exact fun _ _ hc _ _ => Or.inl hc
  case cut =>
    intro kb hc s hs
    exact Or.inr (Or.inr ⟨rfl, hs ▸ hc⟩)
  case idle => exact fun _ _ _ hcount _ _ => Or.inr (Or.inl ⟨rfl, met_performRound_of_count hcount⟩)
  case more =>
    intro limit kb _ _ ih s hs
    exact ih s.afterRound (by rw [Session.afterRound, hs])

/-- **A run that makes all rounds it is allowed** stores a clause in each of them. -/
theorem KnowledgeBase.length_add_limit_le (limit : Nat) {kb : KnowledgeBase} :
    (kb.runRounds limit).final.contradictory = false →
    (kb.runRounds limit).final.halt ≠ some .saturated →
      kb.clauses.length + limit ≤ (kb.runRounds limit).final.clauses.length := by
  refine final_runRounds_induct (P := fun limit kb final => final.contradictory = false →
    final.halt ≠ some .saturated → kb.clauses.length + limit ≤ final.clauses.length)
    ?found ?cut ?idle ?more limit kb
  case found => exact fun _ _ hc hactive => absurd (hc.symm.trans hactive) (by decide)
  case cut => exact fun _ _ _ _ => Nat.le_refl _
  case idle => exact fun _ _ _ _ _ hsat => absurd rfl hsat
  case more =>
    intro limit kb _ hcount ih hactive hsat
    have hlt := length_lt_of_count hcount (active_of_runRounds hactive)
    have hrest := ih hactive hsat
    omega

/-- Where the empty clause has been found, that is the last halt. -/
theorem Session.Reachable.halt_eq {offers : Prop} (h : Reachable offers s)
    (hcontra : s.kb.contradictory = true) : s.kb.halt = some .contradiction := by
  have hcase : s.kb.contradictory = false ∨ s.kb.halt = some .contradiction := by
    cases h with
    | start => exact Or.inl rfl
    | known _ active _ => exact Or.inl active
    | taken _ active _ _ => exact Or.inl active
    | refuted _ _ _ => exact Or.inr rfl
    | enlisted _ _ active => exact Or.inl active
    | offered _ _ active _ => exact Or.inl active
    | @round s _ active =>
      cases hr : s.kb.nextRound.refutation? with
      | none => exact Or.inl ((contradictory_performRound_of_none hr).trans active)
      | some c =>
        refine Or.inr ?_
        rw [Session.afterRound, performRound_of_some hr]
    | halted _ active _ => exact Or.inl active
  rw [hcontra] at hcase
  exact hcase.resolve_left (by decide)

/-- **A run that stops because it has saturated** has not found the empty clause, and all clauses
have met. -/
theorem Session.Reachable.met_of_saturated {offers : Prop} (h : Reachable offers s) {limit : Nat}
    (hsat : (s.kb.runRounds limit).final.halt = some .saturated) :
    (s.kb.runRounds limit).final.contradictory = false ∧
      (s.kb.runRounds limit).final.met = (s.kb.runRounds limit).final.clauses.length := by
  have hactive : (s.kb.runRounds limit).final.contradictory = false := by
    by_contra hcontra
    have hhalt := (reachable_runRounds limit h).halt_eq (by simpa using hcontra)
    rw [hsat] at hhalt
    exact absurd hhalt (by decide)
  rcases runRounds_outcome limit s with hcontra | ⟨-, hmet⟩ | ⟨hhalt, -⟩
  · rw [hactive] at hcontra
    exact absurd hcontra (by decide)
  · exact ⟨hactive, hmet⟩
  · rw [hsat] at hhalt
    exact absurd hhalt (by decide)

end Clausal

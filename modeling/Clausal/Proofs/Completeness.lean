/-
# Runs find a refutation if there is one

If the stored clauses have no model, a run with a limit that is large enough finds the empty clause.
Suppose that no run does.  Then either some run saturates, or the rounds go on for ever; in both
cases the clauses that are stored at some time or other are closed under the rules, because every
two of them meet sooner or later, and a closed set of clauses has a model.

The two cases are one: an endless session (`Endless`) is a sequence of sessions in which the store
only grows and every stored clause is met in the end.  A session that has saturated stays as it is.
-/
import Clausal.Proofs.Closure
import Clausal.Proofs.PositiveResolution
import Clausal.Proofs.Runs
import Clausal.Proofs.Soundness

namespace Clausal

open Clause KnowledgeBase

variable {s : Session}

/-! ## 1. No stored clause is empty -/

theorem Clause.factor_ne_empty {c r : Clause} (h : r ∈ c.factors) : r ≠ .empty := by
  obtain ⟨l, m, σ, hl, -, hne, -, -, rfl⟩ := mem_factors h
  intro he
  have hmem : l.apply σ ∈ ofList ((c.others m).map (Literal.apply σ)) := by
    rw [mem_ofList]
    exact List.mem_map_of_mem (mem_others.mpr ⟨hl, hne⟩)
  exact not_mem_empty _ (he ▸ hmem)

namespace KnowledgeBase

variable {kb : KnowledgeBase}

/-- A round that does not refute derives no empty clause. -/
theorem candidate_ne_empty (hr : kb.nextRound.refutation? = none) {c : Candidate}
    (hc : c ∈ kb.nextRound.candidates) : c.clause ≠ .empty := by
  rcases List.mem_append.mp hc with hc | hc
  · obtain ⟨f, hf, hc⟩ := List.mem_flatMap.mp hc
    obtain ⟨r, hmem, rfl⟩ := List.mem_map.mp hc
    obtain ⟨-, e, -, hfac⟩ := mem_factorings.mp hf
    exact factor_ne_empty (hfac ▸ hmem)
  · intro he
    exact List.find?_eq_none.mp hr c hc (Clause.isEmpty_iff.mpr he)

theorem append_ne_empty {c : Candidate} (h : ∀ e ∈ kb.clauses, e.clause ≠ .empty)
    (hc : c.clause ≠ .empty) : ∀ e ∈ (kb.append c).clauses, e.clause ≠ .empty := by
  intro e he
  rcases List.mem_append.mp he with he | he
  · exact h e he
  · rw [List.mem_singleton.mp he]
    exact subst_ne_empty hc

end KnowledgeBase

/-- Without offers the empty clause is only stored where it has been found. -/
theorem Session.Reachable.ne_empty (h : Reachable False s) (hactive : s.kb.contradictory = false) :
    ∀ e ∈ s.kb.clauses, e.clause ≠ .empty := by
  induction h with
  | start => exact fun e he => absurd he List.not_mem_nil
  | known _ active _ ih => exact ih active
  | taken _ active _ nonempty ih =>
    refine append_ne_empty (ih active) ?_
    intro he
    rw [Clause.isEmpty_iff.mpr he] at nonempty
    exact absurd nonempty (by decide)
  | refuted _ _ _ _ => exact absurd hactive (by simp [contradictory, KnowledgeBase.refuted])
  | enlisted _ h _ _ => exact h.elim
  | offered _ h _ _ _ => exact h.elim
  | @round s _ active ih =>
    have hr := refutation?_of_active hactive
    rw [Session.afterRound, performRound_of_none hr]
    refine storeAll_induction (P := fun kb => ∀ e ∈ kb.clauses, e.clause ≠ .empty) (ih active) ?_
    intro kb c hc hkb _
    exact append_ne_empty hkb (candidate_ne_empty hr hc)
  | halted _ active _ ih => exact ih active

/-! ## 2. Endless sessions -/

/-- A sequence of sessions without a refutation in which the store only grows, and each clause is
met in the end. -/
structure Endless (ss : Nat → Session) : Prop where
  reach : ∀ n, Session.Reachable False (ss n)
  active : ∀ n, (ss n).kb.contradictory = false
  grows : ∀ n, (ss n).kb.clauses <+: (ss (n + 1)).kb.clauses
  meets : ∀ n, ∃ m, n ≤ m ∧ (ss n).kb.clauses.length ≤ (ss m).kb.met

/-- The clauses that are stored at some time. -/
def storedClauses (ss : Nat → Session) : Set Clause :=
  {c | ∃ n, ∃ e ∈ (ss n).kb.clauses, e.clause = c}

namespace Endless

variable {ss : Nat → Session}

theorem clauses_isPrefix (h : Endless ss) {n m : Nat} (hnm : n ≤ m) :
    (ss n).kb.clauses <+: (ss m).kb.clauses := by
  induction hnm with
  | refl => exact List.prefix_rfl
  | step _ ih => exact ih.trans (h.grows _)

/-- **Any two clauses meet**: at some time both are stored, at indices that have met. -/
theorem exists_met (h : Endless ss) {c d : Clause} (hc : c ∈ storedClauses ss)
    (hd : d ∈ storedClauses ss) :
    ∃ m i j e e', (ss m).kb.clauses[i]? = some e ∧ (ss m).kb.clauses[j]? = some e' ∧
      e.clause = c ∧ e'.clause = d ∧ i < (ss m).kb.met ∧ j < (ss m).kb.met := by
  obtain ⟨n₁, e, he, hec⟩ := hc
  obtain ⟨n₂, e', he', hed⟩ := hd
  have he := (h.clauses_isPrefix (Nat.le_max_left n₁ n₂)).subset he
  have he' := (h.clauses_isPrefix (Nat.le_max_right n₁ n₂)).subset he'
  obtain ⟨i, hi, hie⟩ := List.mem_iff_getElem.mp he
  obtain ⟨j, hj, hje⟩ := List.mem_iff_getElem.mp he'
  obtain ⟨m, hm, hmet⟩ := h.meets (max n₁ n₂)
  have hle := h.clauses_isPrefix hm
  refine ⟨m, i, j, e, e', ?_, ?_, hec, hed, by omega, by omega⟩
  · rw [getElem?_of_isPrefix hle hi, List.getElem?_eq_getElem hi, hie]
  · rw [getElem?_of_isPrefix hle hj, List.getElem?_eq_getElem hj, hje]

theorem exists_variant {c : Clause} {m : Nat} (h : (ss m).kb.Covers c) :
    ∃ e ∈ storedClauses ss, Variant c e := by
  obtain ⟨e, he, hvar⟩ := h
  exact ⟨e.clause, ⟨m, e, he, rfl⟩, hvar⟩

/-- **All that is ever stored is closed under the rules.** -/
theorem saturated (h : Endless ss) : Saturated (storedClauses ss) where
  not_empty := by
    rintro ⟨n, e, he, hempty⟩
    exact (h.reach n).ne_empty (h.active n) e he hempty
  apart := by
    intro c hc d hd hne
    obtain ⟨m, i, j, e, e', he, he', rfl, rfl, -, -⟩ := h.exists_met hc hd
    obtain ⟨originals, hfiled⟩ := (h.reach m).filed
    refine hfiled.disjoint ?_ he he'
    rintro rfl
    exact hne (by rw [Option.some.inj (he.symm.trans he')])
  factor := by
    intro c hc r hr
    obtain ⟨m, i, j, e, e', he, -, rfl, -, hi, -⟩ := h.exists_met hc hc
    exact exists_variant (((h.reach m).closed (h.active m)).factor i e hi he r hr)
  resolvent := by
    intro c hc d hd hne
    obtain ⟨m, i, j, e, e', he, he', rfl, rfl, hi, hj⟩ := h.exists_met hc hd
    have hclosed := (h.reach m).closed (h.active m)
    -- The earlier clause is the left one of the pair that was resolved.
    rcases Nat.lt_trichotomy i j with hij | rfl | hij
    · exact Or.inl fun r hr =>
        exists_variant (hclosed.resolvent i j e e' hij hj he he' r hr).2
    · exact absurd (by rw [Option.some.inj (he.symm.trans he')]) hne
    · exact Or.inr fun r hr =>
        exists_variant (hclosed.resolvent j i e' e hij hi he' he r hr).2

theorem exists_model (h : Endless ss) (n : Nat) :
    ∃ I : Interpretation.{0}, ∀ e ∈ (ss n).kb.clauses, I.Satisfies e.clause := by
  obtain ⟨I, hI⟩ := h.saturated.exists_model
  exact ⟨I, fun e he => hI e.clause ⟨n, e, he, rfl⟩⟩

end Endless

/-- A session all of whose clauses have met is endless as it is, and so has a model. -/
theorem Session.Reachable.exists_model (h : Reachable False s)
    (hactive : s.kb.contradictory = false) (hmet : s.kb.met = s.kb.clauses.length) :
    ∃ I : Interpretation.{0}, ∀ e ∈ s.kb.clauses, I.Satisfies e.clause := by
  have hend : Endless fun _ => s :=
    ⟨fun _ => h, fun _ => hactive, fun _ => List.prefix_rfl,
      fun n => ⟨n, Nat.le_refl n, Nat.le_of_eq hmet.symm⟩⟩
  exact hend.exists_model 0

/-- Rounds that never find the empty clause make a session endless. -/
theorem endless_iterate (h : Session.Reachable False s)
    (hactive : ∀ n, (Session.afterRound^[n] s).kb.contradictory = false) :
    Endless fun n => Session.afterRound^[n] s := by
  have hsucc : ∀ n, Session.afterRound^[n + 1] s = (Session.afterRound^[n] s).afterRound := by
    intro n
    exact Function.iterate_succ_apply' _ n s
  refine ⟨?_, hactive, ?_, ?_⟩
  · intro n
    induction n with
    | zero => exact h
    | succ n ih =>
      rw [hsucc]
      exact .round ih (hactive n)
  · intro n
    rw [hsucc]
    exact clauses_prefix_performRound _
  · intro n
    have hnext := hactive (n + 1)
    rw [hsucc] at hnext
    refine ⟨n + 1, Nat.le_succ n, ?_⟩
    rw [hsucc]
    exact Nat.le_of_eq (met_performRound_of_none (refutation?_of_active hnext)).symm

/-! ## 3. Completeness -/

/-- A run that stops because it has saturated leaves clauses that have a model. -/
theorem exists_model_of_saturated (h : Session.Reachable False s) {limit : Nat}
    (hsat : (s.kb.runRounds limit).final.halt = some .saturated) :
    ∃ I : Interpretation.{0}, ∀ e ∈ (s.kb.runRounds limit).final.clauses, I.Satisfies e.clause := by
  obtain ⟨hactive, hmet⟩ := h.met_of_saturated hsat
  exact (Session.reachable_runRounds limit h).exists_model hactive hmet

/-- Where no run finds the empty clause, the stored clauses have a model. -/
theorem exists_model_of_runs (h : Session.Reachable False s)
    (hactive : ∀ limit, (s.kb.runRounds limit).final.contradictory = false) :
    ∃ I : Interpretation.{0}, ∀ e ∈ s.kb.clauses, I.Satisfies e.clause := by
  by_cases hsat : ∃ limit, (s.kb.runRounds limit).final.halt = some .saturated
  · obtain ⟨limit, hsat⟩ := hsat
    obtain ⟨I, hI⟩ := exists_model_of_saturated h hsat
    exact ⟨I, fun e he => hI e ((clauses_prefix_runRounds limit s.kb).subset he)⟩
  · -- Every run makes all its rounds, so the rounds go on for ever.
    have hrounds : ∀ n, (Session.afterRound^[n] s).kb.contradictory = false := by
      intro n
      rcases runRounds_outcome n s with hcontra | ⟨hhalt, -⟩ | ⟨-, hc⟩
      · rw [hactive n] at hcontra
        exact absurd hcontra (by decide)
      · exact absurd ⟨n, hhalt⟩ hsat
      · exact hc
    exact (endless_iterate h hrounds).exists_model 0

/-- **Runs are complete.**  After any calls but offers that have not found the empty clause: the
stored clauses have no model exactly when some run finds it.  And when a run stops because it has
saturated, the stored clauses have a model. -/
theorem refutation_complete (calls : List Call) (hplain : ∀ call ∈ calls, call.isOffer = false) :
    ((Session.ofCalls calls).kb.contradictory = false →
      ((¬ ∃ I : Interpretation.{0}, ∀ e ∈ (Session.ofCalls calls).kb.clauses,
          I.Satisfies e.clause) ↔
        ∃ n : Nat, ((Session.ofCalls calls).kb.run n).contradictory = true)) ∧
    ∀ limit : Int, ((Session.ofCalls calls).kb.run limit).halt = some .saturated →
      ∃ I : Interpretation.{0}, ∀ e ∈ ((Session.ofCalls calls).kb.run limit).clauses,
        I.Satisfies e.clause := by
  have h : Session.Reachable False (Session.ofCalls calls) := Session.reachable_of_plain hplain
  constructor
  · intro hactive
    constructor
    · intro hnone
      by_contra hruns
      refine hnone (exists_model_of_runs h ?_)
      intro limit
      by_contra hcontra
      exact hruns ⟨limit, by simpa [KnowledgeBase.run] using hcontra⟩
    · rintro ⟨n, hcontra⟩ ⟨I, hI⟩
      rw [KnowledgeBase.run, contradictory_runRounds _ hI hactive] at hcontra
      exact absurd hcontra (by decide)
  · intro limit hsat
    exact exists_model_of_saturated h hsat

/-- Zero is even, with every number its second successor is even too, and four is not even. -/
def evenNumbers : List Call :=
  let zero : Term := .app "0" []
  let next (t : Term) : Term := .app "s" [t]
  [.ingest [.literal ⟨false, "Even", [zero]⟩] "",
    .ingest [.literal ⟨true, "Even", [.var "x"]⟩,
      .literal ⟨false, "Even", [next (next (.var "x"))]⟩] "",
    .ingest [.literal ⟨true, "Even", [next (next (next (next zero)))]⟩] ""]

/-- The clauses about even numbers have no model, so a run refutes them. -/
theorem evenNumbers_are_refuted :
    (∀ call ∈ evenNumbers, call.isOffer = false) ∧
    (Session.ofCalls evenNumbers).kb.contradictory = false ∧
    ∃ n : Nat, ((Session.ofCalls evenNumbers).kb.run n).contradictory = true := by
  have hactive : (Session.ofCalls evenNumbers).kb.contradictory = false := by decide +kernel
  have hstored : (Session.ofCalls evenNumbers).kb.clauses.map (fun e => e.clause) =
      [ofList [⟨false, "Even", [.app "0" []]⟩],
        ofList [⟨true, "Even", [.var "x_1"]⟩,
          ⟨false, "Even", [.app "s" [.app "s" [.var "x_1"]]]⟩],
        ofList [⟨true, "Even",
          [.app "s" [.app "s" [.app "s" [.app "s" [.app "0" []]]]]]⟩]] := by decide +kernel
  refine ⟨by decide, hactive, ((refutation_complete evenNumbers (by decide)).1 hactive).mp ?_⟩
  rintro ⟨I, hI⟩
  have hall : ∀ c ∈ (Session.ofCalls evenNumbers).kb.clauses.map (fun e => e.clause),
      I.Satisfies c := by
    intro c hc
    obtain ⟨e, he, rfl⟩ := List.mem_map.mp hc
    exact hI e he
  rw [hstored] at hall
  simp only [List.forall_mem_cons] at hall
  obtain ⟨hzero, hnext, hfour, -⟩ := hall
  let next (a : I.Domain) : I.Domain := I.function "s" [a]
  let zero : I.Domain := I.function "0" []
  have h₀ : I.relation "Even" [zero] := by
    simpa [Interpretation.Satisfies, Interpretation.Holds] using hzero fun _ => zero
  have hstep : ∀ a, I.relation "Even" [a] → I.relation "Even" [next (next a)] := by
    intro a ha
    simpa [Interpretation.Satisfies, Interpretation.Holds, ha] using hnext fun _ => a
  have h₄ : ¬ I.relation "Even" [next (next (next (next zero)))] := by
    simpa [Interpretation.Satisfies, Interpretation.Holds] using hfour fun _ => zero
  exact h₄ (hstep _ (hstep _ h₀))

end Clausal

/-
# Ground clauses are decided

Without variables nothing is ever renamed or unified: a ground clause is its own only instance and
its own only variant, it has no factors, and the literals of a resolvent are literals of its parents.
So all that a session stores are sets of literals of the clauses that were taken in
(`Clause.hereditary_over`).  No two of them are equal, since equal clauses have equal keys
(`Reachable.nodup_clauses`), and none is empty before the empty clause has been found.  There are
fewer than `2 ^ n` such sets, where `n` is the number of literals.

A run that makes all rounds it is allowed stores a clause in each of them, so with `2 ^ n` rounds it
stops before.  Then it has found the empty clause, or it has saturated; and by soundness and
completeness the two cases are those in which the clauses have no truth assignment, and have one
(`ground_clauses_are_decided`).
-/
import Clausal.Proofs.Completeness
import Clausal.Proofs.Copies
import Mathlib.Data.Finset.Powerset

namespace Clausal

open Clause KnowledgeBase

variable {s : Session} {ls : List Literal}

/-! ## 1. Ground clauses and the rules -/

namespace Clause

variable {c d r : Clause}

/-- A ground clause has no factors, for unified literals of one sign would be equal. -/
theorem not_mem_factors_of_ground (hc : c.vars = []) : r ∉ c.factors := by
  intro hr
  obtain ⟨l, m, σ, hl, hm, hne, hs, hσ, -⟩ := mem_factors hr
  have hground : ∀ k ∈ c, k.subst σ.image = k := fun k hk =>
    Literal.subst_of_ground (vars_eq_nil_of_mem hc hk) _
  have hunified := Literal.subst_eq_of_unify? hσ hs
  rw [hground l hl, hground m hm] at hunified
  exact hne hunified

/-- Whether all literals are among the given ones. -/
def Over (ls : List Literal) (c : Clause) : Prop :=
  ∀ l ∈ c, l ∈ ls

theorem Over.vars_eq_nil (h : c.Over ls) (hground : ∀ l ∈ ls, l.vars = []) : c.vars = [] := by
  rw [vars, List.flatMap_eq_nil_iff]
  exact fun l hl => hground l (h l hl)

/-- Resolution of ground clauses brings in no new literals. -/
theorem Over.resolvents (hc : c.Over ls) (hd : d.Over ls) (hground : ∀ l ∈ ls, l.vars = [])
    (hr : r ∈ c.resolvents d) : r.Over ls := by
  obtain ⟨l, m, σ, -, -, -, -, rfl⟩ := mem_resolvents.mp hr
  intro k hk
  rw [mem_ofList] at hk
  obtain ⟨j, hj, rfl⟩ := List.mem_map.mp hk
  have hmem : j ∈ ls := by
    rcases List.mem_append.mp hj with hj | hj
    · exact hc j (mem_others.mp hj).1
    · exact hd j (mem_others.mp hj).1
  have hsame : j.apply σ = j := Literal.subst_of_ground (hground j hmem) σ.image
  rw [hsame]
  exact hmem

/-- To be over ground literals is inherited: there is nothing to rename in such clauses, and they
have no factors. -/
theorem hereditary_over (hground : ∀ l ∈ ls, l.vars = []) : Hereditary (Over ls) where
  rename {c} ρ hc := by
    have hsame : c.rename ρ = c := subst_of_ground (hc.vars_eq_nil hground) _
    rw [hsame]
    exact hc
  factor hc hr := absurd hr (not_mem_factors_of_ground (hc.vars_eq_nil hground))
  resolvent hc hd hr := hc.resolvents hd hground hr

end Clause

/-! ## 2. There are finitely many ground clauses -/

/-- Distinct clauses over given literals are sets of these, so there are fewer than `2 ^ n` of them
that are not empty. -/
theorem length_lt_of_over {cs : List Clause} (hnodup : cs.Nodup) (hover : ∀ c ∈ cs, c.Over ls)
    (hne : ∀ c ∈ cs, c ≠ .empty) : cs.length < 2 ^ distinctCount ls := by
  have hmem : ∀ l, l ∈ ls.eraseDups.toFinset ↔ l ∈ ls := by simp
  have hsub : ∀ c ∈ cs.toFinset, c.literals.toFinset ∈ ls.eraseDups.toFinset.powerset.erase ∅ := by
    intro c hc
    rw [List.mem_toFinset] at hc
    rw [Finset.mem_erase, Finset.mem_powerset]
    constructor
    · obtain ⟨l, hl⟩ := exists_mem_of_ne_empty (hne c hc)
      exact Finset.ne_empty_of_mem (List.mem_toFinset.mpr hl)
    · intro l hl
      exact (hmem l).mpr (hover c hc l (List.mem_toFinset.mp hl))
  have hinj : Set.InjOn (fun c : Clause => c.literals.toFinset) cs.toFinset := by
    intro c _ d _ hcd
    refine Clause.ext fun l => ?_
    rw [mem_def, mem_def, ← List.mem_toFinset, ← List.mem_toFinset]
    exact Finset.ext_iff.mp hcd l
  have hcard := Finset.card_le_card_of_injOn _ hsub hinj
  rw [List.toFinset_card_of_nodup hnodup, Finset.card_erase_of_mem (Finset.empty_mem_powerset _),
    Finset.card_powerset, List.toFinset_card_of_nodup (nodup_eraseDups ls)] at hcard
  have hpos : 0 < 2 ^ ls.eraseDups.length := Nat.two_pow_pos _
  exact Nat.lt_of_le_pred hpos hcard

/-! ## 3. Truth assignments -/

/-- Whether some choice of true atoms makes all clauses true, where the atoms may be true or false
independently. -/
def HasTruthAssignment (cs : List Clause) : Prop :=
  ∃ M : Set Term, ∀ c ∈ cs, ∃ l ∈ c, l.TrueIn M

namespace Interpretation

/-- The atoms that are true under an assignment. -/
def trueAtoms (I : Interpretation.{0}) (v : String → I.Domain) : Set Term :=
  {t | ∃ p ts, t = .app p ts ∧ I.relation p (ts.map (I.value v))}

theorem holds_iff_trueIn {I : Interpretation.{0}} (v : String → I.Domain) (l : Literal) :
    I.Holds v l ↔ l.TrueIn (I.trueAtoms v) := by
  have hatom : l.atom ∈ I.trueAtoms v ↔ I.relation l.predicate (l.args.map (I.value v)) := by
    constructor
    · rintro ⟨p, ts, heq, hrel⟩
      obtain ⟨rfl, rfl⟩ := Term.app.inj heq
      exact hrel
    · exact fun hrel => ⟨l.predicate, l.args, rfl, hrel⟩
  rw [Holds, Literal.TrueIn, hatom]

end Interpretation

/-- Clauses that are true in an interpretation have a truth assignment. -/
theorem hasTruthAssignment_of_satisfies {I : Interpretation.{0}} {cs : List Clause}
    (h : ∀ c ∈ cs, I.Satisfies c) : HasTruthAssignment cs := by
  obtain ⟨a⟩ := I.nonempty
  refine ⟨I.trueAtoms fun _ => a, ?_⟩
  intro c hc
  obtain ⟨l, hl, htrue⟩ := h c hc fun _ => a
  exact ⟨l, hl, (I.holds_iff_trueIn _ l).mp htrue⟩

/-- On ground clauses a choice of true atoms is an interpretation. -/
theorem satisfies_onTerms_of_ground {M : Set Term} {c : Clause} (hc : c.vars = [])
    (h : ∃ l ∈ c, l.TrueIn M) : (Interpretation.onTerms M).Satisfies c := by
  intro (θ : String → Term)
  obtain ⟨l, hl, htrue⟩ := h
  refine ⟨l, hl, (Interpretation.holds_onTerms M θ l).mpr ?_⟩
  rw [Literal.subst_of_ground (vars_eq_nil_of_mem hc hl)]
  exact htrue

/-- **What was taken in is covered**: it was stored, or its key was known. -/
theorem Session.Reachable.covers_premises (h : Reachable False s) :
    ∀ c ∈ s.premises, s.kb.Covers c := by
  have hadd : ∀ {s : Session} {kb : KnowledgeBase} {c : Clause}, (∀ d ∈ s.premises, s.kb.Covers d) →
      s.kb.clauses <+: kb.clauses → kb.Covers c → ∀ d ∈ s.premises ++ [c], kb.Covers d := by
    intro s kb c hold hle hc d hd
    rcases List.mem_append.mp hd with hd | hd
    · exact (hold d hd).mono hle
    · exact List.mem_singleton.mp hd ▸ hc
  induction h with
  | start => exact fun c hc => absurd hc List.not_mem_nil
  | known reach _ found ih =>
    obtain ⟨originals, hfiled⟩ := reach.filed
    exact hadd ih List.prefix_rfl (hfiled.covers_of_find? found)
  | taken _ _ _ _ ih => exact hadd ih (List.prefix_append _ _) (covers_append _ _)
  | refuted _ _ _ ih =>
    exact hadd ih (List.prefix_append _ _) (covers_append _ ⟨.empty, [], _⟩)
  | enlisted _ h _ _ => exact h.elim
  | offered _ h _ _ _ => exact h.elim
  | round _ _ ih => exact fun c hc => (ih c hc).mono (clauses_prefix_performRound _)
  | halted _ _ _ ih => exact ih

/-- What was taken in is true wherever the stored clauses are. -/
theorem Session.Reachable.satisfies_premises (h : Reachable False s) {I : Interpretation.{0}}
    (hI : ∀ e ∈ s.kb.clauses, I.Satisfies e.clause) : ∀ c ∈ s.premises, I.Satisfies c := by
  intro c hc
  obtain ⟨e, he, hvar⟩ := h.covers_premises c hc
  obtain ⟨ρ, -, hback⟩ := hvar.symm
  rw [hback]
  exact (hI e he).rename ρ

/-! ## 4. Runs on ground clauses -/

/-- As long as the empty clause has not been found, fewer than `2 ^ n` ground clauses are stored. -/
theorem Session.Reachable.length_lt_of_ground (h : Reachable False s)
    (hactive : s.kb.contradictory = false) (hground : ∀ l ∈ ls, l.vars = [])
    (hprem : ∀ c ∈ s.premises, c.Over ls) : s.kb.clauses.length < 2 ^ distinctCount ls := by
  have hover := (hereditary_over hground).reachable h hprem
  have hne := h.ne_empty hactive
  rw [← List.length_map fun e : Entry => e.clause]
  refine length_lt_of_over h.nodup_clauses ?_ ?_
  · exact List.forall_mem_map.mpr hover
  · exact List.forall_mem_map.mpr hne

/-- **A run on ground clauses that may make `2 ^ n` rounds** finds the empty clause or saturates. -/
theorem Session.Reachable.run_ground (h : Reachable False s) (hground : ∀ l ∈ ls, l.vars = [])
    (hprem : ∀ c ∈ s.premises, c.Over ls) {limit : Nat} (hlimit : 2 ^ distinctCount ls ≤ limit) :
    (s.kb.runRounds limit).final.contradictory = true ∨
      (s.kb.runRounds limit).final.halt = some .saturated := by
  by_contra hneither
  rw [not_or, Bool.not_eq_true] at hneither
  obtain ⟨hactive, hsat⟩ := hneither
  have hfew : (s.kb.runRounds limit).final.clauses.length < 2 ^ distinctCount ls :=
    (reachable_runRounds limit h).length_lt_of_ground hactive hground hprem
  have hmany := length_add_limit_le limit hactive hsat
  omega

/-- **Ground clauses are decided.**  Let the clauses that some calls, none of them an offer, ask to
take in be ground, with `n` distinct literals.  Then a run that may make `2 ^ n` rounds or more does
not stop at its limit: it finds the empty clause if the clauses have no truth assignment, and it
saturates without having found it if they have one. -/
theorem ground_clauses_are_decided (calls : List Call)
    (hplain : ∀ call ∈ calls, call.isOffer = false)
    (hground : ∀ c ∈ calls.filterMap Call.premise?, c.vars = []) (limit : Int)
    (hlimit : ((2 ^ distinctCount ((calls.filterMap Call.premise?).flatMap fun c => c.literals) :
      Nat) : Int) ≤ limit) :
    let kb := (Session.ofCalls calls).kb.run limit
    kb.halt ≠ some .stepLimit ∧
    (¬ HasTruthAssignment (calls.filterMap Call.premise?) → kb.contradictory = true) ∧
    (HasTruthAssignment (calls.filterMap Call.premise?) →
      kb.halt = some .saturated ∧ kb.contradictory = false) := by
  intro kb
  have hreach : Session.Reachable False (Session.ofCalls calls) := Session.reachable_of_plain hplain
  obtain ⟨hsub, hall⟩ := Session.premises_ofCalls calls hplain
  have hliterals : ∀ l ∈ (calls.filterMap Call.premise?).flatMap fun c => c.literals,
      l.vars = [] := by
    intro l hl
    obtain ⟨c, hc, hlc⟩ := List.mem_flatMap.mp hl
    exact vars_eq_nil_of_mem (hground c hc) hlc
  have hover : ∀ c ∈ (Session.ofCalls calls).premises,
      c.Over ((calls.filterMap Call.premise?).flatMap fun c => c.literals) := fun c hc l hl =>
    List.mem_flatMap.mpr ⟨c, hsub c hc, hl⟩
  have hend : kb.contradictory = true ∨ kb.halt = some .saturated :=
    hreach.run_ground hliterals hover (by omega)
  refine ⟨?_, ?_, ?_⟩
  · intro hstep
    rcases hend with hcontra | hsat
    · have hhalt := (Session.reachable_runRounds limit.toNat hreach).halt_eq hcontra
      exact absurd (hstep.symm.trans hhalt) (by decide)
    · exact absurd (hstep.symm.trans hsat) (by decide)
  · intro hnone
    refine hend.resolve_right fun hsat => hnone ?_
    obtain ⟨hactive, -⟩ := hreach.met_of_saturated hsat
    obtain ⟨I, hI⟩ := exists_model_of_saturated hreach hsat
    rw [← hall (active_of_runRounds hactive)]
    exact hasTruthAssignment_of_satisfies
      ((Session.reachable_runRounds limit.toNat hreach).satisfies_premises hI)
  · rintro ⟨M, hM⟩
    have hmodel : ∀ c ∈ (Session.ofCalls calls).premises, (Interpretation.onTerms M).Satisfies c :=
      fun c hc => satisfies_onTerms_of_ground (hground c (hsub c hc)) (hM c (hsub c hc))
    have hactive : kb.contradictory = false :=
      ((Session.reachable_runRounds limit.toNat hreach).entailed _ hmodel).2
    rw [hactive] at hend
    exact ⟨hend.resolve_left (by decide), hactive⟩

/-- The four clauses on two atoms: each excludes one of the ways in which the atoms can be true. -/
def twoAtomClauses : List (List Literal) :=
  let p (negated : Bool) : Literal := ⟨negated, "P", [.app "a" []]⟩
  let q (negated : Bool) : Literal := ⟨negated, "Q", [.app "a" []]⟩
  [[p false, q false], [p true, q false], [p false, q true], [p true, q true]]

/-- The first of these clauses are taken in. -/
def twoAtoms (n : Nat) : List Call :=
  (twoAtomClauses.take n).map fun ls => .ingest (ls.map .literal) ""

/-- The four clauses have no truth assignment, and the first three have one; as there are four
literals, sixteen rounds are enough to find out. -/
theorem twoAtoms_are_decided :
    ((∀ call ∈ twoAtoms 4, call.isOffer = false) ∧
      (∀ c ∈ (twoAtoms 4).filterMap Call.premise?, c.vars = []) ∧
      ((Session.ofCalls (twoAtoms 4)).kb.run 16).contradictory = true) ∧
    ((∀ call ∈ twoAtoms 3, call.isOffer = false) ∧
      (∀ c ∈ (twoAtoms 3).filterMap Call.premise?, c.vars = []) ∧
      ((Session.ofCalls (twoAtoms 3)).kb.run 16).halt = some .saturated) := by
  have hplain : ∀ n ∈ [3, 4], ∀ call ∈ twoAtoms n, call.isOffer = false := by decide
  have hground : ∀ n ∈ [3, 4], ∀ c ∈ (twoAtoms n).filterMap Call.premise?, c.vars = [] := by
    decide +kernel
  have hfour : ¬ HasTruthAssignment ((twoAtoms 4).filterMap Call.premise?) := by
    rintro ⟨M, hM⟩
    have hpremises : (twoAtoms 4).filterMap Call.premise? = twoAtomClauses.map ofList := rfl
    rw [hpremises, List.forall_mem_map] at hM
    let p : Term := .app "P" [.app "a" []]
    let q : Term := .app "Q" [.app "a" []]
    have hcases : (p ∈ M ∨ q ∈ M) ∧ (p ∉ M ∨ q ∈ M) ∧ (p ∈ M ∨ q ∉ M) ∧ (p ∉ M ∨ q ∉ M) := by
      simpa [twoAtomClauses, Literal.TrueIn, Literal.atom] using hM
    tauto
  have hthree : HasTruthAssignment ((twoAtoms 3).filterMap Call.premise?) := by
    refine ⟨{.app "P" [.app "a" []], .app "Q" [.app "a" []]}, ?_⟩
    have hpremises : (twoAtoms 3).filterMap Call.premise? =
        (twoAtomClauses.take 3).map ofList := rfl
    rw [hpremises, List.forall_mem_map]
    simp [twoAtomClauses, Literal.TrueIn, Literal.atom]
  obtain ⟨-, hrefuted, -⟩ := ground_clauses_are_decided (twoAtoms 4) (hplain 4 (by decide))
    (hground 4 (by decide)) 16 (by decide +kernel)
  obtain ⟨-, -, hsaturated⟩ := ground_clauses_are_decided (twoAtoms 3) (hplain 3 (by decide))
    (hground 3 (by decide)) 16 (by decide +kernel)
  exact ⟨⟨hplain 4 (by decide), hground 4 (by decide), hrefuted hfour⟩, hplain 3 (by decide),
    hground 3 (by decide), (hsaturated hthree).1⟩

end Clausal

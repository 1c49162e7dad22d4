/-
# Clauses without opposed predicates saturate

Let no predicate, taken with its number of arguments, occur both negated and not.  Signs and
predicates are inherited (`Clause.hereditary_signedAs`), so this stays true of all that is ever
stored, and there is no resolvent at all (`Clause.resolvents_eq_nil`): neither is the empty clause
found, nor does a round derive anything but factors.

A factor has fewer literals than what it is a factor of, and a round factors only clauses that have
not met the others, which are those of the round before.  So the largest of them gets smaller in
every round (`Narrow.round`), and where they have one literal each there is nothing to factor
(`Narrow.eq_nil`).  That factors are stored with fresh variables, and that a copy may pass for a new
clause, makes no difference to this count: it bounds the rounds, not the clauses.
-/
import Clausal.Proofs.Hereditary
import Clausal.Proofs.Runs

namespace Clausal

open KnowledgeBase

/-! ## 1. Predicates and their signs -/

namespace Literal

variable {l m : Literal} {σ : Substitution}

/-- The predicate with its number of arguments. -/
def symbol (l : Literal) : String × Nat :=
  (l.predicate, l.args.length)

@[simp] theorem symbol_subst (θ : String → Term) (l : Literal) : (l.subst θ).symbol = l.symbol := by
  simp [symbol, subst]

/-- Atoms that can be unified have the same predicate, and as many arguments. -/
theorem symbol_eq_of_unify? (h : l.unify? m = some σ) : l.symbol = m.symbol := by
  have hatom : l.atom.subst σ.image = m.atom.subst σ.image := Term.unify?_sound h
  rw [atom, atom, Term.subst_app, Term.subst_app, Term.app.injEq] at hatom
  have hlength := congrArg List.length hatom.2
  rw [List.length_map, List.length_map] at hlength
  rw [symbol, symbol, hatom.1, hlength]

end Literal

/-- Whether no predicate occurs with both signs in the given literals. -/
def Unopposed (ls : List Literal) : Prop :=
  ∀ l ∈ ls, ∀ m ∈ ls, l.symbol = m.symbol → l.negated = m.negated

instance (ls : List Literal) : Decidable (Unopposed ls) :=
  inferInstanceAs (Decidable (∀ l ∈ ls, ∀ m ∈ ls, l.symbol = m.symbol → l.negated = m.negated))

namespace Clause

variable {ls ms : List Literal} {c d r : Clause}

/-- Every literal has the predicate and the sign of one of the given literals. -/
def SignedAs (ls : List Literal) (c : Clause) : Prop :=
  ∀ l ∈ c, ∃ k ∈ ls, k.symbol = l.symbol ∧ k.negated = l.negated

/-- Instances of literals have their predicates and signs. -/
theorem signedAs_ofList_map_subst (θ : String → Term)
    (h : ∀ m ∈ ms, ∃ k ∈ ls, k.symbol = m.symbol ∧ k.negated = m.negated) :
    (ofList (ms.map (Literal.subst θ))).SignedAs ls := by
  intro l hl
  obtain ⟨m, hm, rfl⟩ := List.mem_map.mp (mem_ofList.mp hl)
  simpa using h m hm

theorem hereditary_signedAs (ls : List Literal) : Hereditary (SignedAs ls) where
  rename ρ hc := signedAs_ofList_map_subst (fun x => .var (ρ x)) hc
  factor hc hr := by
    obtain ⟨l, m, σ, -, -, -, -, -, rfl⟩ := mem_factors hr
    exact signedAs_ofList_map_subst σ.image fun k hk => hc k (mem_others.mp hk).1
  resolvent hc hd hr := by
    obtain ⟨l, m, σ, -, -, -, -, rfl⟩ := mem_resolvents.mp hr
    refine signedAs_ofList_map_subst σ.image fun k hk => ?_
    rcases List.mem_append.mp hk with hk | hk
    · exact hc k (mem_others.mp hk).1
    · exact hd k (mem_others.mp hk).1

/-- **Without opposed predicates there are no resolvents.** -/
theorem resolvents_eq_nil (h : Unopposed ls) (hc : c.SignedAs ls) (hd : d.SignedAs ls) :
    c.resolvents d = [] := by
  refine List.eq_nil_iff_forall_not_mem.mpr fun r hr => ?_
  obtain ⟨l, m, σ, hl, hm, hs, hσ, -⟩ := mem_resolvents.mp hr
  obtain ⟨j, hj, hjl, hjs⟩ := hc l hl
  obtain ⟨k, hk, hkm, hks⟩ := hd m hm
  refine hs ?_
  calc l.negated = j.negated := hjs.symm
    _ = k.negated := h j hj k hk (by rw [hjl, hkm, Literal.symbol_eq_of_unify? hσ])
    _ = m.negated := hks

end Clause

/-! ## 2. Rounds that only factor -/

namespace KnowledgeBase

variable {kb : KnowledgeBase} {ls : List Literal} {n : Nat}

theorem resolvents_nextRound_eq_nil (h : Unopposed ls)
    (hkb : ∀ e ∈ kb.clauses, e.clause.SignedAs ls) : kb.nextRound.resolvents = [] := by
  refine List.flatMap_eq_nil_iff.mpr fun m hm => ?_
  obtain ⟨-, d, e, hd, he, hres⟩ := mem_meetings hm
  have hnil := Clause.resolvents_eq_nil h (hkb d (List.mem_of_getElem? hd))
    (hkb e (List.mem_of_getElem? he))
  rw [Meeting.candidates, hres, hnil, List.map_nil]

theorem refutation?_of_unopposed (h : Unopposed ls)
    (hkb : ∀ e ∈ kb.clauses, e.clause.SignedAs ls) : kb.nextRound.refutation? = none := by
  rw [Round.refutation?, resolvents_nextRound_eq_nil h hkb, List.find?_nil]

/-- The clauses that have not met the others have at most `n` literals each. -/
def Narrow (n : Nat) (kb : KnowledgeBase) : Prop :=
  ∀ e ∈ kb.clauses.drop kb.met, e.clause.size ≤ n

/-- What a round derives where there are no resolvents are factors of the clauses that have not met the
others. -/
theorem exists_factored (hnil : kb.nextRound.resolvents = []) {c : Candidate}
    (hc : c ∈ kb.nextRound.candidates) :
    ∃ e ∈ kb.clauses.drop kb.met, c.clause ∈ e.clause.factors := by
  rw [Round.candidates, hnil, List.append_nil] at hc
  obtain ⟨i, e, hmet, he, hfac, -⟩ := mem_factors_nextRound hc
  refine ⟨e, List.mem_iff_getElem?.mpr ⟨i - kb.met, ?_⟩, hfac⟩
  rw [List.getElem?_drop, Nat.add_sub_cancel' hmet, he]

/-- **The step.**  The clauses that a round adds have fewer literals than those that it factors. -/
theorem Narrow.round (h : kb.Narrow n) (hnil : kb.nextRound.resolvents = []) :
    kb.performRound.1.Narrow (n - 1) := by
  have hr : kb.nextRound.refutation? = none := by rw [Round.refutation?, hnil, List.find?_nil]
  obtain ⟨new, hnew, -, hkept⟩ := performRound_adds hr
  rw [Narrow, met_performRound_of_none hr, hnew, List.drop_left]
  intro e he
  obtain ⟨c, hc, ⟨suffix, hclause⟩, -, -⟩ := hkept e he
  obtain ⟨d, hd, hfac⟩ := exists_factored hnil hc
  have hle := h d hd
  have hlt := Clause.size_lt_of_mem_factors hfac
  have hapart := Clause.size_rename_le (c.clause.apartRenaming suffix).image c.clause
  rw [hclause, Clause.apart]
  omega

/-- Clauses of one literal each have no factors, so the round comes to nothing. -/
theorem Narrow.eq_nil (h : kb.Narrow n) (hn : n ≤ 1) (hnil : kb.nextRound.resolvents = []) :
    kb.nextRound.candidates = [] := by
  refine List.eq_nil_iff_forall_not_mem.mpr fun c hc => ?_
  obtain ⟨e, he, hfac⟩ := exists_factored hnil hc
  have hle := h e he
  have htwo := Clause.two_le_of_mem_factors hfac
  omega

theorem performRound_of_candidates_eq_nil (h : kb.nextRound.candidates = []) :
    kb.performRound.2 = 0 := by
  have hr : kb.nextRound.refutation? = none := by
    rw [Round.refutation?, (List.append_eq_nil_iff.mp h).2, List.find?_nil]
  rw [performRound_of_none hr, h]
  exact Nat.sub_self _

/-- **The run.**  It has saturated when it has made as many rounds as the clauses that have not met the
others have literals. -/
theorem Narrow.run (hun : Unopposed ls) (limit : Nat) (kb : KnowledgeBase) :
    ∀ n, kb.Narrow n → n ≤ limit → 1 ≤ limit → kb.contradictory = false →
      (∀ e ∈ kb.clauses, e.clause.SignedAs ls) →
      (kb.runRounds limit).final.halt = some .saturated ∧
        (kb.runRounds limit).final.contradictory = false := by
  refine final_runRounds_induct (P := fun limit kb final => ∀ n, kb.Narrow n → n ≤ limit →
    1 ≤ limit → kb.contradictory = false → (∀ e ∈ kb.clauses, e.clause.SignedAs ls) →
    final.halt = some .saturated ∧ final.contradictory = false) ?found ?cut ?idle ?more limit kb
  case found => exact fun _ _ hc _ _ _ _ hactive => absurd (hc.symm.trans hactive) (by decide)
  case cut => exact fun _ _ _ _ _ hpos => absurd hpos (by decide)
  case idle =>
    intro _ kb hactive _ _ _ _ _ _ hkb
    refine ⟨rfl, ?_⟩
    exact (contradictory_performRound_of_none (refutation?_of_unopposed hun hkb)).trans hactive
  case more =>
    intro limit kb hactive hcount ih n hn hlimit _ _ hkb
    have hnil := resolvents_nextRound_eq_nil hun hkb
    -- The round has stored something, so there was a clause with two literals at least.
    have htwo : 2 ≤ n := by
      by_contra hlt
      exact hcount (performRound_of_candidates_eq_nil (hn.eq_nil (by omega) hnil))
    refine ih (n - 1) (hn.round hnil) (by omega) (by omega) ?_ ?_
    · exact (contradictory_performRound_of_none (refutation?_of_unopposed hun hkb)).trans hactive
    · exact (Clause.hereditary_signedAs ls).performRound hkb

end KnowledgeBase

/-! ## 3. Sessions -/

/-- Without opposed predicates the empty clause is not found, unless it is taken in. -/
theorem Session.Reachable.active_of_unopposed {s : Session} {ls : List Literal}
    (h : Reachable False s) (hun : Unopposed ls) (hsigned : ∀ c ∈ s.premises, c.SignedAs ls)
    (hnonempty : ∀ c ∈ s.premises, c ≠ .empty) : s.kb.contradictory = false := by
  cases h with
  | start => rfl
  | known _ active _ => exact active
  | taken _ active _ _ => exact active
  | refuted _ _ _ =>
    exact absurd rfl (hnonempty .empty (List.mem_append_right _ List.mem_cons_self))
  | enlisted _ ho _ => exact ho.elim
  | offered _ ho _ _ => exact ho.elim
  | @round s reach active =>
    have hkb := (Clause.hereditary_signedAs ls).reachable reach hsigned
    exact (contradictory_performRound_of_none (refutation?_of_unopposed hun hkb)).trans active
  | halted _ active _ => exact active

/-- **Clauses without opposed predicates saturate in few rounds.**  Let the clauses that some calls, none
of them an offer, have taken in be non-empty, and let no predicate with its number of arguments occur
in them both negated and not.  Then a run saturates, and does not find the empty clause, if it may make
one round at least and as many as any stored clause has literals. -/
theorem unopposed_clauses_saturate (calls : List Call)
    (hplain : ∀ call ∈ calls, call.isOffer = false)
    (hnonempty : ∀ c ∈ (Session.ofCalls calls).premises, c ≠ .empty)
    (hunopposed : Unopposed ((Session.ofCalls calls).premises.flatMap fun c => c.literals))
    (limit : Int) (hpos : 1 ≤ limit)
    (hwidth : ∀ e ∈ (Session.ofCalls calls).kb.clauses, (e.clause.size : Int) ≤ limit) :
    let kb := (Session.ofCalls calls).kb.run limit
    kb.halt = some .saturated ∧ kb.contradictory = false := by
  have hreach := Session.reachable_of_plain hplain
  have hsigned : ∀ c ∈ (Session.ofCalls calls).premises,
      c.SignedAs ((Session.ofCalls calls).premises.flatMap fun c => c.literals) := fun c hc l hl =>
    ⟨l, List.mem_flatMap.mpr ⟨c, hc, hl⟩, rfl, rfl⟩
  refine Narrow.run hunopposed limit.toNat _ limit.toNat ?_ (Nat.le_refl _) (by omega)
    (hreach.active_of_unopposed hunopposed hsigned hnonempty)
    ((Clause.hereditary_signedAs _).reachable hreach hsigned)
  intro e he
  have hle := hwidth e (List.mem_of_mem_drop he)
  omega

/-- Three literals that merge one after the other, and the predicate negated with another number of
arguments. -/
def mergingLiterals : List Call := [
  .ingest [.literal ⟨false, "P", [.var "x"]⟩, .literal ⟨false, "P", [.var "y"]⟩,
    .literal ⟨false, "P", [.app "f" [.var "z"]]⟩] "",
  .ingest [.literal ⟨true, "P", [.var "x", .var "y"]⟩] ""]

/-- A run after `mergingLiterals` saturates in three rounds, and not in two. -/
theorem mergingLiterals_saturate :
    ((∀ call ∈ mergingLiterals, call.isOffer = false) ∧
      (∀ c ∈ (Session.ofCalls mergingLiterals).premises, c ≠ .empty) ∧
      Unopposed ((Session.ofCalls mergingLiterals).premises.flatMap fun c => c.literals) ∧
      ∀ e ∈ (Session.ofCalls mergingLiterals).kb.clauses, (e.clause.size : Int) ≤ 3) ∧
    (((Session.ofCalls mergingLiterals).kb.run 3).halt = some .saturated ∧
      ((Session.ofCalls mergingLiterals).kb.run 3).contradictory = false) ∧
    ((Session.ofCalls mergingLiterals).kb.run 2).halt = some .stepLimit := by
  have hplain : ∀ call ∈ mergingLiterals, call.isOffer = false := by decide
  have hnonempty : ∀ c ∈ (Session.ofCalls mergingLiterals).premises, c ≠ .empty := by
    decide +kernel
  have hunopposed :
      Unopposed ((Session.ofCalls mergingLiterals).premises.flatMap fun c => c.literals) := by
    decide +kernel
  have hwidth : ∀ e ∈ (Session.ofCalls mergingLiterals).kb.clauses, (e.clause.size : Int) ≤ 3 := by
    decide +kernel
  exact ⟨⟨hplain, hnonempty, hunopposed, hwidth⟩,
    unopposed_clauses_saturate mergingLiterals hplain hnonempty hunopposed 3 (by decide) hwidth,
    by decide +kernel⟩

end Clausal

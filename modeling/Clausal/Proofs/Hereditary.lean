/-
# Properties that clauses inherit

A property of clauses is *hereditary* when the rules of inference and renamings keep it: what is
derived from clauses that have it has it too.  Such a property is a fact about all that a session
stores without offers, if it is one about the clauses that were taken in (`Hereditary.reachable`);
it does not matter how often and in which order rounds were made.

To be a Horn clause is such a property.  Clauses are sets, so literals that become equal are counted
once, and a literal that a resolution leaves out of one clause may stand in the other one and so
remain.  Both only need inequalities (`positives_ofList_le`, `positives_others_lt`): of the two
literals left out one is positive, and the clause that it is left out of has no other.
-/
import Clausal.Proofs.Inference
import Clausal.Proofs.Session

namespace Clausal

open KnowledgeBase

/-! ## 1. What is inherited -/

/-- The rules of inference and renamings keep the property. -/
structure Hereditary (P : Clause → Prop) : Prop where
  rename {c : Clause} (ρ : String → String) : P c → P (c.rename ρ)
  factor {c r : Clause} : P c → r ∈ c.factors → P r
  resolvent {c d r : Clause} : P c → P d → r ∈ c.resolvents d → P r

namespace Hereditary

variable {P : Clause → Prop} {kb : KnowledgeBase} {c : Candidate} {s : Session}

theorem append (h : Hereditary P) (hkb : ∀ e ∈ kb.clauses, P e.clause) (hc : P c.clause) :
    ∀ e ∈ (kb.append c).clauses, P e.clause := by
  intro e he
  rcases List.mem_append.mp he with he | he
  · exact hkb e he
  · rw [List.mem_singleton.mp he]
    exact h.rename _ hc

/-- What a round derives inherits from the stored clauses. -/
theorem candidate (h : Hereditary P) (hkb : ∀ e ∈ kb.clauses, P e.clause)
    (hc : c ∈ kb.nextRound.candidates) : P c.clause := by
  rcases mem_candidates hc with ⟨i, e, he, hfac, -⟩ | ⟨i, j, e, e', -, he, he', hres, -⟩
  · exact h.factor (hkb e (List.mem_of_getElem? he)) hfac
  · exact h.resolvent (hkb e (List.mem_of_getElem? he)) (hkb e' (List.mem_of_getElem? he')) hres

/-- **The step.**  Where all stored clauses have the property, so do those that a round adds. -/
theorem performRound (h : Hereditary P) (hkb : ∀ e ∈ kb.clauses, P e.clause) :
    ∀ e ∈ kb.performRound.1.clauses, P e.clause := by
  cases hr : kb.nextRound.refutation? with
  | some c =>
    rw [performRound_of_some hr]
    exact hkb
  | none =>
    rw [performRound_of_none hr]
    refine storeAll_induction (P := fun kb => ∀ e ∈ kb.clauses, P e.clause) hkb ?_
    intro kb' c hc hkb' _
    exact h.append hkb' (h.candidate hkb hc)

/-- **The run.**  Without offers all stored clauses inherit from the clauses that were taken in. -/
theorem reachable (h : Hereditary P) (hs : Session.Reachable False s)
    (hprem : ∀ c ∈ s.premises, P c) : ∀ e ∈ s.kb.clauses, P e.clause := by
  induction hs with
  | start => exact fun e he => absurd he List.not_mem_nil
  | known _ _ _ ih => exact ih fun c hc => hprem c (List.mem_append_left _ hc)
  | taken _ _ _ _ ih =>
    exact h.append (ih fun c hc => hprem c (List.mem_append_left _ hc))
      (hprem _ (List.mem_append_right _ List.mem_cons_self))
  | refuted _ _ _ ih =>
    exact h.append (c := ⟨.empty, [], _⟩) (ih fun c hc => hprem c (List.mem_append_left _ hc))
      (hprem _ (List.mem_append_right _ List.mem_cons_self))
  | enlisted _ ho _ _ => exact ho.elim
  | offered _ ho _ _ _ => exact ho.elim
  | round _ _ ih => exact h.performRound (ih hprem)
  | halted _ _ _ ih => exact ih hprem

end Hereditary

/-! ## 2. Horn clauses -/

namespace Clause

variable {c d r : Clause} {ls : List Literal} {m : Literal}

/-- The number of positive literals in a list. -/
def positives (ls : List Literal) : Nat :=
  ls.countP fun l => !l.negated

theorem isHorn_iff : c.isHorn = true ↔ positives c.literals ≤ 1 := by
  rw [isHorn, decide_eq_true_iff, positives, List.countP_eq_length_filter]

theorem positives_map_subst (θ : String → Term) (ls : List Literal) :
    positives (ls.map (Literal.subst θ)) = positives ls := by
  rw [positives, List.countP_map]
  rfl

theorem positives_ofList_le (ls : List Literal) : positives (ofList ls).literals ≤ positives ls :=
  countP_ofList_le _ ls

theorem positives_others_le (m : Literal) (c : Clause) :
    positives (c.others m) ≤ positives c.literals :=
  List.filter_sublist.countP_le

/-- To leave out a positive literal makes one less of them. -/
theorem positives_others_lt (hm : m ∈ c) (hpos : m.negated = false) :
    positives (c.others m) < positives c.literals := by
  have hsplit := List.countP_eq_countP_filter_add c.literals (fun l => !l.negated) (· ≠ m)
  have hleft : 0 < (c.literals.filter fun l => !decide (l ≠ m)).countP fun l => !l.negated := by
    rw [List.countP_pos_iff]
    exact ⟨m, List.mem_filter.mpr ⟨hm, by simp⟩, by simp [hpos]⟩
  rw [positives, positives, others]
  omega

/-- The images of some literals are a Horn clause if at most one of the literals is positive. -/
theorem isHorn_ofList_map_subst (θ : String → Term) (h : positives ls ≤ 1) :
    (ofList (ls.map (Literal.subst θ))).isHorn = true := by
  rw [isHorn_iff]
  calc positives (ofList (ls.map (Literal.subst θ))).literals
      ≤ positives (ls.map (Literal.subst θ)) := positives_ofList_le _
    _ = positives ls := positives_map_subst θ ls
    _ ≤ 1 := h

theorem isHorn_factor (hc : c.isHorn = true) (hr : r ∈ c.factors) : r.isHorn = true := by
  obtain ⟨l, m, σ, -, -, -, -, -, rfl⟩ := mem_factors hr
  exact isHorn_ofList_map_subst σ.image
    (Nat.le_trans (positives_others_le m c) (isHorn_iff.mp hc))

theorem isHorn_resolvent (hc : c.isHorn = true) (hd : d.isHorn = true)
    (hr : r ∈ c.resolvents d) : r.isHorn = true := by
  obtain ⟨l, m, σ, hl, hm, hs, -, rfl⟩ := mem_resolvents.mp hr
  refine isHorn_ofList_map_subst σ.image ?_
  rw [isHorn_iff] at hc hd
  have hrestc := positives_others_le l c
  have hrestd := positives_others_le m d
  rw [positives, List.countP_append, ← positives, ← positives]
  -- One of the two literals is positive, and was the only one of its clause.
  cases hpos : l.negated with
  | false =>
    have := positives_others_lt hl hpos
    omega
  | true =>
    have hneg : m.negated = false := by simpa [hpos] using hs.symm
    have := positives_others_lt hm hneg
    omega

theorem hereditary_isHorn : Hereditary fun c => c.isHorn = true where
  rename ρ hc := isHorn_ofList_map_subst (fun x => .var (ρ x)) (isHorn_iff.mp hc)
  factor := isHorn_factor
  resolvent := isHorn_resolvent

end Clause

/-- **Horn clauses stay Horn.**  If all clauses that some calls, none of them an offer, have taken in
are Horn clauses, then so are all stored clauses.  The rules themselves keep them: a factor of a Horn
clause is a Horn clause, and so is a resolvent of two, whether they share variables or not. -/
theorem horn_clauses_stay_horn :
    (∀ calls : List Call, (∀ call ∈ calls, call.isOffer = false) →
      (∀ c ∈ (Session.ofCalls calls).premises, c.isHorn = true) →
      ∀ e ∈ (Session.ofCalls calls).kb.clauses, e.clause.isHorn = true) ∧
    (∀ c : Clause, c.isHorn = true → ∀ r ∈ c.factors, r.isHorn = true) ∧
    ∀ c d : Clause, c.isHorn = true → d.isHorn = true → ∀ r ∈ c.resolvents d, r.isHorn = true := by
  refine ⟨?_, ?_, ?_⟩
  · intro calls hplain hprem
    exact Clause.hereditary_isHorn.reachable (Session.reachable_of_plain hplain) hprem
  · exact fun c hc r hr => Clause.isHorn_factor hc hr
  · exact fun c d hc hd r hr => Clause.isHorn_resolvent hc hd hr

/-- A fact and a rule that has it twice among its conditions, and a round. -/
def hornRules : List Call := [
  .ingest [.literal ⟨false, "P", [.app "a" []]⟩] "",
  .ingest [.literal ⟨true, "P", [.var "x"]⟩, .literal ⟨true, "P", [.var "y"]⟩,
    .literal ⟨false, "Q", [.var "x", .var "y"]⟩] "",
  .round]

/-- `P(a()) | !Q([x])` and `P(a()) | !P([x])`, which share a variable and the literal that the first
is resolved on. -/
def keptLiteral : Clause × Clause :=
  (.ofList [⟨false, "P", [.app "a" []]⟩, ⟨true, "Q", [.var "x"]⟩],
   .ofList [⟨false, "P", [.app "a" []]⟩, ⟨true, "P", [.var "x"]⟩])

/-- The round adds three clauses to those of `hornRules`, one of them a factor.  The one resolvent of
`keptLiteral` still has the literal that was left out of the first clause. -/
theorem hornRules_stay_horn :
    ((∀ call ∈ hornRules, call.isOffer = false) ∧
      (∀ c ∈ (Session.ofCalls hornRules).premises, c.isHorn = true) ∧
      (Session.ofCalls hornRules).kb.clauses.length = 5 ∧
      ∀ e ∈ (Session.ofCalls hornRules).kb.clauses, e.clause.isHorn = true) ∧
    (keptLiteral.1.isHorn = true ∧ keptLiteral.2.isHorn = true ∧
      keptLiteral.1.resolvents keptLiteral.2 =
        [.ofList [⟨false, "P", [.app "a" []]⟩, ⟨true, "Q", [.app "a" []]⟩]] ∧
      ∀ r ∈ keptLiteral.1.resolvents keptLiteral.2, r.isHorn = true) := by
  obtain ⟨hsession, -, hresolvent⟩ := horn_clauses_stay_horn
  have hplain : ∀ call ∈ hornRules, call.isOffer = false := by decide
  have hprem : ∀ c ∈ (Session.ofCalls hornRules).premises, c.isHorn = true := by decide +kernel
  have hc : keptLiteral.1.isHorn = true := by decide +kernel
  have hd : keptLiteral.2.isHorn = true := by decide +kernel
  exact ⟨⟨hplain, hprem, by decide +kernel, hsession hornRules hplain hprem⟩,
    hc, hd, by decide +kernel, hresolvent _ _ hc hd⟩

end Clausal

/-
# What has met is closed under the rules

A round offers everything that it derives to the store, and an offer is only dropped when the store
has a clause with the same key, that is, a renaming of the clause.  So after the round the store
*covers* whatever was derived (`covers_storeAll`): it has each clause up to renaming.

Since all clauses that have met were factored, and all pairs of them resolved, the factors and
resolvents of those clauses are covered.  `Closed` says so; it holds after all calls, as long as the
empty clause has not been found (`Reachable.closed`).  The clauses that are stored later are no
threat to it, for the store only grows.

A round resolves two clauses in one order only, the earlier one first.  That is enough, because the
resolvents in the other order are variants of these (`Closed.resolvent_of_ne`).
-/
import Clausal.Proofs.Runs
import Clausal.Proofs.Schedule
import Clausal.Proofs.StandardizedApart
import Clausal.Proofs.Variants

namespace Clausal

open Clause

namespace KnowledgeBase

variable {kb kb' : KnowledgeBase} {originals : List Clause}

/-! ## 1. Clauses that are stored up to renaming -/

/-- Whether some stored clause is a renaming of the given one. -/
def Covers (kb : KnowledgeBase) (c : Clause) : Prop :=
  ∃ e ∈ kb.clauses, Variant c e.clause

theorem Covers.mono {c : Clause} (h : kb.Covers c) (hle : kb.clauses <+: kb'.clauses) :
    kb'.Covers c := by
  obtain ⟨e, he, hvar⟩ := h
  exact ⟨e, hle.subset he, hvar⟩

/-- What is stored is a variant of what came in. -/
theorem variant_append (kb : KnowledgeBase) (c : Candidate) :
    ∃ e, (kb.append c).clauses[kb.clauses.length]? = some e ∧ Variant c.clause e.clause :=
  ⟨_, List.getElem?_concat_length, variant_apart _ _⟩

theorem covers_append (kb : KnowledgeBase) (c : Candidate) : (kb.append c).Covers c.clause := by
  obtain ⟨e, he, hvar⟩ := variant_append kb c
  exact ⟨e, List.mem_of_getElem? he, hvar⟩

/-- **What is found by the key of a clause is a variant of it**, for a key determines a clause up to
renaming. -/
theorem Filed.variant_of_find? (h : Filed kb originals) {c : Clause} {i : Nat}
    (hf : kb.find? c.key = some i) : ∃ e, kb.clauses[i]? = some e ∧ Variant c e.clause := by
  obtain ⟨before, after, hkeys, -⟩ := List.lookup_eq_some_iff.mp hf
  have hmem : (c.key, i) ∈ kb.signatures := by
    rw [hkeys]
    exact List.mem_append_right _ List.mem_cons_self
  rw [h.keys, List.mem_mapIdx] at hmem
  obtain ⟨j, hj, heq⟩ := hmem
  obtain ⟨hkey, rfl⟩ := Prod.mk.inj heq
  have hstored : (kb.clauses.map fun e => e.clause)[j]? =
      some (originals[j].apart (indexSuffix j)) := by
    rw [h.clauses, List.getElem?_mapIdx, List.getElem?_eq_getElem hj]
    rfl
  rw [List.getElem?_map, Option.map_eq_some_iff] at hstored
  obtain ⟨e, he, hclause⟩ := hstored
  refine ⟨e, he, ?_⟩
  rw [hclause]
  exact (Variant.of_key_eq hkey.symm).trans (variant_apart _ _)

/-- A clause whose key is known is covered. -/
theorem Filed.covers_of_find? (h : Filed kb originals) {c : Clause} {i : Nat}
    (hf : kb.find? c.key = some i) : kb.Covers c := by
  obtain ⟨e, he, hvar⟩ := h.variant_of_find? hf
  exact ⟨e, List.mem_of_getElem? he, hvar⟩

/-- An offer of a clause keeps the store filed, and the clause is covered after it. -/
theorem Filed.store (h : Filed kb originals) (c : Candidate) :
    (∃ originals', Filed (kb.store c).1 originals') ∧ (kb.store c).1.Covers c.clause := by
  unfold KnowledgeBase.store
  split
  · rename_i hf
    exact ⟨⟨originals, h⟩, h.covers_of_find? hf⟩
  · exact ⟨⟨_, h.append c⟩, covers_append kb c⟩

/-- **What is offered is covered.** -/
theorem covers_storeAll {c : Candidate} : ∀ {cs : List Candidate} {kb : KnowledgeBase}
    {originals : List Clause}, Filed kb originals → c ∈ cs → (kb.storeAll cs).Covers c.clause
  | d :: cs, kb, originals, h, hc => by
    obtain ⟨⟨originals', h'⟩, hd⟩ := h.store d
    rw [storeAll, List.foldl_cons]
    rcases List.mem_cons.mp hc with rfl | hc
    · exact hd.mono (clauses_prefix_storeAll _ _)
    · exact covers_storeAll h' hc

/-- What a round derives that does not refute is covered after it. -/
theorem Filed.covers_candidate (h : Filed kb originals) (hr : kb.nextRound.refutation? = none)
    {c : Candidate} (hc : c ∈ kb.nextRound.candidates) : kb.performRound.1.Covers c.clause := by
  have hall : Filed kb.allMet originals := ⟨h.clauses, h.keys⟩
  rw [performRound_of_none hr]
  exact covers_storeAll hall hc

/-! ## 2. Closed stores -/

/-- The factors of the clauses that have met, and the resolvents of any two of them, are covered,
and none of the resolvents is empty. -/
structure Closed (kb : KnowledgeBase) : Prop where
  factor : ∀ i e, i < kb.met → kb.clauses[i]? = some e → ∀ r ∈ e.clause.factors, kb.Covers r
  resolvent : ∀ i j d e, i < j → j < kb.met → kb.clauses[i]? = some d → kb.clauses[j]? = some e →
    ∀ r ∈ d.clause.resolvents e.clause, r ≠ .empty ∧ kb.Covers r

/-- Clauses that are stored without having met the others do no harm. -/
theorem Closed.mono (h : Closed kb) (hmet : kb.met ≤ kb.clauses.length)
    (hle : kb.clauses <+: kb'.clauses) (hsame : kb'.met = kb.met) : Closed kb' where
  factor := by
    intro i e hi he r hr
    rw [hsame] at hi
    rw [getElem?_of_isPrefix hle (by omega)] at he
    exact (h.factor i e hi he r hr).mono hle
  resolvent := by
    intro i j d e hij hj hd he r hr
    rw [hsame] at hj
    rw [getElem?_of_isPrefix hle (by omega)] at hd he
    obtain ⟨hne, hcov⟩ := h.resolvent i j d e hij hj hd he r hr
    exact ⟨hne, hcov.mono hle⟩

/-- **The step.**  A round that does not refute closes the store under what it derived. -/
theorem Closed.round (h : Closed kb) (hfiled : Filed kb originals)
    (hr : kb.nextRound.refutation? = none) : Closed kb.performRound.1 := by
  have hle := clauses_prefix_performRound kb
  have hmet := met_performRound_of_none hr
  constructor
  · intro i e hi he r hmem
    rw [hmet] at hi
    rw [getElem?_of_isPrefix hle hi] at he
    by_cases hold : i < kb.met
    · exact (h.factor i e hold he r hmem).mono hle
    · have hf : (⟨i, e.clause.factors⟩ : Factoring) ∈ kb.nextRound.factorings :=
        mem_factorings.mpr ⟨Nat.le_of_not_lt hold, e, he, rfl⟩
      have hcand : (⟨r, [.stored i], ""⟩ : Candidate) ∈ kb.nextRound.candidates :=
        List.mem_append_left _ (List.mem_flatMap.mpr ⟨_, hf, List.mem_map_of_mem hmem⟩)
      exact hfiled.covers_candidate hr hcand
  · intro i j d e hij hj hd he r hmem
    rw [hmet] at hj
    rw [getElem?_of_isPrefix hle (by omega)] at hd he
    by_cases hold : j < kb.met
    · obtain ⟨hne, hcov⟩ := h.resolvent i j d e hij hold hd he r hmem
      exact ⟨hne, hcov.mono hle⟩
    · have hm : (⟨i, j, d.clause.resolvents e.clause⟩ : Meeting) ∈ kb.nextRound.meetings := by
        rw [meetings_of_none hr]
        refine List.mem_map.mpr ⟨((d.clause, i), (e.clause, j)), mem_unmetLine.mpr ?_, rfl⟩
        exact ⟨mem_numbered.mpr ⟨d, hd, rfl⟩, mem_numbered.mpr ⟨e, he, rfl⟩, hij,
          Nat.le_of_not_lt hold⟩
      have hcand : (⟨r, [.stored i, .stored j], ""⟩ : Candidate) ∈ kb.nextRound.candidates :=
        List.mem_append_right _ (List.mem_flatMap.mpr ⟨_, hm, List.mem_map_of_mem hmem⟩)
      refine ⟨?_, hfiled.covers_candidate hr hcand⟩
      rintro rfl
      have := List.any_eq_false.mp (refutes_eq_false hr hm) _ hmem
      exact this rfl

/-- In a closed store two clauses that have met may be resolved in either order. -/
theorem Closed.resolvent_of_ne (h : Closed kb) {i j : Nat} {d e : Entry} (hij : i ≠ j)
    (hi : i < kb.met) (hj : j < kb.met) (hd : kb.clauses[i]? = some d)
    (he : kb.clauses[j]? = some e) :
    ∀ r ∈ d.clause.resolvents e.clause, r ≠ .empty ∧ kb.Covers r := by
  intro r hr
  rcases Nat.lt_or_gt_of_ne hij with hlt | hlt
  · exact h.resolvent i j d e hlt hj hd he r hr
  · obtain ⟨r', hr', hvar⟩ := exists_resolvent_swap hr
    obtain ⟨hne, f, hf, hcov⟩ := h.resolvent j i e d hlt hi he hd r' hr'
    exact ⟨hvar.symm.ne_empty hne, f, hf, hvar.trans hcov⟩

end KnowledgeBase

/-! ## 3. Every session keeps its store closed -/

open KnowledgeBase

/-- As long as the empty clause has not been found, the clauses that have met are closed under the
rules, up to renaming. -/
theorem Session.Reachable.closed {offers : Prop} {s : Session} (h : Reachable offers s)
    (hactive : s.kb.contradictory = false) : Closed s.kb := by
  induction h with
  | start => exact ⟨fun _ _ hi => absurd hi (Nat.not_lt_zero _),
      fun _ _ _ _ _ hj => absurd hj (Nat.not_lt_zero _)⟩
  | known _ active _ ih => exact ih active
  | taken reach active _ _ ih =>
    exact (ih active).mono reach.scheduled.met_le (List.prefix_append _ _) rfl
  | refuted _ _ _ _ => exact absurd hactive (by simp [contradictory, KnowledgeBase.refuted])
  | enlisted reach _ active ih =>
    exact (ih active).mono reach.scheduled.met_le List.prefix_rfl rfl
  | offered reach _ active _ ih =>
    exact (ih active).mono reach.scheduled.met_le (List.prefix_append _ _) rfl
  | @round s reach active ih =>
    obtain ⟨originals, hfiled⟩ := reach.filed
    exact (ih active).round hfiled (refutation?_of_active hactive)
  | halted reach active _ ih =>
    exact (ih active).mono reach.scheduled.met_le List.prefix_rfl rfl

/-- **What has met is closed under the rules.**  After any sequence of calls that has not found the
empty clause, the resolvents of any two clauses up to the last processed index are covered and not
empty, and the factors of any of these clauses are covered.  And when a run stops because it has
saturated, this holds of all clauses that are stored, in whatever order two of them are resolved. -/
theorem met_clauses_closed (calls : List Call) :
    let kb := (Session.ofCalls calls).kb
    (kb.contradictory = false →
      (∀ i j : Nat, i < j → (j : Int) ≤ processed kb.met →
        ∃ d e, kb.clauses[i]? = some d ∧ kb.clauses[j]? = some e ∧
          ∀ r ∈ d.clause.resolvents e.clause, r ≠ .empty ∧ kb.Covers r) ∧
      ∀ i : Nat, (i : Int) ≤ processed kb.met →
        ∃ e, kb.clauses[i]? = some e ∧ ∀ r ∈ e.clause.factors, kb.Covers r) ∧
    ∀ limit : Int, (kb.run limit).halt = some .saturated →
      (∀ (i j : Nat) (d e : Entry), i ≠ j → (kb.run limit).clauses[i]? = some d →
        (kb.run limit).clauses[j]? = some e →
          ∀ r ∈ d.clause.resolvents e.clause, r ≠ .empty ∧ (kb.run limit).Covers r) ∧
      ∀ e ∈ (kb.run limit).clauses, ∀ r ∈ e.clause.factors, (kb.run limit).Covers r := by
  intro kb
  have hreach : Session.Reachable True (Session.ofCalls calls) :=
    Session.reachable_ofCalls fun _ _ _ => trivial
  constructor
  · intro hactive
    have hclosed : Closed kb := hreach.closed hactive
    have hle : kb.met ≤ kb.clauses.length := hreach.scheduled.met_le
    have hstored : ∀ i : Nat, (i : Int) ≤ processed kb.met →
        i < kb.met ∧ ∃ e, kb.clauses[i]? = some e := by
      intro i hi
      have hmet : i < kb.met := by
        unfold processed at hi
        omega
      exact ⟨hmet, _, List.getElem?_eq_getElem (Nat.lt_of_lt_of_le hmet hle)⟩
    constructor
    · intro i j hij hj
      obtain ⟨-, d, hd⟩ := hstored i (by omega)
      obtain ⟨hmet, e, he⟩ := hstored j hj
      exact ⟨d, e, hd, he, hclosed.resolvent i j d e hij hmet hd he⟩
    · intro i hi
      obtain ⟨hmet, e, he⟩ := hstored i hi
      exact ⟨e, he, hclosed.factor i e hmet he⟩
  · intro limit hsat
    obtain ⟨hactive, hmet⟩ := hreach.met_of_saturated hsat
    have hclosed : Closed (kb.run limit) :=
      (Session.reachable_runRounds limit.toNat hreach).closed hactive
    have hall : ∀ {i : Nat} {e : Entry}, (kb.run limit).clauses[i]? = some e →
        i < (kb.run limit).met := by
      intro i e he
      obtain ⟨hi, -⟩ := List.getElem?_eq_some_iff.mp he
      exact Nat.lt_of_lt_of_eq hi hmet.symm
    constructor
    · intro i j d e hij hd he
      exact hclosed.resolvent_of_ne hij (hall hd) (hall he) hd he
    · intro e hmem
      obtain ⟨i, hi⟩ := List.mem_iff_getElem?.mp hmem
      exact hclosed.factor i e (hall hi) hi

/-- A fact that was taken in, and a rule that was offered. -/
def factAndRule : List Call := [
  .ingest [.literal ⟨false, "P", [.app "a" []]⟩] "",
  .offer [] ⟨.ofList [⟨true, "P", [.var "x"]⟩, ⟨false, "Q", [.var "x"]⟩], [], ""⟩]

/-- The run after `factAndRule` stores the one resolvent of the fact and the rule and saturates, so
that the resolvents of the rule and the fact are covered as well. -/
theorem factAndRule_is_closed :
    ((Session.ofCalls factAndRule).kb.run 3).halt = some .saturated ∧
    ∃ d e, ((Session.ofCalls factAndRule).kb.run 3).clauses[0]? = some d ∧
      ((Session.ofCalls factAndRule).kb.run 3).clauses[1]? = some e ∧
      e.clause.resolvents d.clause = [.ofList [⟨false, "Q", [.app "a" []]⟩]] ∧
      ((Session.ofCalls factAndRule).kb.run 3).Covers (.ofList [⟨false, "Q", [.app "a" []]⟩]) := by
  have hsat : ((Session.ofCalls factAndRule).kb.run 3).halt = some .saturated := by
    decide +kernel
  have hstored : ((Session.ofCalls factAndRule).kb.run 3).clauses.map (fun e => e.clause) =
      [.ofList [⟨false, "P", [.app "a" []]⟩],
        .ofList [⟨true, "P", [.var "x_1"]⟩, ⟨false, "Q", [.var "x_1"]⟩],
        .ofList [⟨false, "Q", [.app "a" []]⟩]] := by decide +kernel
  obtain ⟨d, rest, hkb, hd, hrest⟩ := List.map_eq_cons_iff.mp hstored
  obtain ⟨e, rest, rfl, he, -⟩ := List.map_eq_cons_iff.mp hrest
  have h₀ : ((Session.ofCalls factAndRule).kb.run 3).clauses[0]? = some d := by rw [hkb]; rfl
  have h₁ : ((Session.ofCalls factAndRule).kb.run 3).clauses[1]? = some e := by rw [hkb]; rfl
  have hres : e.clause.resolvents d.clause = [.ofList [⟨false, "Q", [.app "a" []]⟩]] := by
    rw [hd, he]
    decide +kernel
  refine ⟨hsat, d, e, h₀, h₁, hres, ?_⟩
  refine (((met_clauses_closed factAndRule).2 3 hsat).1 1 0 e d (by decide) h₁ h₀ _ ?_).2
  rw [hres]
  exact List.mem_cons_self

end Clausal

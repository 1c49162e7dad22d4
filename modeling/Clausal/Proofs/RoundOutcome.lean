/-
# How a round ends

A round finds the empty clause exactly if two stored clauses that have not met are a single literal
each, of opposite signs, whose atoms have a common instance (`Refuting`).  The definition of a round
says it in other terms: it walks the unmet pairs, gathers resolvents until some pair has the empty
clause among them, and then looks for the empty clause in all that it has gathered.

The two are tied together in three steps.  What the round finds is what the first of all unmet pairs
gives that gives the empty clause, since nothing gathered before can be empty (`refutation?_eq`).  A
pair gives the empty clause if the two literals that are left out are all there is
(`empty_mem_resolvents_iff`); here the clauses must not share a variable, or their atoms could have a
common instance and no unifier.  And the unmet pairs stand in lexicographic order, so that the first
one is the least.
-/
import Clausal.Proofs.Inference
import Clausal.Proofs.Schedule
import Clausal.Proofs.StandardizedApart

namespace Clausal

/-! ## 1. The first pair that refutes -/

/-- What is looked for is found among what was gathered, if it is found at all and makes the gathering
stop. -/
theorem findSome?_gather {α β γ : Type} {f : α → β} {stop : β → Bool} {g : β → Option γ}
    (h : ∀ b, stop b = (g b).isSome) :
    ∀ as : List α, (gather f stop as).findSome? g = as.findSome? fun a => g (f a)
  | [] => rfl
  | a :: as => by
    simp only [gather]
    cases hg : g (f a) with
    | some c =>
      have hstop : stop (f a) = true := by rw [h, hg, Option.isSome_some]
      rw [if_pos hstop, List.findSome?_cons, List.findSome?_cons, hg]
    | none =>
      have hstop : stop (f a) = false := by rw [h, hg, Option.isSome_none]
      rw [if_neg (by simp [hstop]), List.findSome?_cons, List.findSome?_cons, hg,
        findSome?_gather h as]

/-- The first empty clause among the resolvents. -/
def Meeting.empty? (m : Meeting) : Option Candidate :=
  m.candidates.find? fun c => c.clause.isEmpty

namespace Meeting

variable {m : Meeting} {c : Candidate}

theorem refutes_eq_isSome (m : Meeting) : m.refutes = m.empty?.isSome := by
  rw [empty?, candidates, List.find?_map, Option.isSome_map, Bool.eq_iff_iff, List.find?_isSome,
    refutes, List.any_eq_true]
  rfl

theorem refutes_iff : m.refutes = true ↔ .empty ∈ m.resolvents := by
  rw [refutes, List.any_eq_true]
  constructor
  · rintro ⟨c, hc, hempty⟩
    exact Clause.isEmpty_iff.mp hempty ▸ hc
  · exact fun h => ⟨.empty, h, rfl⟩

/-- The empty clause comes from the two clauses that meet. -/
theorem empty?_eq_some (h : m.empty? = some c) :
    c = ⟨.empty, [.stored m.left, .stored m.right], ""⟩ := by
  obtain ⟨d, -, rfl⟩ := List.mem_map.mp (List.mem_of_find?_eq_some h)
  have hempty : d.isEmpty = true := by simpa using List.find?_some h
  rw [Clause.isEmpty_iff.mp hempty]

end Meeting

namespace KnowledgeBase

/-- **A round finds what the first unmet pair gives that gives the empty clause.** -/
theorem refutation?_eq (kb : KnowledgeBase) :
    kb.nextRound.refutation? = kb.unmetLine.findSome? fun p => (meet p).empty? := by
  rw [Round.refutation?, Round.resolvents, List.find?_flatMap, meetings_eq]
  exact findSome?_gather Meeting.refutes_eq_isSome kb.unmetLine

end KnowledgeBase

/-! ## 2. Clauses that refute each other -/

namespace Clause

variable {c d : Clause} {l m : Literal}

/-- A single literal each, of opposite signs, with atoms that have a common instance. -/
def Opposed (c d : Clause) : Prop :=
  ∃ l m : Literal, c.literals = [l] ∧ d.literals = [m] ∧ l.negated ≠ m.negated ∧
    ∃ θ η : String → Term, l.atom.subst θ = m.atom.subst η

theorem others_of_literals_eq (h : c.literals = [l]) : c.others l = [] := by
  rw [others, h]
  simp

theorem literals_eq_of_others (hl : l ∈ c) (h : c.others l = []) : c.literals = [l] := by
  have hc : c = ofList [l] := by
    refine ext fun k => ?_
    rw [mem_ofList, List.mem_singleton]
    constructor
    · intro hk
      by_contra hne
      exact List.not_mem_nil (h ▸ mem_others.mpr ⟨hk, hne⟩)
    · rintro rfl
      exact hl
  rw [hc]
  rfl

/-- **Two clauses have the empty clause as a resolvent exactly if they are opposed**, provided that they
share no variable. -/
theorem empty_mem_resolvents_iff (hdisj : ∀ x ∈ c.vars, x ∉ d.vars) :
    .empty ∈ c.resolvents d ↔ c.Opposed d := by
  constructor
  · intro h
    obtain ⟨l, m, σ, hl, hm, hs, hσ, hempty⟩ := mem_resolvents.mp h
    have hrest : c.others l ++ d.others m = [] := by
      refine List.eq_nil_iff_forall_not_mem.mpr fun k hk => ?_
      exact not_mem_empty (k.apply σ) (hempty ▸ mem_ofList.mpr (List.mem_map_of_mem hk))
    obtain ⟨hc, hd⟩ := List.append_eq_nil_iff.mp hrest
    exact ⟨l, m, literals_eq_of_others hl hc, literals_eq_of_others hm hd, hs, σ.image, σ.image,
      Term.unify?_sound hσ⟩
  · rintro ⟨l, m, hc, hd, hs, θ, η, h⟩
    have hl : l ∈ c := by rw [mem_def, hc]; exact List.mem_cons_self
    have hm : m ∈ d := by rw [mem_def, hd]; exact List.mem_cons_self
    obtain ⟨r, hr, ζ, hζ⟩ := exists_resolvent hdisj hl hm hs h
    rw [others_of_literals_eq hc, others_of_literals_eq hd] at hζ
    have hempty : r = .empty := by
      by_contra hne
      exact subst_ne_empty hne hζ
    exact hempty ▸ hr

end Clause

/-! ## 3. Pairs that refute -/

namespace KnowledgeBase

variable {kb : KnowledgeBase} {originals : List Clause} {c : Candidate}

/-- The clauses at two indices have not met, for the second index is above the watermark, and are
opposed. -/
def Refuting (kb : KnowledgeBase) (p : Nat × Nat) : Prop :=
  p.1 < p.2 ∧ processed kb.met < p.2 ∧ ∃ d e, kb.clauses[p.1]? = some d ∧
    kb.clauses[p.2]? = some e ∧ d.clause.Opposed e.clause

/-- The pair that comes first in lexicographic order of those that refute. -/
def FirstRefuting (kb : KnowledgeBase) (p : Nat × Nat) : Prop :=
  kb.Refuting p ∧ ∀ q, kb.Refuting q → p.1 < q.1 ∨ p.1 = q.1 ∧ p.2 ≤ q.2

/-- The pairs that refute are those among the unmet pairs whose clauses are opposed. -/
theorem refuting_iff {q : Nat × Nat} :
    kb.Refuting q ↔ ∃ p ∈ kb.unmetLine, (p.1.2, p.2.2) = q ∧ p.1.1.Opposed p.2.1 := by
  constructor
  · rintro ⟨hlt, hmet, d, e, hd, he, hopposed⟩
    refine ⟨((d.clause, q.1), (e.clause, q.2)), mem_unmetLine.mpr ?_, rfl, hopposed⟩
    refine ⟨mem_numbered.mpr ⟨d, hd, rfl⟩, mem_numbered.mpr ⟨e, he, rfl⟩, hlt, ?_⟩
    show kb.met ≤ q.2
    unfold processed at hmet
    omega
  · rintro ⟨p, hp, rfl, hopposed⟩
    obtain ⟨hd, he, hlt, hmet⟩ := mem_unmetLine.mp hp
    obtain ⟨d, hd, hdc⟩ := mem_numbered.mp hd
    obtain ⟨e, he, hec⟩ := mem_numbered.mp he
    refine ⟨hlt, ?_, d, e, hd, he, by rwa [hdc, hec]⟩
    unfold processed
    omega

/-- An unmet pair gives the empty clause exactly if the two clauses are opposed, for stored clauses
share no variable. -/
theorem Filed.refutes_iff (h : Filed kb originals) {p : (Clause × Nat) × (Clause × Nat)}
    (hp : p ∈ kb.unmetLine) : (meet p).refutes = true ↔ p.1.1.Opposed p.2.1 := by
  obtain ⟨hd, he, hlt, -⟩ := mem_unmetLine.mp hp
  obtain ⟨d, hd, hdc⟩ := mem_numbered.mp hd
  obtain ⟨e, he, hec⟩ := mem_numbered.mp he
  rw [Meeting.refutes_iff, meet, ← hdc, ← hec]
  exact Clause.empty_mem_resolvents_iff (h.disjoint (Nat.ne_of_lt hlt) hd he)

/-- A round that does not find the empty clause has no pair that refutes. -/
theorem Filed.not_refuting (h : Filed kb originals) (hr : kb.nextRound.refutation? = none)
    (q : Nat × Nat) : ¬ kb.Refuting q := by
  rw [refutation?_eq, List.findSome?_eq_none_iff] at hr
  intro hq
  obtain ⟨p, hp, -, hopposed⟩ := refuting_iff.mp hq
  have hrefutes := (h.refutes_iff hp).mpr hopposed
  rw [Meeting.refutes_eq_isSome, hr p hp] at hrefutes
  exact absurd hrefutes (by decide)

/-- **The empty clause that a round finds comes from the first pair that refutes.** -/
theorem Filed.firstRefuting (h : Filed kb originals) (hr : kb.nextRound.refutation? = some c) :
    ∃ p, kb.FirstRefuting p ∧ c = ⟨.empty, [.stored p.1, .stored p.2], ""⟩ := by
  rw [refutation?_eq, List.findSome?_eq_some_iff] at hr
  obtain ⟨before, p, after, hline, hc, hbefore⟩ := hr
  have hp : p ∈ kb.unmetLine := by
    rw [hline]
    exact List.mem_append_right _ List.mem_cons_self
  have hrefutes : (meet p).refutes = true := by
    rw [Meeting.refutes_eq_isSome, hc, Option.isSome_some]
  refine ⟨(p.1.2, p.2.2), ⟨?_, fun q hq => ?_⟩, Meeting.empty?_eq_some hc⟩
  · exact refuting_iff.mpr ⟨p, hp, rfl, (h.refutes_iff hp).mp hrefutes⟩
  · obtain ⟨p', hp', rfl, hopposed⟩ := refuting_iff.mp hq
    have hrefutes' := (h.refutes_iff hp').mpr hopposed
    -- The other pair does not stand before the first one, so it is that one or stands after it.
    rw [hline] at hp'
    rcases List.mem_append.mp hp' with hp' | hp'
    · rw [Meeting.refutes_eq_isSome, hbefore p' hp'] at hrefutes'
      exact absurd hrefutes' (by decide)
    · rcases List.mem_cons.mp hp' with rfl | hp'
      · exact Or.inr ⟨rfl, Nat.le_refl _⟩
      · have hsorted := pairwise_unmetIndices kb
        rw [unmetIndices, hline, List.map_append, List.map_cons] at hsorted
        have hafter := List.rel_of_pairwise_cons (List.pairwise_append.mp hsorted).2.1
          (List.mem_map_of_mem hp')
        exact hafter.imp id fun hlt => ⟨hlt.1, Nat.le_of_lt hlt.2⟩

/-! ## 4. The two outcomes -/

/-- What a round has done that found the empty clause, from the clauses at two indices. -/
structure Finds (kb kb' : KnowledgeBase) (count : Nat) (p : Nat × Nat) : Prop where
  /-- The empty clause was derived from these clauses, in this round. -/
  witness : ∃ r e, kb'.emptyClause = some r ∧ kb'.entry? r = some e ∧ e.clause = .empty ∧
    e.source = [.stored p.1, .stored p.2] ∧ e.round = kb'.rounds
  clauses : kb'.clauses = kb.clauses
  signatures : kb'.signatures = kb.signatures
  watermark : processed kb'.met = processed kb.met
  count_pos : 1 ≤ count

/-- What a round has done that did not. -/
structure Completes (kb kb' : KnowledgeBase) (count : Nat) : Prop where
  watermark : processed kb'.met = kb.clauses.length - 1
  /-- The number is that of the clauses that were stored, behind the others. -/
  stored : ∃ new, kb'.clauses = kb.clauses ++ new ∧ count = new.length

/-- A round that finds the empty clause, and from which pair. -/
theorem Filed.finds (h : Filed kb originals) (hr : kb.nextRound.refutation? = some c) :
    ∃ p, kb.FirstRefuting p ∧ kb.Finds kb.performRound.1 kb.performRound.2 p := by
  obtain ⟨p, hp, rfl⟩ := h.firstRefuting hr
  refine ⟨p, hp, ?_⟩
  have hcount : 1 ≤ kb.performRound.2 := by
    rw [Nat.one_le_iff_ne_zero]
    intro hzero
    rw [refutation?_of_count hzero] at hr
    exact absurd hr (by simp)
  rw [performRound_of_some hr] at hcount ⊢
  exact ⟨⟨_, _, rfl, List.getElem?_concat_length, rfl, rfl, rfl⟩, rfl, rfl, rfl, hcount⟩

/-- A round that does not find it completes. -/
theorem completes_of_none (hr : kb.nextRound.refutation? = none) :
    kb.Completes kb.performRound.1 kb.performRound.2 := by
  constructor
  · rw [met_performRound_of_none hr]
    rfl
  · obtain ⟨new, hnew⟩ := clauses_prefix_performRound kb
    refine ⟨new, hnew.symm, ?_⟩
    have hlength := congrArg List.length hnew
    rw [List.length_append] at hlength
    rw [performRound_of_none hr] at hlength ⊢
    simp only [record] at hlength ⊢
    omega

theorem Completes.count_eq_zero_iff {kb' : KnowledgeBase} {count : Nat}
    (h : kb.Completes kb' count) : count = 0 ↔ kb'.clauses = kb.clauses := by
  obtain ⟨new, hnew, rfl⟩ := h.stored
  rw [hnew, List.length_eq_zero_iff, List.append_right_eq_self]

end KnowledgeBase

open KnowledgeBase

/-- **Exactly how a round ends.**  After any sequence of calls that has not found the empty clause, a
round finds it if and only if some pair of clauses refutes: an earlier clause and one above the
watermark, of a single literal each, of opposite signs and with atoms that have a common instance.
Then the empty clause has the first such pair as its source and the number of the round, the stored
clauses, their keys and the watermark stay as they were, and the number returned is at least one.
Otherwise the watermark is raised to the last of the clauses that there were, the old clauses come
before the new ones, and the number returned is that of the new ones.  So it is zero exactly if the
empty clause was not found and nothing was stored. -/
theorem outcome_of_a_round (calls : List Call)
    (hactive : (Session.ofCalls calls).kb.contradictory = false) :
    let kb := (Session.ofCalls calls).kb
    ∃ kb' count, kb.runRound = .ok (kb', count) ∧ kb'.rounds = kb.rounds + 1 ∧
      (kb'.contradictory = true ↔ ∃ p, kb.Refuting p) ∧
      (kb'.contradictory = true → ∃ p, kb.FirstRefuting p ∧ kb.Finds kb' count p) ∧
      (kb'.contradictory = false → kb.Completes kb' count) ∧
      (count = 0 ↔ kb'.contradictory = false ∧ kb'.clauses = kb.clauses) := by
  intro kb
  have hactive : kb.contradictory = false := hactive
  obtain ⟨originals, hfiled⟩ : ∃ originals, Filed kb originals :=
    (Session.reachable_ofCalls fun _ _ _ => trivial).filed
  refine ⟨kb.performRound.1, kb.performRound.2, runRound_of_active hactive, rounds_performRound kb,
    ?_⟩
  cases hr : kb.nextRound.refutation? with
  | some c =>
    have hfound := contradictory_performRound_of_some hr
    obtain ⟨p, hfirst, hfinds⟩ := hfiled.finds hr
    refine ⟨iff_of_true hfound ⟨p, hfirst.1⟩, fun _ => ⟨p, hfirst, hfinds⟩, ?_, ?_⟩
    · exact fun hopen => absurd (hfound.symm.trans hopen) (by decide)
    · refine iff_of_false (Nat.one_le_iff_ne_zero.mp hfinds.count_pos) ?_
      exact fun h => absurd (hfound.symm.trans h.1) (by decide)
  | none =>
    have hopen := (contradictory_performRound_of_none hr).trans hactive
    have hcompletes := completes_of_none hr
    refine ⟨?_, ?_, fun _ => hcompletes, ?_⟩
    · rw [hopen]
      refine iff_of_false (by decide) ?_
      rintro ⟨p, hp⟩
      exact hfiled.not_refuting hr p hp
    · exact fun hfound => absurd (hfound.symm.trans hopen) (by decide)
    · rw [hcompletes.count_eq_zero_iff]
      exact (and_iff_right hopen).symm

/-- A fact and a rule that have met, and then two clauses that contradict what they gave. -/
def contradictedTwice : List Call := [
  .ingest [.literal ⟨false, "P", [.app "a" []]⟩] "",
  .ingest [.literal ⟨true, "P", [.var "x"]⟩, .literal ⟨false, "Q", [.var "x"]⟩] "",
  .round,
  .ingest [.literal ⟨true, "Q", [.var "y"]⟩] "",
  .ingest [.literal ⟨true, "Q", [.app "a" []]⟩] ""]

/-- Of the two pairs that refute in `contradictedTwice` the round finds the first. -/
theorem contradictedTwice_ends :
    let kb := (Session.ofCalls contradictedTwice).kb
    kb.contradictory = false ∧
    ∃ kb' count, kb.runRound = .ok (kb', count) ∧ kb'.contradictory = true ∧
      kb.FirstRefuting (2, 3) ∧ kb.Finds kb' count (2, 3) := by
  intro kb
  have hactive : kb.contradictory = false := by decide +kernel
  obtain ⟨kb', count, hround, -, -, hfinds, -⟩ := outcome_of_a_round contradictedTwice hactive
  have hperform : kb.performRound = (kb', count) := by
    rw [runRound_of_active hactive] at hround
    exact Except.ok.inj hround
  have hfound : kb.performRound.1.contradictory = true := by decide +kernel
  have hsource : (kb.performRound.1.emptyClause.bind fun r => entry? kb.performRound.1 r).map
      (fun e => e.source) = some [.stored 2, .stored 3] := by decide +kernel
  rw [hperform] at hfound hsource
  obtain ⟨p, hfirst, hp⟩ := hfinds hfound
  obtain ⟨r, e, hr, he, -, hsource', -⟩ := hp.witness
  rw [hr, Option.bind_some, he, Option.map_some, hsource'] at hsource
  obtain ⟨i, j⟩ := p
  obtain ⟨rfl, rfl⟩ : i = 2 ∧ j = 3 := by simpa using hsource
  exact ⟨hactive, kb', count, hround, hfound, hfirst, hp⟩

end Clausal

/-
# What a round does

A round walks the unmet pairs of stored clauses in a line and stops at the first one that refutes,
so the pairs it resolves are the first ones of that line (`map_indices_meetings_isPrefix`), and all of
them if none refutes (`map_indices_meetings_of_none`).  The line holds every pair `i < j` of stored
clauses whose later member is new (`mem_unmetIndices`), in lexicographic order and so each of them once
(`pairwise_unmetIndices`).

There are two outcomes.  A round that refutes keeps the store (`performRound_of_some`); any other
round marks all clauses as met and stores what it derived (`performRound_of_none`), behind the clauses
that were there (`performRound_adds`).  What it derives are factors and resolvents of stored clauses and
nothing else (`mem_candidates`).

A run is made of rounds, and the first of them decides how it goes on; `final_runRounds_induct` is the
induction that belongs to this.
-/
import Clausal.KnowledgeBase.Saturation
import Mathlib.Data.List.Nodup

namespace Clausal

/-! ## 1. Gathering until a stop -/

section Gather

variable {α β : Type} {f : α → β} {stop : β → Bool}

/-- What is gathered are the first results, in order. -/
theorem gather_isPrefix : ∀ as : List α, gather f stop as <+: as.map f
  | [] => List.prefix_rfl
  | a :: as => by
    simp only [gather, List.map_cons]
    split
    · exact List.prefix_cons_inj (f a) |>.mpr List.nil_prefix
    · exact List.prefix_cons_inj (f a) |>.mpr (gather_isPrefix as)

/-- Where nothing gathered is a stop, everything was gathered. -/
theorem gather_eq_map : ∀ {as : List α}, (∀ b ∈ gather f stop as, stop b = false) →
    gather f stop as = as.map f
  | [], _ => rfl
  | a :: as, h => by
    simp only [gather, List.map_cons] at h ⊢
    split
    · rename_i hstop
      rw [if_pos hstop] at h
      rw [h (f a) List.mem_cons_self] at hstop
      exact absurd hstop Bool.false_ne_true
    · rename_i hstop
      rw [if_neg hstop] at h
      rw [gather_eq_map fun b hb => h b (List.mem_cons_of_mem _ hb)]

end Gather

/-- The indices of the two clauses that meet. -/
def Meeting.indices (m : Meeting) : Nat × Nat :=
  (m.left, m.right)

namespace KnowledgeBase

variable {kb : KnowledgeBase}

/-! ## 2. The line of unmet pairs -/

theorem mem_numbered {a : Clause × Nat} :
    a ∈ kb.numbered ↔ ∃ e, kb.clauses[a.2]? = some e ∧ e.clause = a.1 := by
  rw [numbered, List.mem_zipIdx_iff_getElem?, List.getElem?_map, Option.map_eq_some_iff]

/-- A numbered list without its first `k` members holds those numbered from `k` on. -/
theorem mem_drop_numbered {k : Nat} {a : Clause × Nat} :
    a ∈ kb.numbered.drop k ↔ k ≤ a.2 ∧ a ∈ kb.numbered := by
  constructor
  · intro h
    refine ⟨?_, List.mem_of_mem_drop h⟩
    obtain ⟨j, hj⟩ := List.mem_iff_getElem?.mp h
    rw [List.getElem?_drop, numbered, List.getElem?_zipIdx, Option.map_eq_some_iff] at hj
    obtain ⟨c, -, rfl⟩ := hj
    simp
  · rintro ⟨hk, h⟩
    have ha : kb.numbered[a.2]? = some a := by
      rw [numbered, List.mem_zipIdx_iff_getElem?] at h
      rw [numbered, List.getElem?_zipIdx, h]
      simp
    refine List.mem_iff_getElem?.mpr ⟨a.2 - k, ?_⟩
    rw [List.getElem?_drop, Nat.add_sub_cancel' hk, ha]

theorem map_snd_numbered (kb : KnowledgeBase) :
    kb.numbered.map Prod.snd = List.range kb.clauses.length := by
  rw [numbered, List.zipIdx_map_snd, List.length_map, List.range_eq_range']

theorem pairwise_map_snd_numbered (kb : KnowledgeBase) :
    (kb.numbered.map Prod.snd).Pairwise (· < ·) := by
  rw [map_snd_numbered]
  exact List.pairwise_lt_range

/-- The unmet pairs of stored clauses, in the order in which a round resolves them. -/
def unmetLine (kb : KnowledgeBase) : List ((Clause × Nat) × (Clause × Nat)) :=
  kb.numbered.flatMap kb.unmetPairs

theorem mem_unmetLine {p : (Clause × Nat) × (Clause × Nat)} :
    p ∈ kb.unmetLine ↔
      p.1 ∈ kb.numbered ∧ p.2 ∈ kb.numbered ∧ p.1.2 < p.2.2 ∧ kb.met ≤ p.2.2 := by
  obtain ⟨a, b⟩ := p
  simp only [unmetLine, List.mem_flatMap, unmetPairs, unmet, List.mem_map, mem_drop_numbered,
    Prod.mk.injEq]
  constructor
  · rintro ⟨_, ha, _, ⟨hle, hb⟩, rfl, rfl⟩
    exact ⟨ha, hb, by omega, by omega⟩
  · rintro ⟨ha, hb, hlt, hmet⟩
    exact ⟨a, ha, b, ⟨by omega, hb⟩, rfl, rfl⟩

/-- The indices of the unmet pairs, in the same order. -/
def unmetIndices (kb : KnowledgeBase) : List (Nat × Nat) :=
  kb.unmetLine.map fun p => (p.1.2, p.2.2)

theorem mem_unmetIndices {p : Nat × Nat} :
    p ∈ kb.unmetIndices ↔ p.1 < p.2 ∧ kb.met ≤ p.2 ∧ p.2 < kb.clauses.length := by
  have hnum : ∀ i, i < kb.clauses.length ↔ ∃ a ∈ kb.numbered, a.2 = i := by
    intro i
    rw [← List.mem_range, ← map_snd_numbered, List.mem_map]
  simp only [unmetIndices, List.mem_map, mem_unmetLine]
  constructor
  · rintro ⟨q, ⟨-, h₂, hlt, hmet⟩, rfl⟩
    exact ⟨hlt, hmet, (hnum _).mpr ⟨q.2, h₂, rfl⟩⟩
  · rintro ⟨hlt, hmet, hlen⟩
    obtain ⟨a, ha, hai⟩ := (hnum p.1).mp (Nat.lt_trans hlt hlen)
    obtain ⟨b, hb, hbj⟩ := (hnum p.2).mp hlen
    exact ⟨(a, b), ⟨ha, hb, by rw [hai, hbj]; exact hlt, by rw [hbj]; exact hmet⟩,
      Prod.ext hai hbj⟩

/-- The unmet pairs stand in lexicographic order. -/
theorem pairwise_unmetIndices (kb : KnowledgeBase) :
    kb.unmetIndices.Pairwise fun p q => p.1 < q.1 ∨ p.1 = q.1 ∧ p.2 < q.2 := by
  have hnum := pairwise_map_snd_numbered kb
  have hline : kb.unmetIndices =
      kb.numbered.flatMap fun a => (kb.unmet a.2).map fun b => (a.2, b.2) := by
    simp only [unmetIndices, unmetLine, unmetPairs, List.map_flatMap, List.map_map]
    rfl
  rw [hline, List.pairwise_flatMap]
  constructor
  · -- One row: its later members are numbered in order.
    intro a _
    have hrow : ((kb.unmet a.2).map Prod.snd).Pairwise (· < ·) :=
      hnum.sublist ((List.drop_sublist _ _).map Prod.snd)
    rw [List.pairwise_map] at hrow ⊢
    exact hrow.imp fun hlt => Or.inr ⟨rfl, hlt⟩
  · -- Two rows: their earlier members are numbered in order.
    refine (List.pairwise_map.mp hnum).imp fun hlt p hp q hq => Or.inl ?_
    obtain ⟨_, -, rfl⟩ := List.mem_map.mp hp
    obtain ⟨_, -, rfl⟩ := List.mem_map.mp hq
    exact hlt

theorem nodup_unmetIndices (kb : KnowledgeBase) : kb.unmetIndices.Nodup := by
  refine (pairwise_unmetIndices kb).imp fun hlt he => ?_
  subst he
  omega

/-! ## 3. What a round derives -/

theorem meetings_eq (kb : KnowledgeBase) :
    kb.nextRound.meetings = gather meet Meeting.refutes kb.unmetLine :=
  gatherRows_eq_gather _ _ _ _

/-- The clauses that a round resolves are stored, and the results are theirs. -/
theorem mem_meetings {m : Meeting} (h : m ∈ kb.nextRound.meetings) :
    m.left < m.right ∧ ∃ e e', kb.clauses[m.left]? = some e ∧ kb.clauses[m.right]? = some e' ∧
      m.resolvents = e.clause.resolvents e'.clause := by
  rw [meetings_eq] at h
  obtain ⟨p, hp, rfl⟩ := List.mem_map.mp ((gather_isPrefix _).subset h)
  obtain ⟨h₁, h₂, hlt, -⟩ := mem_unmetLine.mp hp
  obtain ⟨e, he, hc⟩ := mem_numbered.mp h₁
  obtain ⟨e', he', hc'⟩ := mem_numbered.mp h₂
  exact ⟨hlt, e, e', he, he', by rw [meet, hc, hc']⟩

/-- The clauses that a round factors are stored and new, and the results are theirs. -/
theorem mem_factorings {f : Factoring} :
    f ∈ kb.nextRound.factorings ↔
      kb.met ≤ f.index ∧ ∃ e, kb.clauses[f.index]? = some e ∧ f.factors = e.clause.factors := by
  simp only [nextRound, List.mem_map, mem_drop_numbered, mem_numbered]
  constructor
  · rintro ⟨a, ⟨hmet, e, he, hc⟩, rfl⟩
    exact ⟨hmet, e, he, by rw [hc]⟩
  · rintro ⟨hmet, e, he, hf⟩
    exact ⟨(e.clause, f.index), ⟨hmet, e, he, rfl⟩, by rw [← hf]⟩

/-- The factors that a round derives are those of a clause that has not met the others. -/
theorem mem_factors_nextRound {c : Candidate} (h : c ∈ kb.nextRound.factors) :
    ∃ i e, kb.met ≤ i ∧ kb.clauses[i]? = some e ∧ c.clause ∈ e.clause.factors ∧
      c.source = [.stored i] := by
  obtain ⟨f, hf, hc⟩ := List.mem_flatMap.mp h
  obtain ⟨d, hd, rfl⟩ := List.mem_map.mp hc
  obtain ⟨hmet, e, he, hfac⟩ := mem_factorings.mp hf
  exact ⟨f.index, e, hmet, he, hfac ▸ hd, rfl⟩

/-- **What a round derives** are factors of one stored clause, and resolvents of two. -/
theorem mem_candidates {c : Candidate} (h : c ∈ kb.nextRound.candidates) :
    (∃ i e, kb.clauses[i]? = some e ∧ c.clause ∈ e.clause.factors ∧ c.source = [.stored i]) ∨
    ∃ i j e e', i < j ∧ kb.clauses[i]? = some e ∧ kb.clauses[j]? = some e' ∧
      c.clause ∈ e.clause.resolvents e'.clause ∧ c.source = [.stored i, .stored j] := by
  rw [Round.candidates, List.mem_append] at h
  rcases h with h | h
  · obtain ⟨i, e, -, he, hfac, hsource⟩ := mem_factors_nextRound h
    exact Or.inl ⟨i, e, he, hfac, hsource⟩
  · obtain ⟨m, hm, hc⟩ := List.mem_flatMap.mp h
    obtain ⟨d, hd, rfl⟩ := List.mem_map.mp hc
    obtain ⟨hlt, e, e', he, he', hres⟩ := mem_meetings hm
    exact Or.inr ⟨m.left, m.right, e, e', hlt, he, he', hres ▸ hd, rfl⟩

/-- The empty clause that a round finds is empty, and a resolvent of the round. -/
theorem refutation?_eq_some {c : Candidate} (h : kb.nextRound.refutation? = some c) :
    c.clause = .empty ∧ c ∈ kb.nextRound.candidates := by
  refine ⟨?_, List.mem_append_right _ (List.mem_of_find?_eq_some h)⟩
  have := List.find?_some h
  exact Clause.isEmpty_iff.mp (by simpa using this)

theorem refutes_eq_false (h : kb.nextRound.refutation? = none) {m : Meeting}
    (hm : m ∈ kb.nextRound.meetings) : m.refutes = false := by
  rw [Meeting.refutes, List.any_eq_false]
  intro c hc
  have hmem : (⟨c, [.stored m.left, .stored m.right], ""⟩ : Candidate) ∈
      kb.nextRound.resolvents :=
    List.mem_flatMap.mpr ⟨m, hm, List.mem_map_of_mem hc⟩
  simpa using List.find?_eq_none.mp h _ hmem

/-- A round that does not refute resolves all unmet pairs. -/
theorem meetings_of_none (h : kb.nextRound.refutation? = none) :
    kb.nextRound.meetings = kb.unmetLine.map meet := by
  rw [meetings_eq]
  refine gather_eq_map ?_
  intro m hm
  rw [← meetings_eq] at hm
  exact refutes_eq_false h hm

/-- **A round resolves the first ones of the unmet pairs.** -/
theorem map_indices_meetings_isPrefix (kb : KnowledgeBase) :
    kb.nextRound.meetings.map Meeting.indices <+: kb.unmetIndices := by
  have h := (@gather_isPrefix _ _ meet Meeting.refutes kb.unmetLine).map Meeting.indices
  rw [meetings_eq, unmetIndices]
  rw [List.map_map] at h
  exact h

/-- A round that does not refute resolves every unmet pair. -/
theorem map_indices_meetings_of_none (h : kb.nextRound.refutation? = none) :
    kb.nextRound.meetings.map Meeting.indices = kb.unmetIndices := by
  rw [meetings_of_none h, List.map_map, unmetIndices]
  rfl

/-- A round factors the new clauses, each once. -/
theorem map_index_factorings (kb : KnowledgeBase) :
    kb.nextRound.factorings.map Factoring.index = (List.range kb.clauses.length).drop kb.met := by
  rw [← map_snd_numbered, ← List.map_drop]
  simp only [nextRound, List.map_map]
  rfl

/-! ## 4. Storing -/

/-- Clauses outside of the store are kept in order. -/
theorem enlistAll_eq : ∀ (es : List Entry) (kb : KnowledgeBase),
    es.foldl (fun kb e => (kb.enlist e).1) kb = { kb with outside := kb.outside ++ es }
  | [], kb => by rw [List.foldl_nil, List.append_nil]
  | e :: es, kb => by
    rw [List.foldl_cons, enlistAll_eq es]
    simp only [enlist, List.append_assoc, List.singleton_append]

variable {c : Candidate} {cs : List Candidate}

/-- What holds of a knowledge base and is kept by storing one of the candidates whose key is not
known holds after all of them were offered. -/
theorem storeAll_induction {P : KnowledgeBase → Prop} (h : P kb)
    (step : ∀ kb, ∀ c ∈ cs, P kb → kb.find? c.clause.key = none → P (kb.append c)) :
    P (kb.storeAll cs) := by
  induction cs generalizing kb with
  | nil => exact h
  | cons c cs ih =>
    rw [storeAll, List.foldl_cons]
    refine ih ?_ fun kb' d hd => step kb' d (List.mem_cons_of_mem _ hd)
    unfold store
    split
    · exact h
    · rename_i hnone
      exact step kb c List.mem_cons_self h hnone

/-- Storing changes the stored clauses and their keys, and nothing else. -/
theorem storeAll_eq (kb : KnowledgeBase) (cs : List Candidate) :
    kb.storeAll cs = { kb with
      clauses := (kb.storeAll cs).clauses
      signatures := (kb.storeAll cs).signatures } := by
  refine storeAll_induction (P := fun kb' => kb' = { kb with
    clauses := kb'.clauses, signatures := kb'.signatures }) rfl fun kb' c _ h _ => ?_
  rw [append, h]

@[simp] theorem storeAll_met (kb : KnowledgeBase) (cs : List Candidate) :
    (kb.storeAll cs).met = kb.met := by
  rw [storeAll_eq]

@[simp] theorem storeAll_emptyClause (kb : KnowledgeBase) (cs : List Candidate) :
    (kb.storeAll cs).emptyClause = kb.emptyClause := by
  rw [storeAll_eq]

@[simp] theorem storeAll_halt (kb : KnowledgeBase) (cs : List Candidate) :
    (kb.storeAll cs).halt = kb.halt := by
  rw [storeAll_eq]

/-- An entry is what a candidate is stored as in a round. -/
structure Keeps (round : Nat) (c : Candidate) (e : Entry) : Prop where
  clause : ∃ suffix, e.clause = c.clause.apart suffix
  source : e.source = c.source
  round : e.round = round

/-- **What storing adds**: some of the candidates, each at most once, behind the clauses that were
there. -/
theorem storeAll_adds : ∀ (cs : List Candidate) (kb : KnowledgeBase),
    ∃ new, (kb.storeAll cs).clauses = kb.clauses ++ new ∧ new.length ≤ cs.length ∧
      ∀ e ∈ new, ∃ c ∈ cs, Keeps kb.rounds c e
  | [], kb => ⟨[], (List.append_nil _).symm, Nat.le_refl _, by simp⟩
  | c :: cs, kb => by
    have hcons : kb.storeAll (c :: cs) = (kb.store c).1.storeAll cs := rfl
    rw [hcons, store]
    cases kb.find? c.clause.key with
    | some i =>
      obtain ⟨new, hnew, hlength, hkept⟩ := storeAll_adds cs kb
      refine ⟨new, hnew, Nat.le_succ_of_le hlength, fun e he => ?_⟩
      obtain ⟨d, hd, hde⟩ := hkept e he
      exact ⟨d, List.mem_cons_of_mem _ hd, hde⟩
    | none =>
      obtain ⟨new, hnew, hlength, hkept⟩ := storeAll_adds cs (kb.append c)
      simp only [append, List.append_assoc] at hnew
      refine ⟨_, hnew, Nat.succ_le_succ hlength, fun e he => ?_⟩
      rcases List.mem_cons.mp he with rfl | he
      · exact ⟨c, List.mem_cons_self, ⟨_, rfl⟩, rfl, rfl⟩
      · obtain ⟨d, hd, hde⟩ := hkept e he
        exact ⟨d, List.mem_cons_of_mem _ hd, hde⟩

/-- The stored clauses stay where they are, and new ones come after them. -/
theorem clauses_prefix_storeAll (kb : KnowledgeBase) (cs : List Candidate) :
    kb.clauses <+: (kb.storeAll cs).clauses := by
  obtain ⟨new, hnew, -⟩ := storeAll_adds cs kb
  exact ⟨new, hnew.symm⟩

/-- **What taking in a clause does** where it is not refused: the clause is found by its key, or it is
stored at the end. -/
theorem ingest_eq_ok {items : List Item} {label : String} {kb' : KnowledgeBase} {i : Nat}
    (h : kb.ingest items label = .ok (kb', i)) :
    ∃ literals, Item.readAll items = .ok literals ∧
      ((kb.find? (Clause.ofList literals).key = some i ∧ kb' = kb) ∨
        (i = kb.clauses.length ∧ kb.find? (Clause.ofList literals).key = none ∧
          kb'.clauses = (kb.append ⟨.ofList literals, [], label⟩).clauses ∧
          kb'.signatures = (kb.append ⟨.ofList literals, [], label⟩).signatures)) := by
  unfold ingest at h
  split at h
  · simp at h
  · split at h
    · simp at h
    · rename_i literals hread
      refine ⟨literals, hread, ?_⟩
      simp only at h
      split at h
      · rename_i j hfind
        obtain ⟨rfl, rfl⟩ := Prod.mk.inj (Except.ok.inj h)
        exact Or.inl ⟨hfind, rfl⟩
      · rename_i hfind
        obtain ⟨rfl, rfl⟩ := Prod.mk.inj (Except.ok.inj h)
        refine Or.inr ⟨rfl, hfind, ?_⟩
        -- To note that the empty clause has been found does not touch the store.
        split <;> exact ⟨rfl, rfl⟩

/-- A stored clause stays where it is when the store grows. -/
theorem getElem?_of_isPrefix {kb' : KnowledgeBase} (hle : kb.clauses <+: kb'.clauses) {i : Nat}
    (hi : i < kb.clauses.length) : kb'.clauses[i]? = kb.clauses[i]? := by
  obtain ⟨rest, hrest⟩ := hle
  rw [← hrest, List.getElem?_append_left hi]

/-! ## 5. The two outcomes of a round -/

/-- The knowledge base that a round has when it begins to store what it derived. -/
def allMet (kb : KnowledgeBase) : KnowledgeBase :=
  { kb with rounds := kb.rounds + 1, met := kb.clauses.length }

theorem runRound_of_active (h : kb.contradictory = false) : kb.runRound = .ok kb.performRound := by
  rw [runRound, h]
  rfl

/-- **A round that finds the empty clause** keeps it outside of the store, and stores nothing. -/
theorem performRound_of_some (h : kb.nextRound.refutation? = some c) :
    kb.performRound = ({ kb with
      rounds := kb.rounds + 1
      outside := kb.outside ++ [{ c with round := kb.rounds + 1 }]
      emptyClause := some (.outside kb.outside.length)
      halt := some .contradiction
      history := kb.history ++
        [{ round := kb.rounds + 1, factors := kb.nextRound.factors.length,
           resolvents := kb.nextRound.resolvents.length, admitted := 0,
           clauses := kb.clauses.length, met := kb.met }] }, kb.nextRound.candidates.length) := by
  simp only [performRound, h]
  rfl

/-- **A round that does not** marks all clauses as met and stores what it derived. -/
theorem performRound_of_none (h : kb.nextRound.refutation? = none) :
    kb.performRound =
      ((kb.allMet.storeAll kb.nextRound.candidates).record kb.nextRound
        ((kb.allMet.storeAll kb.nextRound.candidates).clauses.length - kb.clauses.length),
       (kb.allMet.storeAll kb.nextRound.candidates).clauses.length - kb.clauses.length) := by
  simp only [performRound, h]
  rfl

/-- Only a round that does not refute comes to nothing. -/
theorem refutation?_of_count (h : kb.performRound.2 = 0) : kb.nextRound.refutation? = none := by
  cases hr : kb.nextRound.refutation? with
  | none => rfl
  | some c =>
    rw [performRound_of_some hr] at h
    have hmem := (refutation?_eq_some hr).2
    rw [List.length_eq_zero_iff.mp h] at hmem
    exact absurd hmem List.not_mem_nil

theorem contradictory_performRound_of_some (h : kb.nextRound.refutation? = some c) :
    kb.performRound.1.contradictory = true := by
  rw [performRound_of_some h]
  rfl

/-- A round after which the empty clause has not been found did not refute. -/
theorem refutation?_of_active (h : kb.performRound.1.contradictory = false) :
    kb.nextRound.refutation? = none := by
  cases hr : kb.nextRound.refutation? with
  | none => rfl
  | some c =>
    rw [contradictory_performRound_of_some hr] at h
    exact absurd h (by decide)

theorem contradictory_performRound_of_none (h : kb.nextRound.refutation? = none) :
    kb.performRound.1.contradictory = kb.contradictory := by
  rw [performRound_of_none h]
  simp only [contradictory, record, storeAll_emptyClause]
  rfl

theorem met_performRound_of_none (h : kb.nextRound.refutation? = none) :
    kb.performRound.1.met = kb.clauses.length := by
  rw [performRound_of_none h]
  simp only [record, storeAll_met]
  rfl

/-- **The record of a round that does not refute.** -/
theorem history_performRound_of_none (h : kb.nextRound.refutation? = none) :
    kb.performRound.1.history = kb.history ++
      [{ round := kb.rounds + 1, factors := kb.nextRound.factors.length,
         resolvents := kb.nextRound.resolvents.length,
         admitted := kb.performRound.1.clauses.length - kb.clauses.length,
         clauses := kb.performRound.1.clauses.length, met := kb.clauses.length }] := by
  rw [performRound_of_none h, storeAll_eq]
  rfl

theorem rounds_performRound (kb : KnowledgeBase) : kb.performRound.1.rounds = kb.rounds + 1 := by
  cases hr : kb.nextRound.refutation? with
  | some c => rw [performRound_of_some hr]
  | none =>
    rw [performRound_of_none hr, storeAll_eq]
    rfl

/-- Whatever a round finds, the stored clauses stay where they are. -/
theorem clauses_prefix_performRound (kb : KnowledgeBase) :
    kb.clauses <+: kb.performRound.1.clauses := by
  cases hr : kb.nextRound.refutation? with
  | some c =>
    have hsame : kb.performRound.1.clauses = kb.clauses := by rw [performRound_of_some hr]
    exact hsame ▸ List.prefix_rfl
  | none =>
    rw [performRound_of_none hr]
    exact clauses_prefix_storeAll kb.allMet _

/-- **What a round adds that does not refute**: entries for candidates of the round, with its number. -/
theorem performRound_adds (h : kb.nextRound.refutation? = none) :
    ∃ new, kb.performRound.1.clauses = kb.clauses ++ new ∧
      new.length ≤ kb.nextRound.candidates.length ∧
      ∀ e ∈ new, ∃ c ∈ kb.nextRound.candidates, Keeps (kb.rounds + 1) c e := by
  rw [performRound_of_none h]
  exact storeAll_adds kb.nextRound.candidates kb.allMet

/-- What holds of the stored clauses and their keys, and is kept by storing a clause whose key is not
known, holds after a round. -/
theorem performRound_store_induction {P : List Entry → List (Clause × Nat) → Prop}
    (append : ∀ (kb : KnowledgeBase) (c : Candidate), kb.find? c.clause.key = none →
      P kb.clauses kb.signatures → P (kb.append c).clauses (kb.append c).signatures)
    (h : P kb.clauses kb.signatures) :
    P kb.performRound.1.clauses kb.performRound.1.signatures := by
  cases hr : kb.nextRound.refutation? with
  | some c =>
    rw [performRound_of_some hr]
    exact h
  | none =>
    rw [performRound_of_none hr]
    exact storeAll_induction (P := fun kb => P kb.clauses kb.signatures) h
      fun kb c _ hkb new => append kb c new hkb

/-! ## 6. The outcomes of the first round of a run -/

/-- Where the empty clause has been found, a run makes no round. -/
theorem runRounds_of_contradictory (h : kb.contradictory = true) (limit : Nat) :
    kb.runRounds limit = ⟨[], kb⟩ := by
  unfold runRounds
  rw [if_pos h]

/-- A run that is allowed no round notes that. -/
theorem runRounds_zero (h : kb.contradictory = false) :
    kb.runRounds 0 = ⟨[], { kb with halt := some .stepLimit }⟩ := by
  simp [runRounds, h]

/-- A run ends with a round that comes to nothing. -/
theorem final_runRounds_of_count (h : kb.contradictory = false) (hcount : kb.performRound.2 = 0)
    (limit : Nat) :
    (kb.runRounds (limit + 1)).final = { kb.performRound.1 with halt := some .saturated } := by
  simp [runRounds, h, hcount]

/-- A run goes on after any other round. -/
theorem final_runRounds_succ (h : kb.contradictory = false) (hcount : kb.performRound.2 ≠ 0)
    (limit : Nat) :
    (kb.runRounds (limit + 1)).final = (kb.performRound.1.runRounds limit).final := by
  rw [runRounds]
  simp [h, hcount]

/-- **Induction along a run**, on how it ends: the empty clause had been found before, no round is
allowed, a round comes to nothing, or the run goes on after its first round. -/
theorem final_runRounds_induct {P : Nat → KnowledgeBase → KnowledgeBase → Prop}
    (found : ∀ limit kb, kb.contradictory = true → P limit kb kb)
    (cut : ∀ kb, kb.contradictory = false → P 0 kb { kb with halt := some .stepLimit })
    (idle : ∀ limit kb, kb.contradictory = false → kb.performRound.2 = 0 →
      P (limit + 1) kb { kb.performRound.1 with halt := some .saturated })
    (more : ∀ limit kb, kb.contradictory = false → kb.performRound.2 ≠ 0 →
      P limit kb.performRound.1 (kb.performRound.1.runRounds limit).final →
      P (limit + 1) kb (kb.performRound.1.runRounds limit).final) :
    ∀ limit kb, P limit kb (kb.runRounds limit).final
  | limit, kb => by
    cases hc : kb.contradictory with
    | true =>
      rw [runRounds_of_contradictory hc]
      exact found limit kb hc
    | false =>
      cases limit with
      | zero =>
        rw [runRounds_zero hc]
        exact cut kb hc
      | succ limit =>
        by_cases hcount : kb.performRound.2 = 0
        · rw [final_runRounds_of_count hc hcount]
          exact idle limit kb hc hcount
        · rw [final_runRounds_succ hc hcount]
          exact more limit kb hc hcount
            (final_runRounds_induct found cut idle more limit kb.performRound.1)

/-- What a run has not found at its end, it had not found at its start. -/
theorem active_of_runRounds {limit : Nat}
    (h : (kb.runRounds limit).final.contradictory = false) : kb.contradictory = false := by
  by_contra hcontra
  rw [Bool.not_eq_false] at hcontra
  rw [runRounds_of_contradictory hcontra, hcontra] at h
  exact absurd h (by decide)

end KnowledgeBase

end Clausal

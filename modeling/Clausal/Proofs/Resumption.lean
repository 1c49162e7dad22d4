/-
# Runs can be cut and resumed

A round does not read the note of the last halt, and a run writes a new one at its end.  So a run
that was cut off by its limit can go on where it stopped, and two runs in a row are one run with the
sum of their limits (`final_runRounds_add`).  Where the first run found the empty clause there is
nothing left to do for either.

The two differ only where the first run has saturated.  One run with a higher limit stops at the
same round; a second run makes another round, or notes that it was allowed none.  But then all
clauses have met, so that round has nothing to derive (`performRound_of_met`): it adds to the
history and leaves the store as it is, and so do all rounds after it.
-/
import Clausal.Proofs.Runs

namespace Clausal

namespace KnowledgeBase

variable {kb kb' : KnowledgeBase}

/-! ## 1. The note of a halt is not read -/

theorem store_with_halt (kb : KnowledgeBase) (halt : Option Halt) (c : Candidate) :
    ({ kb with halt := halt }.store c).1 = { (kb.store c).1 with halt := halt } := by
  have hfind : ({ kb with halt := halt } : KnowledgeBase).find? c.clause.key =
      kb.find? c.clause.key := rfl
  unfold store
  rw [hfind]
  cases kb.find? c.clause.key <;> rfl

theorem storeAll_with_halt (halt : Option Halt) : ∀ (cs : List Candidate) (kb : KnowledgeBase),
    { kb with halt := halt }.storeAll cs = { kb.storeAll cs with halt := halt }
  | [], _ => rfl
  | c :: cs, kb => by
    rw [storeAll, List.foldl_cons, store_with_halt]
    exact storeAll_with_halt halt cs (kb.store c).1

/-- A round that finds the empty clause overwrites the note. -/
theorem performRound_with_halt_of_some {c : Candidate} (h : kb.nextRound.refutation? = some c)
    (halt : Option Halt) :
    { kb with halt := halt }.performRound = kb.performRound := by
  have h' : ({ kb with halt := halt } : KnowledgeBase).nextRound.refutation? = some c := h
  rw [performRound_of_some h, performRound_of_some h']
  rfl

/-- Any other round passes it on. -/
theorem performRound_with_halt_of_none (h : kb.nextRound.refutation? = none) (halt : Option Halt) :
    { kb with halt := halt }.performRound =
      ({ kb.performRound.1 with halt := halt }, kb.performRound.2) := by
  have h' : ({ kb with halt := halt } : KnowledgeBase).nextRound.refutation? = none := h
  have hstore : ({ kb with halt := halt } : KnowledgeBase).allMet.storeAll
      ({ kb with halt := halt } : KnowledgeBase).nextRound.candidates =
        { kb.allMet.storeAll kb.nextRound.candidates with halt := halt } :=
    storeAll_with_halt halt kb.nextRound.candidates kb.allMet
  rw [performRound_of_none h, performRound_of_none h', hstore]
  rfl

/-- **A run does not depend on the last halt.** -/
theorem final_runRounds_with_halt (halt : Option Halt) : ∀ (limit : Nat) {kb : KnowledgeBase},
    kb.contradictory = false →
      ({ kb with halt := halt }.runRounds limit).final = (kb.runRounds limit).final
  | 0, kb, h => by
    have h' : ({ kb with halt := halt } : KnowledgeBase).contradictory = false := h
    rw [runRounds_zero h, runRounds_zero h']
  | limit + 1, kb, h => by
    have h' : ({ kb with halt := halt } : KnowledgeBase).contradictory = false := h
    cases hr : kb.nextRound.refutation? with
    | some c =>
      have hsame := performRound_with_halt_of_some hr halt
      have hcount : kb.performRound.2 ≠ 0 := by
        intro hzero
        rw [refutation?_of_count hzero] at hr
        exact absurd hr (by simp)
      rw [final_runRounds_succ h hcount, final_runRounds_succ h' (hsame ▸ hcount), hsame]
    | none =>
      have hpass := performRound_with_halt_of_none hr halt
      have hcount' : ({ kb with halt := halt } : KnowledgeBase).performRound.2 =
          kb.performRound.2 := by rw [hpass]
      by_cases hcount : kb.performRound.2 = 0
      · rw [final_runRounds_of_count h hcount,
          final_runRounds_of_count h' (hcount'.trans hcount), hpass]
      · rw [final_runRounds_succ h hcount,
          final_runRounds_succ h' (fun hzero => hcount (hcount'.symm.trans hzero)), hpass]
        exact final_runRounds_with_halt halt limit ((contradictory_performRound_of_none hr).trans h)

/-! ## 2. Two runs in a row -/

/-- **Two runs in a row are one**, unless the first has saturated. -/
theorem final_runRounds_add (m n : Nat) (kb : KnowledgeBase) :
    (kb.runRounds m).final.halt ≠ some .saturated →
      ((kb.runRounds m).final.runRounds n).final = (kb.runRounds (m + n)).final := by
  refine final_runRounds_induct (P := fun m kb final => final.halt ≠ some .saturated →
    (final.runRounds n).final = (kb.runRounds (m + n)).final) ?found ?cut ?idle ?more m kb
  case found =>
    intro m kb hc _
    rw [runRounds_of_contradictory hc, runRounds_of_contradictory hc]
  case cut =>
    intro kb hc _
    rw [Nat.zero_add]
    exact final_runRounds_with_halt (some .stepLimit) n hc
  case idle => exact fun _ _ _ _ hsat => absurd rfl hsat
  case more =>
    intro m kb hc hcount ih hsat
    rw [ih hsat, Nat.succ_add, final_runRounds_succ hc hcount]

/-- **A run that has saturated** does not use a higher limit. -/
theorem final_runRounds_of_saturated (m n : Nat) (kb : KnowledgeBase) :
    (kb.runRounds m).final.halt = some .saturated →
      (kb.runRounds (m + n)).final = (kb.runRounds m).final := by
  refine final_runRounds_induct (P := fun m kb final => final.halt = some .saturated →
    (kb.runRounds (m + n)).final = final) ?found ?cut ?idle ?more m kb
  case found =>
    intro m kb hc _
    rw [runRounds_of_contradictory hc]
  case cut => exact fun _ _ hsat => absurd hsat (by simp)
  case idle =>
    intro m kb hc hcount _
    rw [Nat.succ_add, final_runRounds_of_count hc hcount]
  case more =>
    intro m kb hc hcount ih hsat
    rw [Nat.succ_add, final_runRounds_succ hc hcount, ih hsat]

/-! ## 3. Rounds after all clauses have met -/

/-- Where all clauses have met, there is nothing to derive. -/
theorem nextRound_of_met (h : kb.met = kb.clauses.length) : kb.nextRound = ⟨[], []⟩ := by
  have hfactorings : kb.nextRound.factorings = [] := by
    rw [← List.map_eq_nil_iff (f := Factoring.index), map_index_factorings, List.drop_eq_nil_iff,
      List.length_range]
    exact Nat.le_of_eq h.symm
  have hmeetings : kb.nextRound.meetings = [] := by
    have hline : kb.unmetIndices = [] := by
      refine List.eq_nil_iff_forall_not_mem.mpr fun p hp => ?_
      obtain ⟨-, hmet, hlt⟩ := mem_unmetIndices.mp hp
      omega
    have hpre := map_indices_meetings_isPrefix kb
    rw [hline, List.prefix_nil, List.map_eq_nil_iff] at hpre
    exact hpre
  calc kb.nextRound = ⟨kb.nextRound.factorings, kb.nextRound.meetings⟩ := rfl
    _ = ⟨[], []⟩ := by rw [hfactorings, hmeetings]

/-- **A round after all clauses have met** adds an empty record to the history. -/
theorem performRound_of_met (h : kb.met = kb.clauses.length) :
    kb.performRound = ({ kb with
      rounds := kb.rounds + 1
      history := kb.history ++
        [{ round := kb.rounds + 1, factors := 0, resolvents := 0, admitted := 0,
           clauses := kb.clauses.length, met := kb.met }] }, 0) := by
  have hnext := nextRound_of_met h
  have hnone : kb.nextRound.refutation? = none := by
    rw [hnext]
    rfl
  have hallMet : kb.allMet = { kb with rounds := kb.rounds + 1 } := by
    rw [allMet, ← h]
  rw [performRound_of_none hnone, hnext, hallMet]
  simp [Round.candidates, Round.factors, Round.resolvents, storeAll, record]

/-- The same clauses with the same keys, as many of which have met, and the same empty clause.  The
history may differ, and the note of the last halt. -/
structure SameStore (kb kb' : KnowledgeBase) : Prop where
  clauses : kb'.clauses = kb.clauses
  signatures : kb'.signatures = kb.signatures
  met : kb'.met = kb.met
  emptyClause : kb'.emptyClause = kb.emptyClause

namespace SameStore

theorem refl (kb : KnowledgeBase) : SameStore kb kb :=
  ⟨rfl, rfl, rfl, rfl⟩

theorem contradictory (h : SameStore kb kb') : kb'.contradictory = kb.contradictory := by
  rw [KnowledgeBase.contradictory, h.emptyClause, KnowledgeBase.contradictory]

theorem met_eq (h : SameStore kb kb') (hmet : kb.met = kb.clauses.length) :
    kb'.met = kb'.clauses.length := by
  rw [h.met, hmet, h.clauses]

theorem halted (h : SameStore kb kb') (halt : Option Halt) :
    SameStore kb { kb' with halt := halt } :=
  ⟨h.clauses, h.signatures, h.met, h.emptyClause⟩

/-- A round after all clauses have met keeps the store. -/
theorem round (h : SameStore kb kb') (hmet : kb.met = kb.clauses.length) :
    SameStore kb kb'.performRound.1 := by
  rw [performRound_of_met (h.met_eq hmet)]
  exact ⟨h.clauses, h.signatures, h.met, h.emptyClause⟩

/-- So does a run, which makes one round at most. -/
theorem run (h : SameStore kb kb') (hmet : kb.met = kb.clauses.length)
    (hactive : kb.contradictory = false) (limit : Nat) :
    SameStore kb (kb'.runRounds limit).final := by
  have hactive' : kb'.contradictory = false := h.contradictory.trans hactive
  cases limit with
  | zero =>
    rw [runRounds_zero hactive']
    exact h.halted _
  | succ limit =>
    have hcount : kb'.performRound.2 = 0 := by rw [performRound_of_met (h.met_eq hmet)]
    rw [final_runRounds_of_count hactive' hcount]
    exact (h.round hmet).halted _

end SameStore

end KnowledgeBase

/-! ## 4. Calls for further rounds -/

open KnowledgeBase

/-- Whether a call asks for rounds and nothing else. -/
def Call.asksForRounds : Call → Bool
  | round => true
  | run _ => true
  | _ => false

/-- Where all clauses have met, calls for further rounds keep the store. -/
theorem Session.sameStore_call {s : Session} {kb : KnowledgeBase} {c : Call}
    (h : SameStore kb s.kb) (hmet : kb.met = kb.clauses.length)
    (hactive : kb.contradictory = false) (hc : c.asksForRounds = true) :
    SameStore kb (s.call c).kb := by
  have hactive' : s.kb.contradictory = false := h.contradictory.trans hactive
  cases c with
  | ingest items label => exact absurd hc (by simp [Call.asksForRounds])
  | offer es c => exact absurd hc (by simp [Call.asksForRounds])
  | round =>
    have hok : Call.round.perform s.kb = .ok s.kb.performRound.1 := by
      simp [Call.perform, runRound, hactive', Except.map]
    rw [kb_call_of_ok hok]
    exact h.round hmet
  | run limit =>
    have hok : (Call.run limit).perform s.kb = .ok (s.kb.run limit) := rfl
    rw [kb_call_of_ok hok]
    exact h.run hmet hactive limit.toNat

theorem Session.sameStore_calls {kb : KnowledgeBase} (hmet : kb.met = kb.clauses.length)
    (hactive : kb.contradictory = false) : ∀ (more : List Call) {s : Session},
    SameStore kb s.kb → (∀ c ∈ more, c.asksForRounds = true) →
      SameStore kb (more.foldl Session.call s).kb
  | [], _, h, _ => h
  | c :: more, _, h, hmore =>
    sameStore_calls hmet hactive more
      (sameStore_call h hmet hactive (hmore c List.mem_cons_self))
      fun d hd => hmore d (List.mem_cons_of_mem _ hd)

/-- **Runs can be cut and resumed.**  After any calls, a run with limit `m` that does not saturate,
followed by one with limit `n`, ends in the same knowledge base as one with limit `m + n`.  If the
first run does saturate, the two have the same clauses and keys, as many clauses have met, and the
empty clause is the same; and whatever further rounds are asked for, the store stays as it is, the
empty clause is not found, and the next round comes to nothing. -/
theorem runs_can_be_resumed (calls : List Call) (m n : Nat) :
    let kb := (Session.ofCalls calls).kb
    ((kb.run m).halt ≠ some .saturated → (kb.run m).run n = kb.run ↑(m + n)) ∧
    ((kb.run m).halt = some .saturated →
      SameStore (kb.run ↑(m + n)) ((kb.run m).run n) ∧
      ∀ more : List Call, (∀ call ∈ more, call.asksForRounds = true) →
        let kb' := (Session.ofCalls (calls ++ .run m :: more)).kb
        SameStore (kb.run m) kb' ∧ kb'.contradictory = false ∧
          ∃ kb'', kb'.runRound = .ok (kb'', 0) ∧ SameStore (kb.run m) kb'') := by
  intro kb
  refine ⟨final_runRounds_add m n kb, fun hsat => ?_⟩
  have hreach : Session.Reachable True (Session.ofCalls calls) :=
    Session.reachable_ofCalls fun _ _ _ => trivial
  obtain ⟨hactive, hmet⟩ := hreach.met_of_saturated hsat
  have hsame : kb.run ↑(m + n) = kb.run m := final_runRounds_of_saturated m n kb hsat
  constructor
  · rw [hsame]
    exact (SameStore.refl (kb.run m)).run hmet hactive n
  · intro more hmore kb'
    have hstore : SameStore (kb.run m) kb' := by
      have hcalls : Session.ofCalls (calls ++ .run m :: more) =
          more.foldl Session.call ((Session.ofCalls calls).call (.run m)) := by
        rw [Session.ofCalls, List.foldl_append, List.foldl_cons, ← Session.ofCalls]
      have hrun : ((Session.ofCalls calls).call (.run m)).kb = kb.run m :=
        Session.kb_call_of_ok rfl
      have := Session.sameStore_calls hmet hactive more
        (s := (Session.ofCalls calls).call (.run m)) (hrun ▸ SameStore.refl _) hmore
      rw [← hcalls] at this
      exact this
    have hactive' : kb'.contradictory = false := hstore.contradictory.trans hactive
    refine ⟨hstore, hactive', kb'.performRound.1, ?_, hstore.round hmet⟩
    simp only [runRound, hactive', Bool.false_eq_true, if_false]
    rw [performRound_of_met (hstore.met_eq hmet)]

/-- A fact and two rules, the second of which applies to what the first gives. -/
def chainOfRules : List Call := [
  .ingest [.literal ⟨false, "P", [.app "a" []]⟩] "",
  .ingest [.literal ⟨true, "P", [.var "x"]⟩, .literal ⟨false, "Q", [.var "x"]⟩] "",
  .ingest [.literal ⟨true, "Q", [.var "x"]⟩, .literal ⟨false, "R", [.var "x"]⟩] ""]

/-- After `chainOfRules` a run of one round is cut off before the second rule has been applied, and
goes on from there; a run of four rounds saturates, and a further one changes nothing in the
store. -/
theorem chainOfRules_is_resumed :
    (((Session.ofCalls chainOfRules).kb.run 1).halt = some .stepLimit ∧
      ((Session.ofCalls chainOfRules).kb.run 1).run 2 = (Session.ofCalls chainOfRules).kb.run 3) ∧
    ((Session.ofCalls chainOfRules).kb.run 4).halt = some .saturated ∧
      SameStore ((Session.ofCalls chainOfRules).kb.run 6)
        (((Session.ofCalls chainOfRules).kb.run 4).run 2) := by
  have hcut : ((Session.ofCalls chainOfRules).kb.run 1).halt = some .stepLimit := by
    decide +kernel
  have hsat : ((Session.ofCalls chainOfRules).kb.run 4).halt = some .saturated := by
    decide +kernel
  refine ⟨⟨hcut, ?_⟩, hsat, ((runs_can_be_resumed chainOfRules 4 2).2 hsat).1⟩
  refine (runs_can_be_resumed chainOfRules 1 2).1 fun he => ?_
  exact absurd (hcut.symm.trans he) (by decide)

end Clausal

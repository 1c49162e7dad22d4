/-
# The history accounts for every derived clause

A round leaves a record: what it derived, how many clauses it stored, how many there were after it,
and how many had met.  The records can be checked against the store (`Recorded`), since a stored
clause has the number of the round that it came in with.  Clauses that are taken in after a round
have the same number as those that the round derived; they are told apart by their sources.

A round that finds the empty clause stores nothing, so its record repeats the watermark of the one
before; and it is the last, because nothing can be done after it.  Whether a round did is read off the
empty clause itself, which has the number of the round and sources (`FoundIn`), while an empty clause
that was taken in has none.

`Chronicled` is the invariant.  Calls that store clauses without sources keep it (`Chronicled.keep`), and
a round adds one record to those that there were (`Chronicled.extend`).
-/
import Clausal.KnowledgeBase.Report
import Clausal.Proofs.Provenance

namespace Clausal

/-! ## 1. What a record says -/

namespace KnowledgeBase

variable {kb : KnowledgeBase}

/-- The number of stored clauses that a round derived. -/
def derivedIn (kb : KnowledgeBase) (round : Nat) : Nat :=
  kb.clauses.countP fun e => e.source ≠ [] ∧ e.round = round

/-- Whether a round found the empty clause: it was derived, and has the number of the round. -/
def FoundIn (kb : KnowledgeBase) (round : Nat) : Prop :=
  ∃ r e, kb.emptyClause = some r ∧ kb.entry? r = some e ∧ e.source ≠ [] ∧ e.round = round

theorem foundIn_iff {round : Nat} :
    kb.FoundIn round ↔ ((kb.emptyClause.bind fun r => kb.entry? r).any fun e =>
      e.source ≠ [] ∧ e.round = round) = true := by
  rw [Option.any_eq_true]
  constructor
  · rintro ⟨r, e, hr, he, hsource, hround⟩
    exact ⟨e, Option.bind_eq_some_iff.mpr ⟨r, hr, he⟩, by simp [hsource, hround]⟩
  · rintro ⟨e, he, hderived⟩
    obtain ⟨r, hr, he⟩ := Option.bind_eq_some_iff.mp he
    obtain ⟨hsource, hround⟩ := decide_eq_true_iff.mp hderived
    exact ⟨r, e, hr, he, hsource, hround⟩

instance (kb : KnowledgeBase) (round : Nat) : Decidable (kb.FoundIn round) :=
  decidable_of_iff _ foundIn_iff.symm

theorem not_foundIn_of_active (h : kb.contradictory = false) (round : Nat) :
    ¬ kb.FoundIn round := by
  rintro ⟨r, e, hr, -⟩
  simp [contradictory, hr] at h

/-- How many clauses had met after the rounds with the given records; none before the first round. -/
def watermark (records : List RoundRecord) : Nat :=
  (records.getLast?.map fun record => record.met).getD 0

theorem watermark_concat (records : List RoundRecord) (record : RoundRecord) :
    watermark (records ++ [record]) = record.met := by
  simp [watermark]

end KnowledgeBase

open KnowledgeBase

/-- A record, the one at an index of the history, is right about the round that it is of. -/
structure Recorded (s : Session) (k : Nat) (record : RoundRecord) : Prop where
  round_eq : record.round = k + 1
  /-- The numbers of factors and resolvents are those of the round, and the round found the empty
  clause if that is among its resolvents. -/
  account : ∃ r, s.rounds[k]? = some r ∧ record.factors = r.factors.length ∧
    record.resolvents = r.resolvents.length ∧
    (s.kb.FoundIn (k + 1) ↔ ∃ c ∈ r.resolvents, c.clause = .empty)
  derived : s.kb.derivedIn (k + 1) = record.admitted
  admitted_le : record.admitted ≤ record.factors + record.resolvents
  completed : ¬ s.kb.FoundIn (k + 1) →
    processed record.met = (record.clauses : Int) - record.admitted - 1
  found : s.kb.FoundIn (k + 1) → k + 1 = s.kb.history.length ∧ record.admitted = 0 ∧
    record.met = watermark (s.kb.history.take k)

/-- A record stays right while its round has found nothing, and no clause is added to those that it
derived. -/
theorem Recorded.transfer {s s' : Session} {k : Nat} {record : RoundRecord}
    (h : Recorded s k record) (hactive : s.kb.contradictory = false)
    (hnot : ¬ s'.kb.FoundIn (k + 1))
    (haccount : ∀ r, s.rounds[k]? = some r → s'.rounds[k]? = some r)
    (hderived : s'.kb.derivedIn (k + 1) = s.kb.derivedIn (k + 1)) : Recorded s' k record := by
  have hnot' : ¬ s.kb.FoundIn (k + 1) := not_foundIn_of_active hactive _
  obtain ⟨r, hr, hfactors, hresolvents, hfound⟩ := h.account
  exact ⟨h.round_eq,
    ⟨r, haccount r hr, hfactors, hresolvents, (iff_of_false hnot hnot').trans hfound⟩,
    hderived.trans h.derived, h.admitted_le, fun _ => h.completed hnot', fun hf => absurd hf hnot⟩

/-- All records are right, and the numbers of the stored clauses do not decrease. -/
structure Chronicled (s : Session) : Prop where
  length_history : s.kb.history.length = s.kb.rounds
  length_rounds : s.rounds.length = s.kb.rounds
  met_eq : s.kb.met = watermark s.kb.history
  round_le : ∀ e ∈ s.kb.clauses, e.round ≤ s.kb.rounds
  sorted : s.kb.clauses.Pairwise fun d e => d.round ≤ e.round
  recorded : ∀ k record, s.kb.history[k]? = some record → Recorded s k record

/-! ## 2. The store grows -/

section Grow

variable {clauses new : List Entry} {round : Nat}

theorem pairwise_append_of_round (h : clauses.Pairwise fun d e => d.round ≤ e.round)
    (hle : ∀ e ∈ clauses, e.round ≤ round) (hnew : ∀ e ∈ new, e.round = round) :
    (clauses ++ new).Pairwise fun d e => d.round ≤ e.round := by
  refine List.pairwise_append.mpr ⟨h, ?_, fun d hd e he => hnew e he ▸ hle d hd⟩
  exact List.pairwise_of_forall_mem_list fun d hd e he =>
    Nat.le_of_eq ((hnew d hd).trans (hnew e he).symm)

theorem round_le_of_append (hle : ∀ e ∈ clauses, e.round ≤ round)
    (hnew : ∀ e ∈ new, e.round = round) : ∀ e ∈ clauses ++ new, e.round ≤ round := by
  intro e he
  rcases List.mem_append.mp he with he | he
  · exact hle e he
  · exact Nat.le_of_eq (hnew e he)

end Grow

namespace Chronicled

variable {s s' : Session} {new : List Entry} {record : RoundRecord} {r : Round}

/-- Clauses that a round did not derive do not count for it. -/
theorem derivedIn_of_others {round : Nat} (hclauses : s'.kb.clauses = s.kb.clauses ++ new)
    (hnew : ∀ e ∈ new, ¬ (e.source ≠ [] ∧ e.round = round)) :
    s'.kb.derivedIn round = s.kb.derivedIn round := by
  have hzero : new.countP (fun e => decide (e.source ≠ [] ∧ e.round = round)) = 0 :=
    List.countP_eq_zero.mpr fun e he => by simpa using hnew e he
  rw [derivedIn, hclauses, List.countP_append, hzero, Nat.add_zero, derivedIn]

/-- **A step that is no round** keeps the invariant: it may store clauses without sources, and may take in
the empty clause. -/
theorem keep (h : Chronicled s) (hactive : s.kb.contradictory = false)
    (hhistory : s'.kb.history = s.kb.history) (haccount : s'.rounds = s.rounds)
    (hrounds : s'.kb.rounds = s.kb.rounds) (hmet : s'.kb.met = s.kb.met)
    (hclauses : s'.kb.clauses = s.kb.clauses ++ new)
    (hnew : ∀ e ∈ new, e.source = [] ∧ e.round = s.kb.rounds)
    (hnot : ∀ round, ¬ s'.kb.FoundIn round) : Chronicled s' where
  length_history := by rw [hhistory, hrounds, h.length_history]
  length_rounds := by rw [haccount, hrounds, h.length_rounds]
  met_eq := by rw [hmet, hhistory, h.met_eq]
  round_le := by
    rw [hclauses, hrounds]
    exact round_le_of_append h.round_le fun e he => (hnew e he).2
  sorted := by
    rw [hclauses]
    exact pairwise_append_of_round h.sorted h.round_le fun e he => (hnew e he).2
  recorded k record hk := by
    have hold := h.recorded k record (hhistory ▸ hk)
    exact hold.transfer hactive (hnot _) (fun r hr => haccount ▸ hr)
      (derivedIn_of_others hclauses fun e he hderived => hderived.1 (hnew e he).1)

/-! ## 3. A round adds a record -/

/-- The clauses that a round adds count for this round and for no other. -/
theorem derivedIn_of_new (h : Chronicled s) (hclauses : s'.kb.clauses = s.kb.clauses ++ new)
    (hnew : ∀ e ∈ new, e.source ≠ [] ∧ e.round = s.kb.rounds + 1) :
    s'.kb.derivedIn (s.kb.rounds + 1) = new.length ∧
      ∀ round ≤ s.kb.rounds, s'.kb.derivedIn round = s.kb.derivedIn round := by
  constructor
  · have hold : s.kb.derivedIn (s.kb.rounds + 1) = 0 := by
      refine List.countP_eq_zero.mpr fun e he => ?_
      have hle := h.round_le e he
      have hne : e.round ≠ s.kb.rounds + 1 := by omega
      simp [hne]
    have hall : new.countP (fun e => decide (e.source ≠ [] ∧ e.round = s.kb.rounds + 1)) =
        new.length :=
      List.countP_eq_length.mpr fun e he => by simpa using hnew e he
    rw [derivedIn] at hold
    rw [derivedIn, hclauses, List.countP_append, hold, hall, Nat.zero_add]
  · intro round hround
    refine derivedIn_of_others hclauses fun e he hderived => ?_
    have hnumber := (hnew e he).2
    have := hderived.2
    omega

/-- **A round keeps the invariant** if its own record is right: the older records stay right, for the
round adds no clause with an older number, and does not find the empty clause in an older round. -/
theorem extend (h : Chronicled s) (hactive : s.kb.contradictory = false)
    (hhistory : s'.kb.history = s.kb.history ++ [record]) (haccount : s'.rounds = s.rounds ++ [r])
    (hrounds : s'.kb.rounds = s.kb.rounds + 1) (hmet : s'.kb.met = record.met)
    (hclauses : s'.kb.clauses = s.kb.clauses ++ new)
    (hnew : ∀ e ∈ new, e.source ≠ [] ∧ e.round = s.kb.rounds + 1)
    (hnot : ∀ round ≤ s.kb.rounds, ¬ s'.kb.FoundIn round)
    (hrecord : Recorded s' s.kb.rounds record) : Chronicled s' where
  length_history := by
    rw [hhistory, hrounds, List.length_append, h.length_history]
    rfl
  length_rounds := by
    rw [haccount, hrounds, List.length_append, h.length_rounds]
    rfl
  met_eq := by rw [hmet, hhistory, watermark_concat]
  round_le := by
    rw [hclauses, hrounds]
    exact round_le_of_append (fun e he => Nat.le_succ_of_le (h.round_le e he))
      fun e he => (hnew e he).2
  sorted := by
    rw [hclauses]
    exact pairwise_append_of_round h.sorted (fun e he => Nat.le_succ_of_le (h.round_le e he))
      fun e he => (hnew e he).2
  recorded k record' hk := by
    rw [hhistory] at hk
    rcases Nat.lt_or_ge k s.kb.history.length with hlt | hge
    · rw [List.getElem?_append_left hlt] at hk
      have hold := h.recorded k record' hk
      rw [h.length_history] at hlt
      refine hold.transfer hactive (hnot _ hlt) (fun r' hr' => ?_)
        ((h.derivedIn_of_new hclauses hnew).2 _ hlt)
      rw [haccount, List.getElem?_append_left (h.length_rounds ▸ hlt), hr']
    · rw [List.getElem?_append_right hge, List.getElem?_singleton] at hk
      split at hk
      · obtain rfl := Option.some.inj hk
        have hkrounds : k = s.kb.rounds := by
          rw [h.length_history] at hge
          have := h.length_history
          omega
        exact hkrounds ▸ hrecord
      · simp at hk

/-- The round of an account is the last one made. -/
theorem getElem?_rounds_afterRound (h : Chronicled s) :
    s.afterRound.rounds[s.kb.rounds]? = some s.kb.nextRound := by
  rw [← h.length_rounds]
  exact List.getElem?_concat_length

/-- **The step**, for a round that finds the empty clause. -/
theorem afterRound_of_some (h : Chronicled s) (hactive : s.kb.contradictory = false) {c : Candidate}
    (hr : s.kb.nextRound.refutation? = some c) : Chronicled s.afterRound := by
  have hperform := congrArg Prod.fst (performRound_of_some hr)
  have hkb : s.afterRound.kb = s.kb.performRound.1 := rfl
  rw [hperform] at hkb
  have hempty : c.clause = .empty := (refutation?_eq_some hr).1
  have hmem : c ∈ s.kb.nextRound.resolvents := List.mem_of_find?_eq_some hr
  have hsource : c.source ≠ [] :=
    (derived_of_mem_candidates (refutation?_eq_some hr).2).source_ne_nil
  have hentry : ∀ {q : Ref} {e : Entry}, s.afterRound.kb.emptyClause = some q →
      s.afterRound.kb.entry? q = some e → e = { c with round := s.kb.rounds + 1 } := by
    intro q e hq he
    rw [hkb] at hq he
    obtain rfl := Option.some.inj hq
    exact (Option.some.inj (List.getElem?_concat_length.symm.trans he)).symm
  have hfound : s.afterRound.kb.FoundIn (s.kb.rounds + 1) := by
    rw [hkb]
    exact ⟨_, _, rfl, List.getElem?_concat_length, hsource, rfl⟩
  have hclauses : s.afterRound.kb.clauses = s.kb.clauses ++ [] := by rw [hkb, List.append_nil]
  have hhistory := congrArg KnowledgeBase.history hkb
  refine h.extend hactive hhistory rfl (by rw [hkb]) (by rw [hkb]) hclauses (by simp)
    ?_ ⟨rfl, ⟨s.kb.nextRound, h.getElem?_rounds_afterRound, rfl, rfl, ?_⟩, ?_, Nat.zero_le _, ?_, ?_⟩
  · rintro round hround ⟨q, e, hq, he, -, rfl⟩
    rw [hentry hq he] at hround
    exact absurd hround (by simp)
  · exact iff_of_true hfound ⟨c, hmem, hempty⟩
  · exact (h.derivedIn_of_new hclauses (by simp)).1
  · exact fun hnot => absurd hfound hnot
  · refine fun _ => ⟨?_, rfl, ?_⟩
    · rw [hhistory, List.length_append, h.length_history]
      rfl
    · rw [hhistory, ← h.length_history, List.take_left, ← h.met_eq]

/-- **The step**, for a round that does not. -/
theorem afterRound_of_none (h : Chronicled s) (hactive : s.kb.contradictory = false)
    (hr : s.kb.nextRound.refutation? = none) : Chronicled s.afterRound := by
  obtain ⟨new, hclauses, hlength, hkept⟩ := performRound_adds hr
  have hactive' : s.afterRound.kb.contradictory = false :=
    (contradictory_performRound_of_none hr).trans hactive
  have hnew : ∀ e ∈ new, e.source ≠ [] ∧ e.round = s.kb.rounds + 1 := by
    intro e he
    obtain ⟨c, hc, -, hsource, hround⟩ := hkept e he
    exact ⟨hsource ▸ (derived_of_mem_candidates hc).source_ne_nil, hround⟩
  have hadmitted : s.kb.performRound.1.clauses.length - s.kb.clauses.length = new.length := by
    rw [hclauses, List.length_append]
    omega
  refine h.extend hactive (history_performRound_of_none hr) rfl (rounds_performRound s.kb)
    (met_performRound_of_none hr) hclauses hnew
    (fun _ _ => not_foundIn_of_active hactive' _)
    ⟨rfl, ⟨s.kb.nextRound, h.getElem?_rounds_afterRound, rfl, rfl, ?_⟩, ?_, ?_, ?_,
      fun hf => absurd hf (not_foundIn_of_active hactive' _)⟩
  · refine iff_of_false (not_foundIn_of_active hactive' _) ?_
    rintro ⟨c, hc, hempty⟩
    exact List.find?_eq_none.mp hr c hc (Clause.isEmpty_iff.mpr hempty)
  · rw [hadmitted]
    exact (h.derivedIn_of_new hclauses hnew).1
  · rw [hadmitted]
    exact Nat.le_trans hlength (Nat.le_of_eq List.length_append)
  · intro _
    simp only [processed, hclauses, List.length_append]
    omega

end Chronicled

/-! ## 4. Sessions -/

/-- Without offers the records of a session are right. -/
theorem Session.Reachable.chronicled {s : Session} (h : Reachable False s) : Chronicled s := by
  induction h with
  | start =>
    refine ⟨rfl, rfl, rfl, fun e he => absurd he List.not_mem_nil, List.Pairwise.nil, ?_⟩
    exact fun k record hk => absurd hk (by simp [Session.start, KnowledgeBase.empty])
  | known _ active _ ih =>
    exact ih.keep active rfl rfl rfl rfl (List.append_nil _).symm (by simp)
      (not_foundIn_of_active active)
  | taken _ active _ _ ih =>
    exact ih.keep active rfl rfl rfl rfl rfl (by simp) (not_foundIn_of_active active)
  | refuted _ active _ ih =>
    refine ih.keep active rfl rfl rfl rfl rfl (by simp) ?_
    -- The empty clause that is taken in has no sources.
    rintro round ⟨q, e, hq, he, hsource, -⟩
    obtain rfl := Option.some.inj hq
    obtain rfl := Option.some.inj (List.getElem?_concat_length.symm.trans he)
    exact hsource rfl
  | enlisted _ ho _ _ => exact ho.elim
  | offered _ ho _ _ _ => exact ho.elim
  | @round s _ active ih =>
    cases hr : s.kb.nextRound.refutation? with
    | some c => exact ih.afterRound_of_some active hr
    | none => exact ih.afterRound_of_none active hr
  | halted _ active _ ih =>
    exact ih.keep active rfl rfl rfl rfl (List.append_nil _).symm (by simp)
      (not_foundIn_of_active active)

/-- **The history accounts for every derived clause.**  After any calls but offers there is one record
for each round, in order.  The record of a round has the number of its factors and of its resolvents,
and the stored clauses with sources and the number of the round are as many as the record says were
stored, which is not more than both together.  If the round did not find the empty clause, the
watermark is that of the clauses without those stored; if it did, the record is the last, nothing was
stored, and the watermark is that of the record before.  The round found the empty clause exactly if
that is among its resolvents.  The numbers of the stored clauses do not decrease. -/
theorem history_accounts_for_derived_clauses (calls : List Call)
    (hplain : ∀ call ∈ calls, call.isOffer = false) :
    let s := Session.ofCalls calls
    s.kb.history.length = s.kb.rounds ∧
    (∀ (k : Nat) (record : RoundRecord), s.kb.history[k]? = some record →
      record.round = k + 1 ∧
      (∃ r, s.rounds[k]? = some r ∧ record.factors = r.factors.length ∧
        record.resolvents = r.resolvents.length ∧
        (s.kb.FoundIn (k + 1) ↔ ∃ c ∈ r.resolvents, c.clause = .empty)) ∧
      s.kb.clauses.countP (fun e => e.source ≠ [] ∧ e.round = k + 1) = record.admitted ∧
      record.admitted ≤ record.factors + record.resolvents ∧
      (¬ s.kb.FoundIn (k + 1) →
        processed record.met = (record.clauses : Int) - record.admitted - 1) ∧
      (s.kb.FoundIn (k + 1) → k + 1 = s.kb.history.length ∧ record.admitted = 0 ∧
        processed record.met = processed (watermark (s.kb.history.take k)))) ∧
    s.kb.clauses.Pairwise fun d e => d.round ≤ e.round := by
  intro s
  have h : Chronicled s := (Session.reachable_of_plain hplain).chronicled
  refine ⟨h.length_history, fun k record hk => ?_, h.sorted⟩
  have hrecord := h.recorded k record hk
  refine ⟨hrecord.round_eq, hrecord.account, hrecord.derived, hrecord.admitted_le,
    hrecord.completed, fun hf => ?_⟩
  obtain ⟨hlast, hnothing, hmet⟩ := hrecord.found hf
  exact ⟨hlast, hnothing, by rw [hmet]⟩

/-- A clause that is taken in between two rounds, the second of which finds the empty clause. -/
def lateClause : List Call := [
  .ingest [.literal ⟨false, "P", []⟩, .literal ⟨false, "Q", []⟩] "",
  .ingest [.literal ⟨true, "P", []⟩] "",
  .round,
  .ingest [.literal ⟨true, "Q", []⟩] "",
  .round]

/-- The clause taken in after the first round has the number of that round, and does not count for
it; the second round finds the empty clause, and its record says so. -/
theorem lateClause_accounted :
    (∀ call ∈ lateClause, call.isOffer = false) ∧
    (¬ (Session.ofCalls lateClause).kb.FoundIn 1 ∧ (Session.ofCalls lateClause).kb.FoundIn 2) ∧
    (Session.ofCalls lateClause).kb.history.map
      (fun record => (record.round, record.admitted, processed record.met)) =
        [(1, 1, 1), (2, 0, 1)] ∧
    ((Session.ofCalls lateClause).kb.clauses.map fun e => (e.round, e.source.length)) =
      [(0, 0), (0, 0), (1, 2), (1, 0)] ∧
    ∀ record, (Session.ofCalls lateClause).kb.history[1]? = some record →
      2 = (Session.ofCalls lateClause).kb.history.length ∧ record.admitted = 0 ∧
        processed record.met =
          processed (watermark ((Session.ofCalls lateClause).kb.history.take 1)) := by
  have hplain : ∀ call ∈ lateClause, call.isOffer = false := by decide
  have hfound : (Session.ofCalls lateClause).kb.FoundIn 2 := by decide +kernel
  obtain ⟨-, hrecords, -⟩ := history_accounts_for_derived_clauses lateClause hplain
  refine ⟨hplain, ⟨by decide +kernel, hfound⟩, by decide +kernel, by decide +kernel, ?_⟩
  intro record hrecord
  obtain ⟨-, -, -, -, -, hlast⟩ := hrecords 1 record hrecord
  exact hlast hfound

end Clausal

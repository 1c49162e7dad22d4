/-
# Sessions

A session starts with the empty knowledge base and makes one call after the other: clauses are taken
in or offered, rounds and runs are made, in any order and any number.  A call that is refused
changes nothing.  Besides its knowledge base a session has an account of what led to it: the
clauses that were taken in, and the rounds that were made.

`Reachable` says once what a call can do, in small steps with their conditions: a run is a sequence
of rounds and a note why it stopped.  Every session can be reached in such steps
(`reachable_ofCalls`), so that a statement about all sessions is proved by induction on them.  The
parameter `offers` tells whether clauses may be offered by the user, who can then store clauses that
follow from nothing.
-/
import Clausal.Proofs.Rounds
import Mathlib.Data.List.Induction

namespace Clausal

/-! ## 1. Calls -/

/-- What a user may ask of a knowledge base. -/
inductive Call where
  /-- To take in an axiom or a premise. -/
  | ingest (items : List Item) (label : String)
  /-- To store a clause.  It may name as its sources stored clauses, and clauses outside of the
  store, to which the given ones are added. -/
  | offer (outside : List Entry) (c : Candidate)
  /-- To make a round. -/
  | round
  /-- To make rounds, up to a limit. -/
  | run (limit : Int)

namespace Call

/-- Whether a clause is offered. -/
def isOffer : Call → Bool
  | offer _ _ => true
  | _ => false

/-- The knowledge base after a call, or the reason why it is refused. -/
def perform (kb : KnowledgeBase) : Call → Except Refusal KnowledgeBase
  | ingest items label => (kb.ingest items label).map Prod.fst
  | offer outside c => ((outside.foldl (fun kb e => (kb.enlist e).1) kb).offer c).map Prod.fst
  | round => kb.runRound.map Prod.fst
  | run limit => .ok (kb.run limit)

/-- The clause that a call asks to take in. -/
def premise? : Call → Option Clause
  | ingest items _ =>
    match Item.readAll items with
    | .ok literals => some (Clause.ofList literals)
    | .error _ => none
  | _ => none

theorem ingest_of_perform {kb kb' : KnowledgeBase} {items : List Item} {label : String}
    (h : (ingest items label).perform kb = .ok kb') : ∃ i, kb.ingest items label = .ok (kb', i) := by
  rw [perform] at h
  cases hi : kb.ingest items label with
  | error e =>
    rw [hi] at h
    exact absurd h (by simp [Except.map])
  | ok p =>
    rw [hi] at h
    obtain rfl := Except.ok.inj h
    exact ⟨p.2, rfl⟩

theorem performRound_of_perform {kb kb' : KnowledgeBase} (h : round.perform kb = .ok kb') :
    kb.performRound.1 = kb' := by
  simp only [perform, KnowledgeBase.runRound] at h
  split at h
  · exact absurd h (by simp [Except.map])
  · exact Except.ok.inj h

end Call

namespace KnowledgeBase

/-- The rounds of a run, from the knowledge base before it and those after its rounds. -/
def roundsOf (kb : KnowledgeBase) : List KnowledgeBase → List Round
  | [] => []
  | kb' :: rest => kb.nextRound :: kb'.roundsOf rest

end KnowledgeBase

/-- The rounds that a call makes. -/
def Call.rounds (kb : KnowledgeBase) : Call → List Round
  | round => [kb.nextRound]
  | run limit => kb.roundsOf (kb.runRounds limit.toNat).rounds
  | _ => []

/-! ## 2. Sessions -/

/-- A knowledge base and what led to it. -/
structure Session where
  kb : KnowledgeBase
  /-- The clauses taken in, in order, also those that were there already. -/
  premises : List Clause
  /-- The rounds made, in order. -/
  rounds : List Round

namespace Session

/-- Before any call. -/
def start : Session := ⟨.empty, [], []⟩

/-- Makes a call; a refused call changes nothing. -/
def call (s : Session) (call : Call) : Session :=
  match call.perform s.kb with
  | .ok kb => ⟨kb, s.premises ++ call.premise?.toList, s.rounds ++ call.rounds s.kb⟩
  | .error _ => s

/-- The session of a sequence of calls. -/
def ofCalls (calls : List Call) : Session :=
  calls.foldl call start

theorem kb_call_of_ok {s : Session} {c : Call} {kb : KnowledgeBase}
    (h : c.perform s.kb = .ok kb) : (s.call c).kb = kb := by
  rw [call, h]

theorem kb_call_of_error {s : Session} {c : Call} {e : Refusal}
    (h : c.perform s.kb = .error e) : (s.call c).kb = s.kb := by
  rw [call, h]

/-! ## 3. Small steps -/

/-- The session after one more round. -/
def afterRound (s : Session) : Session :=
  ⟨s.kb.performRound.1, s.premises, s.rounds ++ [s.kb.nextRound]⟩

/-- The sessions that can be reached; `offers` tells whether clauses may be offered. -/
inductive Reachable (offers : Prop) : Session → Prop where
  | start : Reachable offers start
  /-- A clause is taken in whose key is known. -/
  | known {s : Session} {c : Clause} {i : Nat} (reach : Reachable offers s)
      (active : s.kb.contradictory = false) (found : s.kb.find? c.key = some i) :
      Reachable offers ⟨s.kb, s.premises ++ [c], s.rounds⟩
  /-- A new clause is taken in. -/
  | taken {s : Session} {c : Clause} {label : String} (reach : Reachable offers s)
      (active : s.kb.contradictory = false) (new : s.kb.find? c.key = none)
      (nonempty : c.isEmpty = false) :
      Reachable offers ⟨s.kb.append ⟨c, [], label⟩, s.premises ++ [c], s.rounds⟩
  /-- The empty clause is taken in. -/
  | refuted {s : Session} {label : String} (reach : Reachable offers s)
      (active : s.kb.contradictory = false) (new : s.kb.find? Clause.empty.key = none) :
      Reachable offers ⟨(s.kb.append ⟨.empty, [], label⟩).refuted (.stored s.kb.clauses.length),
        s.premises ++ [.empty], s.rounds⟩
  /-- A clause is kept outside of the store. -/
  | enlisted {s : Session} {e : Entry} (reach : Reachable offers s) (h : offers)
      (active : s.kb.contradictory = false) : Reachable offers { s with kb := (s.kb.enlist e).1 }
  /-- A new clause is offered. -/
  | offered {s : Session} {c : Candidate} (reach : Reachable offers s) (h : offers)
      (active : s.kb.contradictory = false) (new : s.kb.find? c.clause.key = none) :
      Reachable offers { s with kb := s.kb.append c }
  /-- A round is made. -/
  | round {s : Session} (reach : Reachable offers s) (active : s.kb.contradictory = false) :
      Reachable offers s.afterRound
  /-- A run stops without having found the empty clause. -/
  | halted {s : Session} {halt : Halt} (reach : Reachable offers s)
      (active : s.kb.contradictory = false) (other : halt ≠ .contradiction) :
      Reachable offers { s with kb := { s.kb with halt := some halt } }

variable {offers : Prop} {s : Session}

/-! ## 4. Every call is made of small steps -/

theorem reachable_ingest (h : Reachable offers s) (items : List Item) (label : String) :
    Reachable offers (s.call (.ingest items label)) := by
  simp only [call, Call.perform, Call.premise?, Call.rounds, KnowledgeBase.ingest]
  cases hc : s.kb.contradictory with
  | true => exact h
  | false =>
    cases hr : Item.readAll items with
    | error e => exact h
    | ok literals =>
      simp only [Bool.false_eq_true, if_false, Option.toList_some, List.append_nil]
      cases hf : s.kb.find? (Clause.ofList literals).key with
      | some i => exact .known h hc hf
      | none =>
        cases he : (Clause.ofList literals).isEmpty with
        | false => exact .taken h hc hf he
        | true =>
          rw [Clause.isEmpty_iff.mp he] at hf ⊢
          exact .refuted h hc hf

theorem reachable_enlistAll (ho : offers) : ∀ (es : List Entry) {s : Session},
    Reachable offers s → s.kb.contradictory = false →
    Reachable offers { s with kb := es.foldl (fun kb e => (kb.enlist e).1) s.kb } ∧
      (es.foldl (fun kb e => (kb.enlist e).1) s.kb).contradictory = false
  | [], _, h, hc => ⟨h, hc⟩
  | e :: es, s, h, hc =>
    reachable_enlistAll ho es (s := { s with kb := (s.kb.enlist e).1 }) (.enlisted h ho hc) hc

theorem reachable_offer (ho : offers) (h : Reachable offers s) (es : List Entry) (c : Candidate) :
    Reachable offers (s.call (.offer es c)) := by
  have hsame : ∀ es : List Entry, ∀ kb : KnowledgeBase,
      (es.foldl (fun kb e => (kb.enlist e).1) kb).contradictory = kb.contradictory := by
    intro es kb
    rw [KnowledgeBase.enlistAll_eq]
    rfl
  simp only [call, Call.perform, Call.premise?, Call.rounds, KnowledgeBase.offer, hsame]
  cases hc : s.kb.contradictory with
  | true => exact h
  | false =>
    obtain ⟨h', hc'⟩ := reachable_enlistAll ho es h hc
    simp only [Bool.false_eq_true, if_false, Except.map, Option.toList_none, List.append_nil]
    unfold KnowledgeBase.store
    split
    · exact h'
    · rename_i hf
      exact .offered h' ho hc' hf

theorem reachable_round (h : Reachable offers s) : Reachable offers (s.call .round) := by
  simp only [call, Call.perform, Call.premise?, Call.rounds, KnowledgeBase.runRound]
  cases hc : s.kb.contradictory with
  | true => exact h
  | false =>
    simp only [Bool.false_eq_true, if_false, Except.map, Option.toList_none, List.append_nil]
    exact .round h hc

/-- A run is a sequence of rounds, and a note why it stopped. -/
theorem reachable_runRounds : ∀ (limit : Nat) {s : Session}, Reachable offers s →
    Reachable offers ⟨(s.kb.runRounds limit).final, s.premises,
      s.rounds ++ s.kb.roundsOf (s.kb.runRounds limit).rounds⟩
  | limit, s, h => by
    unfold KnowledgeBase.runRounds
    cases hc : s.kb.contradictory with
    | true => simpa [KnowledgeBase.roundsOf] using h
    | false =>
      simp only [Bool.false_eq_true, if_false]
      cases limit with
      | zero =>
        simp only [KnowledgeBase.roundsOf, List.append_nil]
        exact .halted h hc (by decide)
      | succ limit =>
        have hround : Reachable offers s.afterRound := .round h hc
        simp only
        split
        · -- The round came to nothing, so it did not refute either.
          rename_i hzero
          simp only [KnowledgeBase.roundsOf]
          refine .halted (s := s.afterRound) hround ?_ (by decide)
          rw [afterRound, KnowledgeBase.contradictory_performRound_of_none
            (KnowledgeBase.refutation?_of_count hzero), hc]
        · have := reachable_runRounds limit hround
          simp only [afterRound, List.append_assoc] at this
          exact this

theorem ofCalls_concat (calls : List Call) (c : Call) :
    ofCalls (calls ++ [c]) = (ofCalls calls).call c := by
  rw [ofCalls, List.foldl_append]
  rfl

theorem reachable_ofCalls {calls : List Call} (h : ∀ call ∈ calls, call.isOffer = true → offers) :
    Reachable offers (ofCalls calls) := by
  have hrun : ∀ (calls : List Call) (s : Session), Reachable offers s →
      (∀ call ∈ calls, call.isOffer = true → offers) → Reachable offers (calls.foldl call s) := by
    intro calls
    induction calls with
    | nil => exact fun _ hs _ => hs
    | cons c calls ih =>
      intro s hs h
      refine ih _ ?_ fun d hd => h d (List.mem_cons_of_mem _ hd)
      cases c with
      | ingest items label => exact reachable_ingest hs items label
      | offer es c => exact reachable_offer (h _ List.mem_cons_self rfl) hs es c
      | round => exact reachable_round hs
      | run limit => simpa [call, Call.perform, Call.premise?, Call.rounds, KnowledgeBase.run]
          using reachable_runRounds limit.toNat hs
  exact hrun calls start .start h

/-- Without offers among the calls no step is an offer. -/
theorem reachable_of_plain {calls : List Call} (h : ∀ call ∈ calls, call.isOffer = false) :
    Reachable False (ofCalls calls) := by
  refine reachable_ofCalls fun call hcall hoffer => ?_
  rw [h call hcall] at hoffer
  exact absurd hoffer (by decide)

/-! ## 5. The store as a whole -/

/-- What holds of an empty store, and is kept by storing a clause whose key is not known, holds of the
stored clauses and their keys in every session. -/
theorem Reachable.store_induction {P : List Entry → List (Clause × Nat) → Prop} (empty : P [] [])
    (append : ∀ (kb : KnowledgeBase) (c : Candidate), kb.find? c.clause.key = none →
      P kb.clauses kb.signatures → P (kb.append c).clauses (kb.append c).signatures)
    (h : Reachable offers s) : P s.kb.clauses s.kb.signatures := by
  induction h with
  | start => exact empty
  | known _ _ _ ih => exact ih
  | taken _ _ new _ ih => exact append _ _ new ih
  | refuted _ _ new ih => exact append _ ⟨.empty, [], _⟩ new ih
  | enlisted _ _ _ ih => exact ih
  | offered _ _ _ new ih => exact append _ _ new ih
  | round _ _ ih => exact KnowledgeBase.performRound_store_induction append ih
  | halted _ _ _ ih => exact ih

/-! ## 6. The clauses taken in -/

/-- **What a call but an offer adds to the account**: nothing once the empty clause has been found, and
the clause that it asks to take in before that. -/
theorem premises_call {call : Call} (hplain : call.isOffer = false) (s : Session) :
    (s.kb.contradictory = true ∧ (s.call call).kb.contradictory = true ∧
      (s.call call).premises = s.premises) ∨
    (s.kb.contradictory = false ∧
      (s.call call).premises = s.premises ++ call.premise?.toList) := by
  cases hc : s.kb.contradictory with
  | true =>
    refine Or.inl ⟨rfl, ?_⟩
    cases call with
    | offer es c => exact absurd hplain (by simp [Call.isOffer])
    | ingest items label =>
      simp [Session.call, Call.perform, KnowledgeBase.ingest, hc, Except.map]
    | round => simp [Session.call, Call.perform, KnowledgeBase.runRound, hc, Except.map]
    | run limit =>
      simp [Session.call, Call.perform, KnowledgeBase.run, hc, Call.premise?,
        KnowledgeBase.runRounds_of_contradictory hc]
  | false =>
    refine Or.inr ⟨rfl, ?_⟩
    cases call with
    | offer es c => exact absurd hplain (by simp [Call.isOffer])
    | ingest items label =>
      simp only [Session.call, Call.perform, KnowledgeBase.ingest, hc, Call.premise?,
        Bool.false_eq_true, if_false]
      cases Item.readAll items with
      | error e => simp [Except.map]
      | ok literals =>
        simp only
        cases s.kb.find? (Clause.ofList literals).key <;> rfl
    | round => simp [Session.call, Call.perform, KnowledgeBase.runRound, hc, Except.map]
    | run limit => rfl

/-- The account has only clauses that the calls asked to take in; and it has them all, as long as the
empty clause has not been found. -/
theorem premises_ofCalls (calls : List Call) (hplain : ∀ call ∈ calls, call.isOffer = false) :
    (∀ c ∈ (ofCalls calls).premises, c ∈ calls.filterMap Call.premise?) ∧
      ((ofCalls calls).kb.contradictory = false →
        (ofCalls calls).premises = calls.filterMap Call.premise?) := by
  induction calls using List.reverseRecOn with
  | nil => exact ⟨fun c hc => hc, fun _ => rfl⟩
  | append_singleton calls call ih =>
    obtain ⟨hsub, hall⟩ := ih fun c hc => hplain c (List.mem_append_left _ hc)
    have hcall : call.isOffer = false := hplain call (List.mem_append_right _ List.mem_cons_self)
    have hlast : [call].filterMap Call.premise? = call.premise?.toList := by
      cases hp : call.premise? <;> simp [hp]
    rw [ofCalls_concat, List.filterMap_append, hlast]
    rcases premises_call hcall (ofCalls calls) with ⟨-, hcontra, hsame⟩ | ⟨hactive, hadd⟩
    · rw [hsame, hcontra]
      exact ⟨fun c hc => List.mem_append_left _ (hsub c hc), fun h => absurd h (by decide)⟩
    · rw [hadd, hall hactive]
      exact ⟨fun c hc => hc, fun _ => rfl⟩

end Session

end Clausal

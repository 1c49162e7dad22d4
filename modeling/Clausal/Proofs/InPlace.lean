/-
# Requests carried out in place

To a knowledge base a request is a function: it gives the knowledge base after it, or a refusal.
Here the same requests are carried out in place, one assignment after the other, and a refusal in
their midst leaves what was assigned before it.  This makes a difference because requests are made
of requests, each of which checks for itself whether the empty clause has been found: to take in a
clause is to offer it after its items have been read, and a round offers all that it derived, one
clause after the other, when it has counted itself and marked all clauses as met.

There is no difference in the end (`Call.run_carryOut`): a request that is refused has changed
nothing, and any other one comes to what the function gives.  For the check that a request makes at
its start decides all checks that it makes later, as none of its assignments before them is to the
empty clause.

So a knowledge base in which the empty clause has been found stays as it is for ever.  The last
section says how it came to that: the note of the last halt tells, and if the empty clause is
stored, it is the last clause.
-/
import Clausal.Proofs.Completeness
import Clausal.Proofs.Provenance

namespace Clausal

namespace InPlace

/-! ## 1. Procedures -/

/-- A request that is carried out in place.  Where it is refused, what it changed before stays. -/
abbrev Procedure (α : Type) :=
  EStateM Refusal KnowledgeBase α

/-- Refuses to go on if the empty clause has been found. -/
def checkActive : Procedure Unit := do
  if (← get).contradictory then throw .contradictory

/-- Offers a clause to the store.  The clauses outside of it that are its sources are kept once the
check has passed, also if the clause itself turns out to be known. -/
def offer (outside : List Entry) (c : Candidate) : Procedure (Option Nat) := do
  checkActive
  modify fun kb => { kb with outside := kb.outside ++ outside }
  let kb ← get
  match kb.find? c.clause.key with
  | some _ => return none
  | none =>
    let index := kb.clauses.length
    let stored : Entry :=
      { clause := c.clause.apart ("_" ++ toString index), source := c.source, label := c.label,
        round := kb.rounds }
    modify fun kb => { kb with signatures := kb.signatures ++ [(c.clause.key, index)] }
    modify fun kb => { kb with clauses := kb.clauses ++ [stored] }
    return some index

/-- Reads one item after the other. -/
def readItems : List Item → Procedure (List Literal)
  | [] => return []
  | item :: items => do
    let literal ← match item.read with
      | .ok l => pure l
      | .error e => throw e
    let literals ← readItems items
    return literal :: literals

/-- Takes in an axiom or a premise. -/
def ingest (items : List Item) (label : String) : Procedure Nat := do
  checkActive
  let literals ← readItems items
  let clause := Clause.ofList literals
  match (← get).find? clause.key with
  | some index => return index
  | none =>
    match ← offer [] ⟨clause, [], label⟩ with
    -- The key is not known, so this case is not met; `run_ingest` shows it.
    | none => throw (.notStored clause)
    | some index =>
      if clause.isEmpty then modify fun kb => kb.refuted (.stored index)
      return index

/-- Offers one clause after the other, and counts those that are stored. -/
def offerAll : List Candidate → (admitted : Nat) → Procedure Nat
  | [], admitted => return admitted
  | c :: cs, admitted => do
    match ← offer [] c with
    | none => offerAll cs admitted
    | some _ => offerAll cs (admitted + 1)

/-- Makes a round. -/
def round : Procedure Nat := do
  checkActive
  modify fun kb => { kb with rounds := kb.rounds + 1 }
  let kb ← get
  let r := kb.nextRound
  match r.refutation? with
  | some c =>
    modify fun kb => (kb.enlist { c with round := kb.rounds }).1
    modify fun kb' => kb'.refuted (.outside kb.outside.length)
    modify fun kb => kb.record r 0
    return r.candidates.length
  | none =>
    -- From here on the round cannot be taken back, and every offer makes the check again.
    modify fun kb => { kb with met := kb.clauses.length }
    let admitted ← offerAll r.candidates 0
    modify fun kb => kb.record r admitted
    return admitted

/-- Makes rounds, and notes why it stopped unless that is a contradiction. -/
def run : (limit : Nat) → Procedure Unit
  | 0 => do
    unless (← get).contradictory do
      modify fun kb => { kb with halt := some .stepLimit }
  | limit + 1 => do
    unless (← get).contradictory do
      let count ← round
      if count = 0 then modify fun kb => { kb with halt := some .saturated }
      else run limit

end InPlace

open InPlace KnowledgeBase

/-- The procedure for a call. -/
def Call.carryOut : Call → Procedure Unit
  | ingest items label => do let _ ← InPlace.ingest items label
  | offer outside c => do let _ ← InPlace.offer outside c
  | round => do let _ ← InPlace.round
  | run limit => InPlace.run limit.toNat

namespace InPlace

/-- The knowledge base that a procedure leaves behind, whether it was refused or not. -/
def remains {α : Type} : EStateM.Result Refusal KnowledgeBase α → KnowledgeBase
  | .ok _ kb => kb
  | .error _ kb => kb

/-- The knowledge base after a sequence of calls, each carried out on what the last one left. -/
def ofCalls (calls : List Call) : KnowledgeBase :=
  calls.foldl (fun kb call => remains (call.carryOut.run kb)) .empty

/-! ## 2. What a procedure comes to -/

/-- The outcome of a request that changes all or nothing. -/
def allOrNothing {α : Type} (kb : KnowledgeBase) :
    Except Refusal (KnowledgeBase × α) → EStateM.Result Refusal KnowledgeBase α
  | .ok (kb', a) => .ok a kb'
  | .error e => .error e kb

variable {kb : KnowledgeBase}

/-- The check refuses, or does nothing. -/
theorem run_checkActive (kb : KnowledgeBase) :
    checkActive.run kb =
      if kb.contradictory then .error .contradictory kb else .ok () kb := by
  cases h : kb.contradictory <;> simp [checkActive, h]

/-- A procedure that begins with the check is refused where the empty clause has been found. -/
theorem run_of_contradictory {α : Type} (h : kb.contradictory = true) (p : Unit → Procedure α) :
    (checkActive >>= p).run kb = .error .contradictory kb := by
  rw [EStateM.run_bind, run_checkActive, if_pos h]

/-- Elsewhere it goes on. -/
theorem run_of_active {α : Type} (h : kb.contradictory = false) (p : Unit → Procedure α) :
    (checkActive >>= p).run kb = (p ()).run kb := by
  rw [EStateM.run_bind, run_checkActive, h]
  rfl

/-- To offer a clause changes all or nothing. -/
theorem run_offer (es : List Entry) (c : Candidate) (kb : KnowledgeBase) :
    (offer es c).run kb =
      allOrNothing kb ((es.foldl (fun kb e => (kb.enlist e).1) kb).offer c) := by
  have hsame : ({ kb with outside := kb.outside ++ es } : KnowledgeBase).contradictory =
      kb.contradictory := rfl
  rw [enlistAll_eq, offer, KnowledgeBase.offer, hsame]
  cases hc : kb.contradictory with
  | true => exact run_of_contradictory hc _
  | false =>
    rw [run_of_active hc]
    simp only [EStateM.run_bind, EStateM.run_modify, EStateM.run_get, Bool.false_eq_true, if_false,
      store]
    cases KnowledgeBase.find? { kb with outside := kb.outside ++ es } c.clause.key <;> rfl

theorem run_readItems (kb : KnowledgeBase) : ∀ items : List Item,
    (readItems items).run kb = allOrNothing kb ((Item.readAll items).map (kb, ·))
  | [] => rfl
  | item :: items => by
    rw [readItems, Item.readAll]
    cases item.read with
    | error e => rfl
    | ok l =>
      simp only [EStateM.run_bind, EStateM.run_pure, run_readItems kb items]
      cases Item.readAll items <;> rfl

/-- To take in a clause changes all or nothing. -/
theorem run_ingest (items : List Item) (label : String) (kb : KnowledgeBase) :
    (ingest items label).run kb = allOrNothing kb (kb.ingest items label) := by
  rw [ingest, KnowledgeBase.ingest]
  cases hc : kb.contradictory with
  | true => exact run_of_contradictory hc _
  | false =>
    rw [run_of_active hc]
    simp only [EStateM.run_bind, run_readItems, Bool.false_eq_true, if_false]
    cases Item.readAll items with
    | error e => rfl
    | ok literals =>
      simp only [Except.map, allOrNothing, EStateM.run_get]
      cases hf : kb.find? (Clause.ofList literals).key with
      | some i => rfl
      | none =>
        simp only [EStateM.run_bind, run_offer, List.foldl_nil, KnowledgeBase.offer, hc, store, hf,
          Bool.false_eq_true, if_false, allOrNothing]
        cases (Clause.ofList literals).isEmpty <;> rfl

/-- No offer in a row is refused if the first is not, for to store a clause is not to find the empty
one. -/
theorem run_offerAll : ∀ (cs : List Candidate) (admitted : Nat) (kb : KnowledgeBase),
    kb.contradictory = false →
      (offerAll cs admitted).run kb =
        .ok (admitted + ((kb.storeAll cs).clauses.length - kb.clauses.length)) (kb.storeAll cs)
  | [], admitted, kb, _ => by simp [offerAll, storeAll]
  | c :: cs, admitted, kb, h => by
    have hcons : kb.storeAll (c :: cs) = (kb.store c).1.storeAll cs := rfl
    rw [offerAll, EStateM.run_bind, run_offer, List.foldl_nil, KnowledgeBase.offer, h, hcons]
    unfold store
    cases kb.find? c.clause.key with
    | some i => exact run_offerAll cs admitted kb h
    | none =>
      have hrest := run_offerAll cs (admitted + 1) (kb.append c) h
      have hlen : (kb.append c).clauses.length = kb.clauses.length + 1 := by
        simp [KnowledgeBase.append]
      have hle := (clauses_prefix_storeAll (kb.append c) cs).length_le
      have hsum : admitted + 1 + (((kb.append c).storeAll cs).clauses.length -
            (kb.append c).clauses.length) =
          admitted + (((kb.append c).storeAll cs).clauses.length - kb.clauses.length) := by
        omega
      rw [hsum] at hrest
      exact hrest

/-- A round changes all or nothing. -/
theorem run_round (kb : KnowledgeBase) : round.run kb = allOrNothing kb kb.runRound := by
  rw [round, runRound]
  cases hc : kb.contradictory with
  | true => exact run_of_contradictory hc _
  | false =>
    rw [run_of_active hc]
    have hnext : ({ kb with rounds := kb.rounds + 1 } : KnowledgeBase).nextRound = kb.nextRound :=
      rfl
    simp only [EStateM.run_bind, EStateM.run_modify, EStateM.run_get, hnext, Bool.false_eq_true,
      if_false, allOrNothing]
    cases hr : kb.nextRound.refutation? with
    | some c =>
      rw [performRound_of_some hr]
      rfl
    | none =>
      have hmet : ({ kb with rounds := kb.rounds + 1, met := kb.clauses.length } : KnowledgeBase) =
          kb.allMet := rfl
      simp only [EStateM.run_bind, EStateM.run_modify]
      rw [performRound_of_none hr, hmet, run_offerAll _ 0 kb.allMet hc, Nat.zero_add]
      rfl

/-- A run is never refused. -/
theorem run_run (limit : Nat) (kb : KnowledgeBase) :
    (run limit).run kb = .ok () (kb.runRounds limit).final := by
  have hround : ∀ kb : KnowledgeBase, kb.contradictory = false →
      round.run kb = .ok kb.performRound.2 kb.performRound.1 := by
    intro kb hc
    rw [run_round, runRound, hc]
    rfl
  refine final_runRounds_induct (P := fun limit kb final => (run limit).run kb = .ok () final)
    ?found ?cut ?idle ?more limit kb
  case found =>
    intro limit kb hc
    cases limit <;> simp [run, hc]
  case cut =>
    intro kb hc
    simp [run, hc]
  case idle =>
    intro limit kb hc hcount
    simp [run, hc, hround kb hc, hcount]
  case more =>
    intro limit kb hc hcount ih
    simp [run, hc, hround kb hc, hcount, ih]

end InPlace

/-! ## 3. Calls -/

/-- **A call that is carried out in place changes all or nothing**, and what it changes is what the
call asks for. -/
theorem Call.run_carryOut (call : Call) (kb : KnowledgeBase) :
    call.carryOut.run kb = allOrNothing kb ((call.perform kb).map (·, ())) := by
  cases call with
  | ingest items label =>
    simp only [Call.carryOut, Call.perform, EStateM.run_bind, run_ingest]
    cases kb.ingest items label <;> rfl
  | offer es c =>
    simp only [Call.carryOut, Call.perform, EStateM.run_bind, run_offer]
    cases (es.foldl (fun kb e => (kb.enlist e).1) kb).offer c <;> rfl
  | round =>
    simp only [Call.carryOut, Call.perform, EStateM.run_bind, run_round]
    cases kb.runRound <;> rfl
  | run limit =>
    simp only [Call.carryOut, Call.perform, run_run, KnowledgeBase.run]
    rfl

theorem InPlace.remains_carryOut (s : Session) (call : Call) :
    remains (call.carryOut.run s.kb) = (s.call call).kb := by
  rw [call.run_carryOut]
  cases h : call.perform s.kb with
  | ok kb => rw [Session.kb_call_of_ok h]; rfl
  | error e => rw [Session.kb_call_of_error h]; rfl

/-- A sequence of calls that are carried out in place ends in the knowledge base of the session. -/
theorem InPlace.ofCalls_eq (calls : List Call) : ofCalls calls = (Session.ofCalls calls).kb := by
  induction calls using List.reverseRecOn with
  | nil => rfl
  | append_singleton calls call ih =>
    rw [Session.ofCalls_concat, ← remains_carryOut, ← ih, ofCalls, List.foldl_append]
    rfl

/-- Once the empty clause has been found, a call is refused at its first check, or does nothing. -/
theorem InPlace.remains_of_contradictory {kb : KnowledgeBase} (h : kb.contradictory = true)
    (call : Call) : remains (call.carryOut.run kb) = kb := by
  have hrefused : ∀ {α : Type} (p : Unit → Procedure α),
      remains ((do let _ ← checkActive >>= p : Procedure Unit).run kb) = kb := by
    intro α p
    rw [EStateM.run_bind, run_of_contradictory h]
    rfl
  cases call with
  | ingest items label => exact hrefused _
  | offer es c => exact hrefused _
  | round => exact hrefused _
  | run limit =>
    rw [Call.carryOut, run_run, runRounds_of_contradictory h]
    rfl

theorem InPlace.ofCalls_append_of_contradictory {calls : List Call}
    (h : (ofCalls calls).contradictory = true) (more : List Call) :
    ofCalls (calls ++ more) = ofCalls calls := by
  rw [ofCalls, List.foldl_append, ← ofCalls]
  induction more with
  | nil => rfl
  | cons call more ih => rw [List.foldl_cons, remains_of_contradictory h, ih]

/-! ## 4. How the empty clause was found -/

namespace Session

variable {offers : Prop} {s : Session}

theorem Reachable.halt_ne_contradiction (h : Reachable offers s)
    (hactive : s.kb.contradictory = false) : s.kb.halt ≠ some .contradiction := by
  induction h with
  | start => exact nofun
  | known _ active _ ih => exact ih active
  | taken _ active _ _ ih => exact ih active
  | refuted _ _ _ _ => exact absurd hactive (by simp [contradictory, KnowledgeBase.refuted])
  | enlisted _ _ active ih => exact ih active
  | offered _ _ active _ ih => exact ih active
  | @round s _ active ih =>
    have hsame : s.afterRound.kb.halt = s.kb.halt := by
      rw [afterRound, performRound_of_none (refutation?_of_active hactive)]
      simp only [record, storeAll_halt]
      rfl
    rw [hsame]
    exact ih active
  | halted _ _ other _ => exact fun he => other (Option.some.inj he)

/-- **The note of the last halt tells whether the empty clause has been found.** -/
theorem Reachable.contradictory_iff (h : Reachable offers s) :
    s.kb.contradictory = true ↔ s.kb.halt.map Halt.reason = some "empty clause derived" := by
  constructor
  · intro hcontra
    rw [h.halt_eq hcontra]
    rfl
  · intro hreason
    by_contra hactive
    have hne := h.halt_ne_contradiction (by simpa using hactive)
    cases hh : s.kb.halt with
    | none => simp [hh] at hreason
    | some halt =>
      cases halt with
      | contradiction => exact hne hh
      | saturated => simp [hh, Halt.reason] at hreason
      | stepLimit => simp [hh, Halt.reason] at hreason

/-- **Where the empty clause is stored**, it has been found there, and is the last clause.  Without
offers it is stored only when it is taken in, since a round that derives it stores nothing. -/
theorem Reachable.last_of_empty (h : Reachable False s) {i : Nat} {e : Entry}
    (he : s.kb.clauses[i]? = some e) (hempty : e.clause = .empty) :
    s.kb.emptyClause = some (.stored i) ∧ i + 1 = s.kb.clauses.length := by
  have hnever : ∀ {s : Session}, Reachable False s → s.kb.contradictory = false →
      s.kb.clauses[i]? ≠ some e := by
    intro s h hactive he
    exact h.ne_empty hactive e (List.mem_of_getElem? he) hempty
  cases hc : s.kb.contradictory with
  | false => exact absurd he (hnever h hc)
  | true =>
    cases h with
    | start => exact absurd hc (by decide)
    | known _ active _ => exact absurd (hc.symm.trans active) (by decide)
    | taken _ active _ _ => exact absurd (hc.symm.trans active) (by decide)
    | @refuted s label reach active _ =>
      rcases KnowledgeBase.getElem?_append_cases he with he | ⟨rfl, -⟩
      · exact absurd he (hnever reach active)
      · exact ⟨rfl, by simp [KnowledgeBase.refuted, KnowledgeBase.append]⟩
    | enlisted _ h _ => exact h.elim
    | offered _ h _ _ => exact h.elim
    | @round s reach active =>
      cases hr : s.kb.nextRound.refutation? with
      | none =>
        have hstill := (contradictory_performRound_of_none hr).trans active
        exact absurd (hc.symm.trans hstill) (by decide)
      | some c =>
        have hsame : s.afterRound.kb.clauses = s.kb.clauses := by
          rw [afterRound, performRound_of_some hr]
        exact absurd (hsame ▸ he) (hnever reach active)
    | halted _ active _ => exact absurd (hc.symm.trans active) (by decide)

end Session

/-- **Refused calls leave no trace, and a contradiction is final.**  After any calls, each carried
out in place: a call that is refused leaves the knowledge base as it was, and any other one comes to
what it asks for.  Once the empty clause has been found, whatever is taken in or offered is refused
for that reason, and so is a round; a run does nothing; and no further calls change anything.  The
empty clause has been found exactly if that is the reason of the last halt.  Without offers, an
empty clause is stored only if it is the one that was found, and it is the last. -/
theorem refused_calls_leave_no_trace :
    (∀ (calls : List Call) (call : Call),
      let kb := InPlace.ofCalls calls
      (∀ e kb', call.carryOut.run kb = .error e kb' → call.perform kb = .error e ∧ kb' = kb) ∧
      ∀ kb', call.carryOut.run kb = .ok () kb' → call.perform kb = .ok kb') ∧
    (∀ calls : List Call,
      let kb := InPlace.ofCalls calls
      kb.contradictory = true →
        (∀ items label, (InPlace.ingest items label).run kb = .error .contradictory kb) ∧
        (∀ es c, (InPlace.offer es c).run kb = .error .contradictory kb) ∧
        InPlace.round.run kb = .error .contradictory kb ∧
        (∀ limit : Int, (InPlace.run limit.toNat).run kb = .ok () kb) ∧
        ∀ more, InPlace.ofCalls (calls ++ more) = kb) ∧
    ∀ calls : List Call,
      let kb := InPlace.ofCalls calls
      kb = (Session.ofCalls calls).kb ∧
      (kb.contradictory = true ↔ kb.halt.map Halt.reason = some "empty clause derived") ∧
      (kb.contradictory = true → kb.halt.isSome = true) ∧
      ((∀ call ∈ calls, call.isOffer = false) → ∀ (i : Nat) (e : Entry),
        kb.clauses[i]? = some e → e.clause = .empty →
          kb.emptyClause = some (.stored i) ∧ i + 1 = kb.clauses.length) := by
  refine ⟨fun calls call => ?_, fun calls hc => ?_, fun calls => ?_⟩
  · simp only [call.run_carryOut]
    cases call.perform (InPlace.ofCalls calls) with
    | ok kb =>
      refine ⟨fun e kb' h => absurd h nofun, fun kb' h => ?_⟩
      injection h with _ hkb
      rw [hkb]
    | error e =>
      refine ⟨fun e' kb' h => ?_, fun kb' h => absurd h nofun⟩
      injection h with he hkb
      exact ⟨by rw [he], hkb.symm⟩
  · refine ⟨fun _ _ => run_of_contradictory hc _, fun _ _ => run_of_contradictory hc _,
      run_of_contradictory hc _, fun limit => ?_, ofCalls_append_of_contradictory hc⟩
    rw [run_run, runRounds_of_contradictory hc]
  · have hreach : Session.Reachable True (Session.ofCalls calls) :=
      Session.reachable_ofCalls fun _ _ _ => trivial
    simp only [ofCalls_eq]
    refine ⟨trivial, hreach.contradictory_iff, fun hc => ?_, fun hplain i e he hempty => ?_⟩
    · rw [hreach.halt_eq hc]
      rfl
    · exact (Session.reachable_of_plain hplain).last_of_empty he hempty

/-- A fact that is taken in. -/
def oneFact : List Call := [.ingest [.literal ⟨false, "P", [.app "a" []]⟩] "fact"]

/-- A call in which a literal that can be read is followed by one that cannot. -/
def halfReadable : Call := .ingest [.text "Q(a())", .text "R("] ""

/-- After `oneFact`, the call `halfReadable` is refused and changes nothing.  When the empty clause
has been taken in as well, it is refused without having been read; the empty clause is the second
and last one that is stored. -/
theorem halfReadable_leaves_no_trace :
    (∃ e, halfReadable.carryOut.run (InPlace.ofCalls oneFact) =
      .error e (InPlace.ofCalls oneFact)) ∧
    let kb := InPlace.ofCalls (oneFact ++ [.ingest [] ""])
    kb.contradictory = true ∧
      (InPlace.ingest [.text "Q(a())", .text "R("] "").run kb = .error .contradictory kb ∧
      kb.emptyClause = some (.stored 1) ∧ kb.clauses.length = 2 := by
  obtain ⟨hcalls, hfinal, hempty⟩ := refused_calls_leave_no_trace
  have hrefused : (halfReadable.perform (InPlace.ofCalls oneFact)).isOk = false := by
    decide +kernel
  have hcontra : (InPlace.ofCalls (oneFact ++ [.ingest [] ""])).contradictory = true := by
    decide +kernel
  have hstored : ((InPlace.ofCalls (oneFact ++ [.ingest [] ""])).clauses.map
      fun e => e.clause)[1]? = some .empty := by decide +kernel
  rw [List.getElem?_map, Option.map_eq_some_iff] at hstored
  obtain ⟨e, he, hclause⟩ := hstored
  obtain ⟨hlast, hlength⟩ := (hempty _).2.2.2 (by decide) 1 e he hclause
  refine ⟨?_, hcontra, (hfinal _ hcontra).1 _ _, hlast, hlength.symm⟩
  cases hrun : halfReadable.carryOut.run (InPlace.ofCalls oneFact) with
  | ok u kb' =>
    rw [(hcalls oneFact halfReadable).2 kb' hrun] at hrefused
    exact absurd hrefused Bool.noConfusion
  | error e kb' =>
    obtain ⟨-, hsame⟩ := (hcalls oneFact halfReadable).1 e kb' hrun
    exact ⟨e, by rw [hsame]⟩

end Clausal

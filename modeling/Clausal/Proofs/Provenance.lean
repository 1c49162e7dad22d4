/-
# The extracted proof is a refutation that can be checked

Where a session has found the empty clause, `KnowledgeBase.proof` lists the clauses that it was derived
from.  Each of them was taken in, or it is, up to renaming, a factor or a resolvent of clauses that
are listed before it (`extracted_proof_is_checkable`).

A stored clause is not what a rule derived but a variant of it, with the sources of what was derived.
The sources still justify it, because a variant of a variant is a variant, and because the clauses
that they refer to stay where they are.  `Traced` says so for all stored clauses, and it is kept by
every call but offers (`Reachable.traced`).  Sources have smaller indices than what was derived from
them, so there is no cycle, and the listing is in order.

A clause without sources was taken in (`takenInAt_of_source_nil`), since rounds only store clauses
that have sources.
-/
import Clausal.Proofs.Closure
import Clausal.Proofs.DerivationOrder

namespace Clausal

open Clause

/-! ## 1. One step of a derivation -/

/-- How those of the given clauses that stand below an index justify a clause with its sources. -/
inductive Derived (clauses : List Entry) (bound : Nat) (c : Clause) : List Ref → Prop where
  /-- It is a variant of a factor of its one source. -/
  | factor {i : Nat} {e : Entry} {r : Clause} (below : i < bound) (stored : clauses[i]? = some e)
      (rule : r ∈ e.clause.factors) (variant : Variant r c) : Derived clauses bound c [.stored i]
  /-- It is a variant of a resolvent of its two sources, the earlier one first. -/
  | resolvent {i j : Nat} {e e' : Entry} {r : Clause} (earlier : i < j) (below : j < bound)
      (stored : clauses[i]? = some e) (stored' : clauses[j]? = some e')
      (rule : r ∈ e.clause.resolvents e'.clause) (variant : Variant r c) :
      Derived clauses bound c [.stored i, .stored j]

namespace Derived

variable {clauses clauses' : List Entry} {c d : Clause} {bound bound' : Nat} {source : List Ref}

/-- A derivation stays right when the store grows. -/
theorem mono (h : Derived clauses bound c source) (hbound : bound ≤ bound')
    (hle : clauses <+: clauses') : Derived clauses' bound' c source := by
  have hget : ∀ {i : Nat} {e : Entry}, clauses[i]? = some e → clauses'[i]? = some e := by
    intro i e he
    obtain ⟨hi, -⟩ := List.getElem?_eq_some_iff.mp he
    obtain ⟨rest, rfl⟩ := hle
    rw [List.getElem?_append_left hi, he]
  cases h with
  | factor below stored rule variant =>
    exact .factor (Nat.lt_of_lt_of_le below hbound) (hget stored) rule variant
  | resolvent earlier below stored stored' rule variant =>
    exact .resolvent earlier (Nat.lt_of_lt_of_le below hbound) (hget stored) (hget stored') rule
      variant

/-- What justifies a clause justifies its variants. -/
theorem trans (h : Derived clauses bound c source) (hvar : Variant c d) :
    Derived clauses bound d source := by
  cases h with
  | factor below stored rule variant => exact .factor below stored rule (variant.trans hvar)
  | resolvent earlier below stored stored' rule variant =>
    exact .resolvent earlier below stored stored' rule (variant.trans hvar)

/-- The sources of a derived clause are stored below the index. -/
theorem source_stored (h : Derived clauses bound c source) :
    ∀ p ∈ source, ∃ i e, p = .stored i ∧ i < bound ∧ clauses[i]? = some e := by
  intro p hp
  cases h with
  | @factor i e _ below stored =>
    rw [List.mem_singleton] at hp
    exact ⟨i, e, hp, below, stored⟩
  | @resolvent i j e e' _ earlier below stored stored' =>
    rcases List.mem_cons.mp hp with hp | hp
    · exact ⟨i, e, hp, Nat.lt_trans earlier below, stored⟩
    · rw [List.mem_singleton] at hp
      exact ⟨j, e', hp, below, stored'⟩

theorem source_ne_nil (h : Derived clauses bound c source) : source ≠ [] := by
  cases h <;> exact List.cons_ne_nil _ _

end Derived

/-! ## 2. Every stored clause can be traced back -/

/-- A clause has no sources, or it is derived from clauses that stand before it. -/
def Traced (clauses : List Entry) : Prop :=
  ∀ (i : Nat) (e : Entry), clauses[i]? = some e →
    e.source = [] ∨ Derived clauses i e.clause e.source

namespace KnowledgeBase

variable {kb : KnowledgeBase} {c : Candidate}

/-- What a round derives is derived from what is stored. -/
theorem derived_of_mem_candidates (h : c ∈ kb.nextRound.candidates) :
    Derived kb.clauses kb.clauses.length c.clause c.source := by
  have hlt : ∀ {i : Nat} {e : Entry}, kb.clauses[i]? = some e → i < kb.clauses.length :=
    fun he => (List.getElem?_eq_some_iff.mp he).1
  rcases mem_candidates h with ⟨i, e, he, hfac, hsrc⟩ | ⟨i, j, e, e', hij, he, he', hres, hsrc⟩
  · rw [hsrc]
    exact .factor (hlt he) he hfac (Variant.refl _)
  · rw [hsrc]
    exact .resolvent hij (hlt he') he he' hres (Variant.refl _)

/-- The entries of a store that has grown by one: the old ones, and the new one at the end. -/
theorem getElem?_append_cases {i : Nat} {e : Entry} (he : (kb.append c).clauses[i]? = some e) :
    kb.clauses[i]? = some e ∨
      (i = kb.clauses.length ∧ e.source = c.source ∧ e.round = kb.rounds ∧
        Variant c.clause e.clause) := by
  simp only [append] at he
  rcases Nat.lt_or_ge i kb.clauses.length with hi | hi
  · rw [List.getElem?_append_left hi] at he
    exact Or.inl he
  · rw [List.getElem?_append_right hi, List.getElem?_singleton] at he
    split at he
    · obtain rfl := Option.some.inj he
      exact Or.inr ⟨by omega, rfl, rfl, variant_apart _ _⟩
    · simp at he

/-- **The step.**  Storing a clause that has no sources, or that is derived, keeps all clauses
traced. -/
theorem traced_append (h : Traced kb.clauses)
    (hc : c.source = [] ∨ Derived kb.clauses kb.clauses.length c.clause c.source) :
    Traced (kb.append c).clauses := by
  intro i e he
  have hle : kb.clauses <+: (kb.append c).clauses := List.prefix_append _ _
  rcases getElem?_append_cases he with hold | ⟨rfl, hsrc, -, hvar⟩
  · exact (h i e hold).imp_right fun hder => hder.mono (Nat.le_refl i) hle
  · rw [hsrc]
    exact hc.imp_right fun hder => (hder.trans hvar).mono (Nat.le_refl _) hle

theorem traced_performRound (h : Traced kb.clauses) : Traced kb.performRound.1.clauses := by
  cases hr : kb.nextRound.refutation? with
  | some c =>
    rw [performRound_of_some hr]
    exact h
  | none =>
    -- The candidates were derived from the clauses that were there when the round began.
    have hall : kb.clauses <+: (kb.allMet.storeAll kb.nextRound.candidates).clauses ∧
        Traced (kb.allMet.storeAll kb.nextRound.candidates).clauses := by
      refine storeAll_induction (P := fun kb' => kb.clauses <+: kb'.clauses ∧ Traced kb'.clauses)
        ⟨List.prefix_rfl, h⟩ ?_
      rintro kb' c hc ⟨hle, htraced⟩ -
      refine ⟨hle.trans (List.prefix_append _ _), traced_append htraced (Or.inr ?_)⟩
      exact (derived_of_mem_candidates hc).mono hle.length_le hle
    rw [performRound_of_none hr]
    exact hall.2

end KnowledgeBase

open KnowledgeBase

theorem Session.Reachable.traced {s : Session} (h : Reachable False s) : Traced s.kb.clauses := by
  induction h with
  | start => exact fun i e he => absurd he (by simp [Session.start, KnowledgeBase.empty])
  | known _ _ _ ih => exact ih
  | taken _ _ _ _ ih => exact traced_append ih (Or.inl rfl)
  | refuted _ _ _ ih => exact traced_append (c := ⟨.empty, [], _⟩) ih (Or.inl rfl)
  | enlisted _ h _ _ => exact h.elim
  | offered _ h _ _ _ => exact h.elim
  | round _ _ ih => exact traced_performRound ih
  | halted _ _ _ ih => exact ih

/-- **The empty clause that was found** is stored without sources, or it is kept outside and derived
from stored clauses. -/
theorem Session.Reachable.emptyClause_cases {s : Session} (h : Reachable False s) {r : Ref}
    (hr : s.kb.emptyClause = some r) :
    ∃ e, s.kb.entry? r = some e ∧ e.clause = .empty ∧
      ((∃ i, r = .stored i ∧ e.source = []) ∨
        (∃ j, r = .outside j) ∧ Derived s.kb.clauses s.kb.clauses.length e.clause e.source) := by
  have hnone : ∀ {kb : KnowledgeBase}, kb.contradictory = false → kb.emptyClause ≠ some r := by
    intro kb hactive hsome
    simp [contradictory, hsome] at hactive
  cases h with
  | start => exact absurd hr (hnone rfl)
  | known _ active _ => exact absurd hr (hnone active)
  | taken _ active _ _ => exact absurd hr (hnone active)
  | refuted _ _ _ =>
    obtain rfl := Option.some.inj hr
    exact ⟨_, List.getElem?_concat_length, rfl, Or.inl ⟨_, rfl, rfl⟩⟩
  | enlisted _ h _ => exact h.elim
  | offered _ h _ _ => exact h.elim
  | @round s _ active =>
    cases hround : s.kb.nextRound.refutation? with
    | none =>
      have hstill := (contradictory_performRound_of_none hround).trans active
      exact absurd hr (hnone hstill)
    | some c =>
      obtain ⟨hempty, hmem⟩ := refutation?_eq_some hround
      rw [Session.afterRound, performRound_of_some hround] at hr ⊢
      obtain rfl := Option.some.inj hr
      exact ⟨_, List.getElem?_concat_length, hempty,
        Or.inr ⟨⟨_, rfl⟩, derived_of_mem_candidates hmem⟩⟩
  | halted _ active _ => exact absurd hr (hnone active)

/-! ## 3. Clauses without sources were taken in -/

/-- One of the calls took in the clause that is stored at an index, and stored it there. -/
def TakenInAt (calls : List Call) (i : Nat) (e : Entry) : Prop :=
  ∃ before items label after kb', calls = before ++ .ingest items label :: after ∧
    (Session.ofCalls before).kb.clauses.length = i ∧
    (Session.ofCalls before).kb.ingest items label = .ok (kb', i) ∧ kb'.clauses[i]? = some e

namespace KnowledgeBase

/-- From an index on, all clauses have sources. -/
def SourcedFrom (n : Nat) (kb : KnowledgeBase) : Prop :=
  ∀ (i : Nat) (e : Entry), n ≤ i → kb.clauses[i]? = some e → e.source ≠ []

theorem SourcedFrom.round {n : Nat} {kb : KnowledgeBase} (h : SourcedFrom n kb) :
    SourcedFrom n kb.performRound.1 := by
  cases hr : kb.nextRound.refutation? with
  | some c =>
    rw [performRound_of_some hr]
    exact h
  | none =>
    rw [performRound_of_none hr]
    refine storeAll_induction (P := SourcedFrom n) h ?_
    intro kb' c hc hkb' _ i e hi he
    rcases getElem?_append_cases he with hold | ⟨-, hsrc, -, -⟩
    · exact hkb' i e hi hold
    · rw [hsrc]
      exact (derived_of_mem_candidates hc).source_ne_nil

end KnowledgeBase

/-- **What a call but an offer adds to the store**: an ingest adds what it takes in, and rounds and runs
add clauses that have sources. -/
theorem Call.perform_new {call : Call} {kb kb' : KnowledgeBase} (hplain : call.isOffer = false)
    (h : call.perform kb = .ok kb') :
    kb.clauses <+: kb'.clauses ∧
      (SourcedFrom kb.clauses.length kb' ∨
        ∃ items label, call = .ingest items label ∧
          kb.ingest items label = .ok (kb', kb.clauses.length) ∧
          kb'.clauses.length = kb.clauses.length + 1) := by
  have hstart : SourcedFrom kb.clauses.length kb := by
    intro i e hi he
    obtain ⟨hlt, -⟩ := List.getElem?_eq_some_iff.mp he
    omega
  cases call with
  | offer es c => exact absurd hplain (by simp [Call.isOffer])
  | ingest items label =>
    obtain ⟨i, hok⟩ := Call.ingest_of_perform h
    obtain ⟨literals, -, ⟨-, rfl⟩ | ⟨rfl, -, hclauses, -⟩⟩ := ingest_eq_ok hok
    · exact ⟨List.prefix_rfl, Or.inl hstart⟩
    · refine ⟨hclauses ▸ List.prefix_append _ _, Or.inr ⟨items, label, rfl, hok, ?_⟩⟩
      rw [hclauses]
      exact List.length_append
  | round =>
    obtain rfl := Call.performRound_of_perform h
    exact ⟨clauses_prefix_performRound kb, Or.inl hstart.round⟩
  | run limit =>
    obtain rfl := Except.ok.inj h
    refine ⟨clauses_prefix_runRounds _ kb, Or.inl ?_⟩
    exact runRounds_induction (P := SourcedFrom kb.clauses.length) (fun _ _ hkb => hkb.round)
      (fun _ _ hkb => hkb) _ hstart

/-- **A clause without sources was taken in.** -/
theorem takenInAt_of_source_nil (calls : List Call) (hplain : ∀ call ∈ calls, call.isOffer = false)
    {i : Nat} {e : Entry} (he : (Session.ofCalls calls).kb.clauses[i]? = some e)
    (hsrc : e.source = []) : TakenInAt calls i e := by
  induction calls using List.reverseRecOn with
  | nil => exact absurd he (by simp [Session.ofCalls, Session.start, KnowledgeBase.empty])
  | append_singleton calls call ih =>
    have hcalls : ∀ call ∈ calls, call.isOffer = false := fun c hc =>
      hplain c (List.mem_append_left _ hc)
    have hcall : call.isOffer = false := hplain call (List.mem_append_right _ List.mem_cons_self)
    -- What was taken in before is still there.
    have hold : (Session.ofCalls calls).kb.clauses[i]? = some e →
        TakenInAt (calls ++ [call]) i e := by
      intro he'
      obtain ⟨before, items, label, after, kb', rfl, hrest⟩ := ih hcalls he'
      exact ⟨before, items, label, after ++ [call], kb', by simp, hrest⟩
    rw [Session.ofCalls_concat, Session.call] at he
    cases hperform : call.perform (Session.ofCalls calls).kb with
    | error _ =>
      rw [hperform] at he
      exact hold he
    | ok kb' =>
      rw [hperform] at he
      obtain ⟨hle, hnew⟩ := Call.perform_new hcall hperform
      rcases Nat.lt_or_ge i (Session.ofCalls calls).kb.clauses.length with hi | hi
      · rw [getElem?_of_isPrefix hle hi] at he
        exact hold he
      · rcases hnew with hsourced | ⟨items, label, rfl, hok, hlen⟩
        · exact absurd hsrc (hsourced i e hi he)
        · have hi' : i = (Session.ofCalls calls).kb.clauses.length := by
            obtain ⟨hlt, -⟩ := List.getElem?_eq_some_iff.mp he
            simp only at hlt
            omega
          subst hi'
          exact ⟨calls, items, label, [], kb', rfl, rfl, hok, he⟩

/-! ## 4. The extracted proof -/

namespace KnowledgeBase

/-- The index of a stored clause; clauses outside come after all that are stored. -/
def height (kb : KnowledgeBase) : Ref → Nat
  | .stored i => i
  | .outside _ => kb.clauses.length

/-- All references to clauses that are kept. -/
def refs (kb : KnowledgeBase) : List Ref :=
  (List.range kb.clauses.length).map .stored ++ (List.range kb.outside.length).map .outside

variable {kb : KnowledgeBase}

theorem mem_refs_of_kept {r : Ref} {e : Entry} (h : kb.entry? r = some e) : r ∈ kb.refs := by
  cases r with
  | stored i =>
    have hi : i < kb.clauses.length := (List.getElem?_eq_some_iff.mp h).1
    exact List.mem_append_left _ (List.mem_map_of_mem (List.mem_range.mpr hi))
  | outside i =>
    have hi : i < kb.outside.length := (List.getElem?_eq_some_iff.mp h).1
    exact List.mem_append_right _ (List.mem_map_of_mem (List.mem_range.mpr hi))

/-- The proof is listed from the empty clause, with room for all clauses that are kept. -/
theorem proof_eq_listing (kb : KnowledgeBase) {root : Ref} (hroot : kb.emptyClause = some root) :
    kb.proof = Derivation.listing kb.parents kb.refs.length root := by
  have hlen : kb.refs.length = kb.clauses.length + kb.outside.length := by simp [refs]
  rw [hlen]
  simp only [proof, hroot]

theorem parents_eq_source {r : Ref} {e : Entry} (h : kb.entry? r = some e) :
    kb.parents r = e.source := by
  simp only [parents, h]

/-- A clause that is kept, and that is stored without sources or derived from what comes before it. -/
def Justified (kb : KnowledgeBase) (r : Ref) (e : Entry) : Prop :=
  kb.entry? r = some e ∧
    ((∃ i, r = .stored i ∧ e.source = []) ∨ Derived kb.clauses (kb.height r) e.clause e.source)

/-- The sources of a justified clause are stored, and come before it. -/
theorem Justified.parents_lt {r : Ref} {e : Entry} (h : kb.Justified r e) :
    ∀ p ∈ kb.parents r, ∃ i d, p = .stored i ∧ i < kb.height r ∧ kb.clauses[i]? = some d := by
  intro p hp
  rw [parents_eq_source h.1] at hp
  rcases h.2 with ⟨i, -, hsrc⟩ | hder
  · rw [hsrc] at hp
    exact absurd hp List.not_mem_nil
  · exact hder.source_stored p hp

end KnowledgeBase

open Clausal.Derivation

/-- **All that the empty clause was derived from is justified.** -/
theorem Session.Reachable.justified {s : Session} (h : Reachable False s) {root : Ref}
    (hroot : s.kb.emptyClause = some root) {r : Ref} (hr : Ancestor s.kb.parents root r) :
    ∃ e, s.kb.Justified r e := by
  refine hr.induct (P := fun r => ∃ e, s.kb.Justified r e) ?_ ?_
  · obtain ⟨e, he, -, hstored | ⟨⟨j, rfl⟩, hder⟩⟩ := h.emptyClause_cases hroot
    · exact ⟨e, he, Or.inl hstored⟩
    · exact ⟨e, he, Or.inr hder⟩
  · rintro a ⟨e, hjust⟩ p hp
    obtain ⟨i, d, rfl, -, hd⟩ := hjust.parents_lt p hp
    refine ⟨d, hd, ?_⟩
    exact (h.traced i d hd).imp_left fun hsrc => ⟨i, rfl, hsrc⟩

/-- The proof has all that the empty clause was derived from, in order, and the empty clause last. -/
theorem Session.Reachable.proof_spec {s : Session} (h : Reachable False s) {root : Ref}
    (hroot : s.kb.emptyClause = some root) :
    (∀ r ∈ s.kb.proof, ∃ e, s.kb.Justified r e) ∧
    (∀ (k : Nat) (r : Ref), s.kb.proof[k]? = some r → ∀ p ∈ s.kb.parents r,
      ∃ j < k, s.kb.proof[j]? = some p) ∧
    s.kb.proof.getLast? = some root := by
  have hacyclic : Acyclic s.kb.parents root := by
    refine acyclic_of_rank s.kb.height ?_
    intro a ha p hp
    obtain ⟨e, hjust⟩ := h.justified hroot ha
    obtain ⟨i, d, rfl, hlt, -⟩ := hjust.parents_lt p hp
    exact hlt
  have hrefs : ∀ r, Ancestor s.kb.parents root r → r ∈ s.kb.refs := by
    intro r hr
    obtain ⟨e, he, -⟩ := h.justified hroot hr
    exact mem_refs_of_kept he
  rw [s.kb.proof_eq_listing hroot]
  obtain ⟨-, hmem, horder, hlast⟩ := listing_spec hacyclic hrefs (Nat.le_refl _)
  exact ⟨fun r hr => h.justified hroot ((hmem r).mp hr), horder, hlast⟩

/-- **The extracted proof is a refutation that can be checked.**  After any calls but offers that have
found the empty clause, each clause of the proof either has no parents and was taken in by one of the
calls; or it has one stored parent and is a variant of a factor of it; or it has two stored parents,
the earlier one first, and is a variant of a resolvent of them.  Every parent stands at an earlier
place of the proof, and the empty clause stands last. -/
theorem extracted_proof_is_checkable (calls : List Call)
    (hplain : ∀ call ∈ calls, call.isOffer = false)
    (hcontra : (Session.ofCalls calls).kb.contradictory = true) :
    let kb := (Session.ofCalls calls).kb
    (∀ (k : Nat) (r : Ref), kb.proof[k]? = some r → ∃ e, kb.entry? r = some e ∧
      ((∃ i, r = .stored i ∧ e.source = [] ∧ TakenInAt calls i e) ∨
        Derived kb.clauses kb.clauses.length e.clause e.source) ∧
      ∀ p ∈ e.source, ∃ j < k, kb.proof[j]? = some p) ∧
    ∃ r e, kb.proof.getLast? = some r ∧ kb.emptyClause = some r ∧ kb.entry? r = some e ∧
      e.clause = .empty := by
  intro kb
  have hreach : Session.Reachable False (Session.ofCalls calls) := Session.reachable_of_plain hplain
  obtain ⟨root, hroot⟩ := Option.isSome_iff_exists.mp hcontra
  obtain ⟨hjust, horder, hlast⟩ := hreach.proof_spec hroot
  constructor
  · intro k r hk
    obtain ⟨e, he, hcases⟩ := hjust r (List.mem_of_getElem? hk)
    refine ⟨e, he, ?_, ?_⟩
    · rcases hcases with ⟨i, rfl, hsrc⟩ | hder
      · exact Or.inl ⟨i, rfl, hsrc, takenInAt_of_source_nil calls hplain he hsrc⟩
      · refine Or.inr (hder.mono ?_ List.prefix_rfl)
        cases r with
        | stored i => exact Nat.le_of_lt (List.getElem?_eq_some_iff.mp he).1
        | outside i => exact Nat.le_refl _
    · rw [← parents_eq_source he]
      exact horder k r hk
  · obtain ⟨e, he, hempty, -⟩ := hreach.emptyClause_cases hroot
    exact ⟨root, e, hlast, hroot, he, hempty⟩

/-- A clause that has to be factored, and one that refutes its factor. -/
def factoredFirst : List Call := [
  .ingest [.literal ⟨false, "P", [.var "x", .app "a" []]⟩,
    .literal ⟨false, "P", [.app "b" [], .var "y"]⟩] "",
  .ingest [.literal ⟨true, "P", [.var "x", .var "y"]⟩] "",
  .run 3]

theorem factoredFirst_proof : (Session.ofCalls factoredFirst).kb.proof =
    [.stored 0, .stored 2, .stored 1, .outside 0] := by
  decide +kernel

/-- The second step of the proof is a variant of a factor of the first. -/
theorem factoredFirst_proof_is_checkable :
    (∀ call ∈ factoredFirst, call.isOffer = false) ∧
    (Session.ofCalls factoredFirst).kb.contradictory = true ∧
    ∃ e, (Session.ofCalls factoredFirst).kb.entry? (.stored 2) = some e ∧
      Derived (Session.ofCalls factoredFirst).kb.clauses
        (Session.ofCalls factoredFirst).kb.clauses.length e.clause [.stored 0] := by
  have hplain : ∀ call ∈ factoredFirst, call.isOffer = false := by decide
  have hcontra : (Session.ofCalls factoredFirst).kb.contradictory = true := by decide +kernel
  have hparents : (Session.ofCalls factoredFirst).kb.parents (.stored 2) = [.stored 0] := by
    decide +kernel
  obtain ⟨hsteps, -⟩ := extracted_proof_is_checkable factoredFirst hplain hcontra
  obtain ⟨e, he, hcases, -⟩ := hsteps 1 (.stored 2) (by rw [factoredFirst_proof]; rfl)
  rw [parents_eq_source he] at hparents
  rw [hparents] at hcases
  refine ⟨hplain, hcontra, e, he, hcases.resolve_left ?_⟩
  rintro ⟨i, -, hnil, -⟩
  exact absurd hnil (List.cons_ne_nil _ _)

end Clausal

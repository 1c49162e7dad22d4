/-
# A derivation is listed in two passes

A derivation can be put in order with a queue and a counter.  The first pass goes back from the root
to all ancestors and counts for each of them the places that list it.  The second pass goes back
from the root once more.  It emits the nodes of its queue, strikes off the places of their parents,
and queues a parent when its counter comes to zero.  Neither pass has a bound: `Surveys` and `Emits`
say what the loops do, and they may have no result.

The two passes are `Derivation.ancestors` and `Derivation.emit`.  After the first one the counter has
the number of places in which each node stands (`Explored.surveys`), and during the second one it has
the number of those that are still open (`foldl_strike`).  So where no node is among its own ancestors
the passes end, with the listing for their only result (`reconstructs_iff`): a counter comes to zero
once for each ancestor, and this is when all nodes that list it have been emitted.
-/
import Clausal.Proofs.Enumeration
import Clausal.Proofs.Provenance

namespace Clausal.Derivation

variable {α : Type} [DecidableEq α] {parents : α → List α} {root : α}

/-! ## 1. The two passes -/

/-- Where the first pass is. -/
structure Survey (α : Type) where
  queue : List α
  seen : List α
  /-- The number of places that were counted for each node. -/
  consumers : α → Int

/-- Counts a place of `p`, and queues `p` if it was not seen before. -/
def Survey.count (s : Survey α) (p : α) : Survey α where
  queue := if p ∈ s.seen then s.queue else s.queue ++ [p]
  seen := if p ∈ s.seen then s.seen else s.seen ++ [p]
  consumers := Function.update s.consumers p (s.consumers p + 1)

/-- The first pass: it counts the places of the nodes in the queue until the queue is empty. -/
inductive Surveys (parents : α → List α) : Survey α → (α → Int) → Prop where
  | done {seen : List α} {consumers : α → Int} : Surveys parents ⟨[], seen, consumers⟩ consumers
  | look {a : α} {queue seen : List α} {consumers result : α → Int}
      (rest : Surveys parents ((parents a).foldl Survey.count ⟨queue, seen, consumers⟩) result) :
      Surveys parents ⟨a :: queue, seen, consumers⟩ result

/-- Where the second pass is. -/
structure Emission (α : Type) where
  queue : List α
  /-- The number of places that are still open for each node. -/
  consumers : α → Int
  emitted : List α

/-- Strikes off a place of `p`, and queues `p` if none is left. -/
def Emission.strike (s : Emission α) (p : α) : Emission α where
  queue := if s.consumers p - 1 = 0 then s.queue ++ [p] else s.queue
  consumers := Function.update s.consumers p (s.consumers p - 1)
  emitted := s.emitted

/-- The second pass: it emits the nodes in the queue until the queue is empty; what was emitted last
comes first. -/
inductive Emits (parents : α → List α) : Emission α → List α → Prop where
  | done {consumers : α → Int} {emitted : List α} :
      Emits parents ⟨[], consumers, emitted⟩ emitted.reverse
  | take {a : α} {queue emitted steps : List α} {consumers : α → Int}
      (rest : Emits parents
        ((parents a).foldl Emission.strike ⟨queue, consumers, emitted ++ [a]⟩) steps) :
      Emits parents ⟨a :: queue, consumers, emitted⟩ steps

/-- The two passes from `root` end, with the given steps. -/
def Reconstructs (parents : α → List α) (root : α) (steps : List α) : Prop :=
  ∃ consumers, Surveys parents ⟨[root], [root], fun _ => 0⟩ consumers ∧
    Emits parents ⟨[root], consumers, []⟩ steps

theorem Surveys.unique {s : Survey α} {c c' : α → Int} (h : Surveys parents s c)
    (h' : Surveys parents s c') : c = c' := by
  induction h with
  | done =>
    cases h'
    rfl
  | look _ ih =>
    cases h' with
    | look rest => exact ih rest

theorem Emits.unique {s : Emission α} {steps steps' : List α} (h : Emits parents s steps)
    (h' : Emits parents s steps') : steps = steps' := by
  induction h with
  | done =>
    cases h'
    rfl
  | take _ ih =>
    cases h' with
    | take rest => exact ih rest

theorem Reconstructs.unique {steps steps' : List α} (h : Reconstructs parents root steps)
    (h' : Reconstructs parents root steps') : steps = steps' := by
  obtain ⟨c, hc, hsteps⟩ := h
  obtain ⟨c', hc', hsteps'⟩ := h'
  obtain rfl := hc.unique hc'
  exact hsteps.unique hsteps'

/-! ## 2. The first pass -/

/-- The number of places in a list for each node. -/
def countIn (places : List α) (x : α) : Int :=
  places.count x

theorem countIn_append (ps qs : List α) (x : α) :
    countIn (ps ++ qs) x = countIn ps x + countIn qs x := by
  rw [countIn, List.count_append]
  exact Int.natCast_add _ _

/-- To count a place of `p` before others is to count it among them. -/
theorem update_add_countIn (c : α → Int) (p : α) (ps : List α) :
    (fun x => Function.update c p (c p + 1) x + countIn ps x) =
      fun x => c x + countIn (p :: ps) x := by
  funext x
  rw [Function.update_apply, countIn, countIn, List.count_cons]
  by_cases hx : x = p
  · simp [hx]
    omega
  · simp [hx, Ne.symm hx]

/-- The members of `ps` that are not in `seen`, each once. -/
def unseen (seen ps : List α) : List α :=
  ps.eraseDups.filter (· ∉ seen)

theorem unseen_cons_of_mem {seen ps : List α} {p : α} (h : p ∈ seen) :
    unseen seen (p :: ps) = unseen seen ps := by
  rw [unseen, List.eraseDups_cons, List.filter_cons_of_neg (by simpa using h), eraseDups_filter,
    List.filter_filter, unseen]
  refine List.filter_congr fun x _ => ?_
  by_cases hx : x = p
  · simp [hx, h]
  · simp [hx]

theorem unseen_cons_of_not_mem {seen ps : List α} {p : α} (h : p ∉ seen) :
    unseen seen (p :: ps) = p :: unseen (seen ++ [p]) ps := by
  rw [unseen, List.eraseDups_cons, List.filter_cons_of_pos (by simpa using h), eraseDups_filter,
    List.filter_filter, unseen]
  congr 1
  refine List.filter_congr fun x _ => ?_
  by_cases hx : x = p <;> simp [hx]

/-- To count the places of a node queues those of its parents that were not seen before. -/
theorem foldl_count : ∀ (ps queue seen : List α) (c : α → Int),
    ps.foldl Survey.count ⟨queue, seen, c⟩ =
      ⟨queue ++ unseen seen ps, seen ++ unseen seen ps, fun x => c x + countIn ps x⟩
  | [], queue, seen, c => by simp [unseen, countIn]
  | p :: ps, queue, seen, c => by
    rw [List.foldl_cons, Survey.count]
    by_cases hp : p ∈ seen
    · simp only [if_pos hp]
      rw [foldl_count ps, unseen_cons_of_mem hp, update_add_countIn]
    · simp only [if_neg hp]
      rw [foldl_count ps, unseen_cons_of_not_mem hp, update_add_countIn]
      simp

/-- **The first pass counts all places of all ancestors.** -/
theorem Explored.surveys {nodes : List α} (hmem : ∀ x, Ancestor parents root x → x ∈ nodes) :
    ∀ (bound : Nat) {done queue : List α}, Explored parents root done queue →
      nodes.length ≤ done.length + bound →
        Surveys parents ⟨queue, done ++ queue, countIn (done.flatMap parents)⟩
          (countIn ((ancestors parents bound queue (done ++ queue)).flatMap parents))
  | 0, done, queue, h, hlen => by
    have hle := h.length_le hmem
    obtain rfl : queue = [] := List.eq_nil_of_length_eq_zero (by omega)
    rw [List.append_nil, ancestors]
    exact .done
  | bound + 1, done, [], h, _ => by
    rw [List.append_nil, ancestors]
    exact .done
  | bound + 1, done, a :: queue, h, hlen => by
    have hrec := Explored.surveys hmem bound h.step (by
      rw [List.length_append, List.length_singleton]
      omega)
    have hcount : countIn ((done ++ [a]).flatMap parents) =
        fun x => countIn (done.flatMap parents) x + countIn (parents a) x := by
      funext x
      rw [List.flatMap_append, countIn_append, List.flatMap_singleton]
    rw [Explored.seen_append, hcount] at hrec
    refine .look ?_
    rw [foldl_count, ancestors]
    exact hrec

/-! ## 3. The second pass -/

/-- To strike off a place is to take it from the open ones. -/
theorem update_sub_countIn {openPlaces : List α} {p : α} (h : p ∈ openPlaces) :
    Function.update (countIn openPlaces) p (countIn openPlaces p - 1) =
      countIn (openPlaces.erase p) := by
  have hpos : 0 < openPlaces.count p := List.count_pos_iff.mpr h
  funext x
  rw [Function.update_apply, countIn, countIn, countIn]
  by_cases hx : x = p
  · rw [if_pos hx, hx, List.count_erase_self]
    omega
  · rw [if_neg hx, List.count_erase_of_ne hx]

/-- No place is left when the last one has been taken. -/
theorem countIn_sub_eq_zero {openPlaces : List α} {p : α} (h : p ∈ openPlaces) :
    countIn openPlaces p - 1 = 0 ↔ p ∉ openPlaces.erase p := by
  have hpos : 0 < openPlaces.count p := List.count_pos_iff.mpr h
  rw [← List.count_eq_zero, List.count_erase_self, countIn]
  omega

/-- To strike off the places of a node queues the nodes that they release. -/
theorem foldl_strike {rest : List α} : ∀ {ps openPlaces : List α}, openPlaces.Perm (ps ++ rest) →
    ∀ queue emitted : List α, ps.foldl Emission.strike ⟨queue, countIn openPlaces, emitted⟩ =
      ⟨queue ++ (release ps openPlaces).1, countIn (release ps openPlaces).2, emitted⟩
  | [], openPlaces, _, queue, emitted => by simp [release]
  | p :: ps, openPlaces, h, queue, emitted => by
    obtain ⟨hp, hless⟩ := perm_erase h
    rw [List.foldl_cons, Emission.strike, release, if_pos hp]
    simp only [update_sub_countIn hp, countIn_sub_eq_zero hp]
    by_cases hstill : p ∈ openPlaces.erase p
    · rw [if_neg (not_not_intro hstill), if_pos hstill, foldl_strike hless]
    · rw [if_pos hstill, if_neg hstill, foldl_strike hless, List.append_assoc]
      rfl

/-- **The second pass emits what is pending.** -/
theorem Pending.emits {queue rest openPlaces : List α} (h : Pending parents queue rest openPlaces)
    (emitted : List α) :
    Emits parents ⟨queue, countIn openPlaces, emitted⟩
      (emitted ++ emit parents queue openPlaces).reverse := by
  fun_induction emit parents queue openPlaces generalizing rest emitted with
  | case1 openPlaces =>
    rw [List.append_nil]
    exact .done
  | case2 a queue openPlaces ih =>
    have hrec := ih h.step (emitted ++ [a])
    rw [List.append_assoc, List.singleton_append] at hrec
    refine .take ?_
    rw [foldl_strike h.places_cons]
    exact hrec

/-! ## 4. The passes together -/

/-- **Where there are finitely many ancestors and no cycle, the two passes end**, and they give the
listing. -/
theorem reconstructs_iff {bound : Nat} {nodes steps : List α} (hacyclic : Acyclic parents root)
    (hmem : ∀ x, Ancestor parents root x → x ∈ nodes) (hlen : nodes.length ≤ bound) :
    Reconstructs parents root steps ↔ steps = listing parents bound root := by
  have hlen' : nodes.length ≤ ([] : List α).length + bound := by simpa using hlen
  have hstart := Explored.start parents root
  obtain ⟨hnodup, hall⟩ := Explored.ancestors_spec hmem bound hstart hlen'
  have hlisting : Reconstructs parents root (listing parents bound root) :=
    ⟨_, Explored.surveys hmem bound hstart hlen', (pending_root hnodup hall hacyclic).emits []⟩
  exact ⟨fun h => h.unique hlisting, fun h => h ▸ hlisting⟩

end Clausal.Derivation

namespace Clausal

open Clausal.Derivation

/-- **The proof is an exact listing.**  Let the empty clause have been found, and let it and all that it
was derived from be kept, without a cycle; parents may be listed twice, they may be shared, and they
need not be stored.  Then the two passes from the empty clause end, and their only result is the proof.
It has the empty clause and every ancestor of it, each once, and nothing else; every parent of a clause
stands at an earlier place; and the empty clause stands last. -/
theorem proof_is_an_exact_listing (kb : KnowledgeBase) {root : Ref}
    (hroot : kb.emptyClause = some root)
    (hkept : ∀ r, Ancestor kb.parents root r → ∃ e, kb.entry? r = some e)
    (hacyclic : Acyclic kb.parents root) :
    (∀ steps, Reconstructs kb.parents root steps ↔ steps = kb.proof) ∧
    kb.proof.Nodup ∧
    (∀ r, r ∈ kb.proof ↔ Ancestor kb.parents root r) ∧
    (∀ (k : Nat) (r : Ref), kb.proof[k]? = some r → ∀ p ∈ kb.parents r,
      ∃ j < k, kb.proof[j]? = some p) ∧
    kb.proof.getLast? = some root := by
  have hrefs : ∀ r, Ancestor kb.parents root r → r ∈ kb.refs := by
    intro r hr
    obtain ⟨e, he⟩ := hkept r hr
    exact KnowledgeBase.mem_refs_of_kept he
  rw [kb.proof_eq_listing hroot]
  exact ⟨fun steps => reconstructs_iff hacyclic hrefs (Nat.le_refl _),
    listing_spec hacyclic hrefs (Nat.le_refl _)⟩

/-- A clause that is offered with a parent outside of the store, listed twice, whose own parent is
another parent of the clause. -/
def tangledOffer : List Call := [
  .ingest [.text "P(a())"] "",
  .offer [⟨⟨.ofList [⟨true, "Q", []⟩], [.stored 0], ""⟩, 0⟩]
    ⟨.ofList [⟨true, "P", [.var "x"]⟩], [.outside 0, .stored 0, .outside 0], ""⟩,
  .round]

/-- The order of the clauses of `tangledOffer`. -/
def tangledSteps : List Ref := [.stored 0, .outside 0, .stored 1, .outside 1]

/-- The first clause is a parent of three others, and comes before all of them. -/
theorem tangledOffer_is_listed :
    let kb := (Session.ofCalls tangledOffer).kb
    [Ref.outside 1, .stored 1, .outside 0].map kb.parents =
      [[.stored 0, .stored 1], [.outside 0, .stored 0, .outside 0], [.stored 0]] ∧
    kb.emptyClause = some (.outside 1) ∧
    Reconstructs kb.parents (.outside 1) tangledSteps ∧
    ∀ r, r ∈ tangledSteps ↔ Ancestor kb.parents (.outside 1) r := by
  intro kb
  have hroot : kb.emptyClause = some (.outside 1) := by decide +kernel
  have hproof : kb.proof = tangledSteps := by decide +kernel
  have hclosed : ∀ a ∈ tangledSteps, ∀ p ∈ kb.parents a,
      p ∈ tangledSteps ∧ tangledSteps.idxOf p < tangledSteps.idxOf a := by decide +kernel
  have hentry : ∀ r ∈ tangledSteps, (kb.entry? r).isSome = true := by decide +kernel
  have hmem : ∀ r, Ancestor kb.parents (.outside 1) r → r ∈ tangledSteps := fun r hr =>
    hr.induct (P := (· ∈ tangledSteps)) (by decide) fun a ha p hp => (hclosed a ha p hp).1
  obtain ⟨hpasses, -, hall, -⟩ := proof_is_an_exact_listing kb hroot
    (fun r hr => Option.isSome_iff_exists.mp (hentry r (hmem r hr)))
    (acyclic_of_rank (tangledSteps.idxOf ·) fun a ha p hp => (hclosed a (hmem a ha) p hp).2)
  rw [hproof] at hpasses hall
  exact ⟨by decide +kernel, hroot, (hpasses _).mpr rfl, hall⟩

end Clausal

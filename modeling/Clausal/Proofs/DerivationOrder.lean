/-
# Derivations are listed in order

`Derivation.listing` puts a node and its ancestors in a line.  If no node is among its own ancestors,
and there are not more ancestors than the bound allows, the line has every ancestor once and nothing
else, every node stands after all of its parents, and the node that was asked for stands last
(`listing_spec`).  A parent may be listed more than once, and by many nodes.

The argument has three parts.

* The search from the root keeps a list of nodes that were seen, of which a first part has been looked
  at (`Explored`).  The list has no repetition, so the bound is reached only when all have been
  looked at.
* To pass the places of a node takes exactly these places from those that are open, and releases the
  nodes that are in no other open place (`release_spec`).
* While nodes are emitted, the open places are those of the nodes that remain, and the queue has the
  remaining nodes that are in no open place (`Pending`).  So a node is emitted when all nodes that
  list it have been, and the queue becomes empty only with the last node, because among finitely many
  nodes without a cycle some node is listed by none of them.
-/
import Clausal.Derivation
import Clausal.Distinct
import Mathlib.Data.Fintype.Card
import Mathlib.Data.List.Perm.Subperm
import Mathlib.Data.Set.Finite.Basic
import Mathlib.Logic.Relation
import Mathlib.Order.WellFounded

namespace Clausal.Derivation

open Relation

variable {α : Type} {parents : α → List α} {root : α}

/-- `p` is a parent of `a`. -/
def Lists (parents : α → List α) (a p : α) : Prop :=
  p ∈ parents a

/-- `x` is `root`, or a parent of it, or a parent of a parent, and so on. -/
def Ancestor (parents : α → List α) (root x : α) : Prop :=
  ReflTransGen (Lists parents) root x

/-- No ancestor of `root` is reached from itself by going to parents. -/
def Acyclic (parents : α → List α) (root : α) : Prop :=
  ∀ a, Ancestor parents root a → ¬ TransGen (Lists parents) a a

/-- What holds of the root and passes on to parents holds of all ancestors. -/
theorem Ancestor.induct {P : α → Prop} (hroot : P root) (step : ∀ a, P a → ∀ p ∈ parents a, P p)
    {x : α} (h : Ancestor parents root x) : P x := by
  induction h with
  | refl => exact hroot
  | tail _ hp ih => exact step _ ih _ hp

/-- Where parents come before their nodes in some numbering, there is no cycle. -/
theorem acyclic_of_rank (rank : α → Nat)
    (h : ∀ a, Ancestor parents root a → ∀ p ∈ parents a, rank p < rank a) :
    Acyclic parents root := by
  have hless : ∀ {a b}, Ancestor parents root a → TransGen (Lists parents) a b →
      rank b < rank a := by
    intro a b ha hab
    induction hab with
    | single hp => exact h a ha _ hp
    | tail hab hp ih => exact Nat.lt_trans (h _ (ha.trans hab.to_reflTransGen) _ hp) ih
  exact fun a ha haa => Nat.lt_irrefl _ (hless ha haa)

/-! ## 1. The search for ancestors -/

/-- The nodes in `done` have been looked at, those in `queue` have been seen. -/
structure Explored (parents : α → List α) (root : α) (done queue : List α) : Prop where
  nodup : (done ++ queue).Nodup
  root_mem : root ∈ done ++ queue
  closed : ∀ a ∈ done, ∀ p ∈ parents a, p ∈ done ++ queue
  ancestor : ∀ x ∈ done ++ queue, Ancestor parents root x

namespace Explored

variable {done queue : List α}

theorem start (parents : α → List α) (root : α) : Explored parents root [] [root] where
  nodup := List.nodup_singleton root
  root_mem := List.mem_singleton_self root
  closed := fun a ha => absurd ha List.not_mem_nil
  ancestor := by
    intro x hx
    rw [List.nil_append, List.mem_singleton] at hx
    rw [hx]
    exact ReflTransGen.refl

/-- To look at a node moves it from the queue to what is done, and adds what is new at the end. -/
theorem seen_append (done queue new : List α) (a : α) :
    done ++ [a] ++ (queue ++ new) = done ++ a :: queue ++ new := by
  simp

variable [DecidableEq α]

/-- **The step.**  To look at a node is to see those of its parents that were not seen before. -/
theorem step {a : α} (h : Explored parents root done (a :: queue)) :
    Explored parents root (done ++ [a])
      (queue ++ (parents a).eraseDups.filter (· ∉ done ++ a :: queue)) := by
  constructor
  · rw [seen_append, List.nodup_append]
    refine ⟨h.nodup, (nodup_eraseDups _).filter _, ?_⟩
    rintro x hx _ hnew rfl
    have := (List.mem_filter.mp hnew).2
    simp only [decide_eq_true_eq] at this
    exact this hx
  · rw [seen_append]
    exact List.mem_append_left _ h.root_mem
  · intro b hb p hp
    rw [seen_append]
    rcases List.mem_append.mp hb with hb | hb
    · exact List.mem_append_left _ (h.closed b hb p hp)
    · rw [List.mem_singleton.mp hb] at hp
      by_cases hseen : p ∈ done ++ a :: queue
      · exact List.mem_append_left _ hseen
      · refine List.mem_append_right _ (List.mem_filter.mpr ⟨List.mem_eraseDups.mpr hp, ?_⟩)
        simpa only [decide_eq_true_eq] using hseen
  · rw [seen_append]
    intro x hx
    rcases List.mem_append.mp hx with hx | hx
    · exact h.ancestor x hx
    · have hp : x ∈ parents a := List.mem_eraseDups.mp (List.mem_filter.mp hx).1
      exact (h.ancestor a (by simp)).tail hp

omit [DecidableEq α] in
/-- Where all that was seen has been looked at, all ancestors have been seen. -/
theorem mem_iff (h : Explored parents root done []) {x : α} :
    x ∈ done ↔ Ancestor parents root x := by
  have happ : done ++ [] = done := List.append_nil done
  constructor
  · intro hx
    exact h.ancestor x (happ.symm ▸ hx)
  · intro hx
    refine hx.induct (P := (· ∈ done)) (happ ▸ h.root_mem) ?_
    intro a ha p hp
    exact happ ▸ h.closed a ha p hp

omit [DecidableEq α] in
/-- Not more nodes are seen than there are ancestors. -/
theorem length_le (h : Explored parents root done queue) {nodes : List α}
    (hmem : ∀ x, Ancestor parents root x → x ∈ nodes) :
    done.length + queue.length ≤ nodes.length := by
  rw [← List.length_append]
  exact (List.subperm_of_subset h.nodup fun x hx => hmem x (h.ancestor x hx)).length_le

/-- **The search.**  Where the bound allows for all ancestors, the search sees each of them once. -/
theorem ancestors_spec {nodes : List α} (hmem : ∀ x, Ancestor parents root x → x ∈ nodes) :
    ∀ (bound : Nat) {done queue : List α}, Explored parents root done queue →
      nodes.length ≤ done.length + bound →
        (ancestors parents bound queue (done ++ queue)).Nodup ∧
          ∀ x, x ∈ ancestors parents bound queue (done ++ queue) ↔ Ancestor parents root x
  | 0, done, queue, h, hlen => by
    have hle := h.length_le hmem
    obtain rfl : queue = [] := List.eq_nil_of_length_eq_zero (by omega)
    rw [List.append_nil, ancestors]
    exact ⟨List.append_nil done ▸ h.nodup, fun x => h.mem_iff⟩
  | bound + 1, done, [], h, _ => by
    rw [List.append_nil, ancestors]
    exact ⟨List.append_nil done ▸ h.nodup, fun x => h.mem_iff⟩
  | bound + 1, done, a :: queue, h, hlen => by
    have hrec := ancestors_spec hmem bound h.step (by
      rw [List.length_append, List.length_singleton]
      omega)
    rw [seen_append] at hrec
    rw [ancestors]
    exact hrec

end Explored

/-! ## 2. Releasing parents -/

variable [DecidableEq α]

/-- A place that is passed is open, and is taken from those that are. -/
theorem perm_erase {p : α} {ps rest openPlaces : List α} (h : openPlaces.Perm (p :: ps ++ rest)) :
    p ∈ openPlaces ∧ (openPlaces.erase p).Perm (ps ++ rest) := by
  rw [List.cons_append] at h
  obtain ⟨hp, hless⟩ := List.cons_perm_iff_perm_erase.mp h.symm
  exact ⟨hp, hless.symm⟩

/-- **To pass places** is to take them from those that are open, and to release the nodes that are in
none of the places which remain. -/
theorem release_spec {rest : List α} : ∀ {ps openPlaces : List α}, openPlaces.Perm (ps ++ rest) →
    (release ps openPlaces).2.Perm rest ∧ (release ps openPlaces).1.Nodup ∧
      ∀ x, x ∈ (release ps openPlaces).1 ↔ x ∈ ps ∧ x ∉ rest
  | [], openPlaces, h => ⟨h, List.nodup_nil, by simp [release]⟩
  | p :: ps, openPlaces, h => by
    obtain ⟨hp, hless⟩ := perm_erase h
    have hstill : p ∈ openPlaces.erase p ↔ p ∈ ps ∨ p ∈ rest := by
      rw [hless.mem_iff, List.mem_append]
    obtain ⟨hperm, hnodup, hmem⟩ := release_spec hless
    rw [release, if_pos hp]
    dsimp only
    split
    · rename_i hopen
      refine ⟨hperm, hnodup, fun x => ?_⟩
      rw [hmem, List.mem_cons]
      constructor
      · exact fun hx => ⟨Or.inr hx.1, hx.2⟩
      · rintro ⟨rfl | hx, hrest⟩
        · exact ⟨(hstill.mp hopen).resolve_right hrest, hrest⟩
        · exact ⟨hx, hrest⟩
    · rename_i hlast
      rw [hstill, not_or] at hlast
      refine ⟨hperm, List.nodup_cons.mpr ⟨fun hx => hlast.1 ((hmem p).mp hx).1, hnodup⟩, fun x => ?_⟩
      rw [List.mem_cons, hmem, List.mem_cons]
      constructor
      · rintro (rfl | hx)
        · exact ⟨Or.inl rfl, hlast.2⟩
        · exact ⟨Or.inr hx.1, hx.2⟩
      · rintro ⟨hx | hx, hrest⟩
        · exact Or.inl hx
        · exact Or.inr ⟨hx, hrest⟩

/-! ## 3. Emitting nodes -/

/-- The nodes in `rest` have not been emitted yet: the open places are theirs, and those of them that
are in no open place are in the queue. -/
structure Pending (parents : α → List α) (queue rest openPlaces : List α) : Prop where
  nodup_rest : rest.Nodup
  nodup_queue : queue.Nodup
  mem_queue : ∀ x, x ∈ queue ↔ x ∈ rest ∧ x ∉ openPlaces
  places : openPlaces.Perm (rest.flatMap parents)
  closed : ∀ a ∈ rest, ∀ p ∈ parents a, p ∈ rest

namespace Pending

variable {a : α} {queue rest openPlaces : List α}

omit [DecidableEq α] in
theorem mem_openPlaces (h : Pending parents queue rest openPlaces) {x : α} :
    x ∈ openPlaces ↔ ∃ b ∈ rest, x ∈ parents b := by
  rw [h.places.mem_iff, List.mem_flatMap]

omit [DecidableEq α] in
/-- What comes up in the queue is listed by no node that remains. -/
theorem not_listed (h : Pending parents (a :: queue) rest openPlaces) :
    ∀ b ∈ rest, a ∉ parents b := by
  intro b hb hab
  exact ((h.mem_queue a).mp List.mem_cons_self).2 (h.mem_openPlaces.mpr ⟨b, hb, hab⟩)

theorem places_cons (h : Pending parents (a :: queue) rest openPlaces) :
    openPlaces.Perm (parents a ++ (rest.erase a).flatMap parents) := by
  have ha : a ∈ rest := ((h.mem_queue a).mp List.mem_cons_self).1
  have := (List.perm_cons_erase ha).flatMap_right parents
  rw [List.flatMap_cons] at this
  exact h.places.trans this

/-- **The step.**  To emit a node is to close its places and to queue what they release. -/
theorem step (h : Pending parents (a :: queue) rest openPlaces) :
    Pending parents (queue ++ (release (parents a) openPlaces).1) (rest.erase a)
      (release (parents a) openPlaces).2 := by
  obtain ⟨hperm, hnodup, hmem⟩ := release_spec h.places_cons
  have hopen : ∀ x, x ∈ openPlaces ↔ x ∈ parents a ∨ x ∈ (release (parents a) openPlaces).2 := by
    intro x
    rw [h.places_cons.mem_iff, List.mem_append, hperm.mem_iff]
  have hqueue := List.nodup_cons.mp h.nodup_queue
  have ha := (h.mem_queue a).mp List.mem_cons_self
  constructor
  · exact h.nodup_rest.erase a
  · rw [List.nodup_append]
    refine ⟨hqueue.2, hnodup, ?_⟩
    rintro x hx _ hreleased rfl
    have hclosed := ((h.mem_queue x).mp (List.mem_cons_of_mem _ hx)).2
    exact hclosed ((hopen x).mpr (Or.inl ((hmem x).mp hreleased).1))
  · intro x
    rw [List.mem_append, hmem, ← hperm.mem_iff, h.nodup_rest.mem_erase_iff]
    constructor
    · rintro (hx | ⟨hx, hnot⟩)
      · obtain ⟨hrest, hclosed⟩ := (h.mem_queue x).mp (List.mem_cons_of_mem _ hx)
        refine ⟨⟨?_, hrest⟩, fun hx' => hclosed ((hopen x).mpr (Or.inr hx'))⟩
        rintro rfl
        exact hqueue.1 hx
      · refine ⟨⟨?_, h.closed a ha.1 x hx⟩, hnot⟩
        rintro rfl
        exact h.not_listed x ha.1 hx
    · rintro ⟨⟨hne, hrest⟩, hnot⟩
      by_cases hx : x ∈ parents a
      · exact Or.inr ⟨hx, hnot⟩
      · have hx' := (h.mem_queue x).mpr ⟨hrest, fun hx' => ((hopen x).mp hx').elim hx hnot⟩
        exact Or.inl ((List.mem_cons.mp hx').resolve_left hne)
  · exact hperm
  · intro b hb p hp
    have hb' := List.mem_of_mem_erase hb
    refine (List.mem_erase_of_ne ?_).mpr (h.closed b hb' p hp)
    rintro rfl
    exact h.not_listed b hb' hp

end Pending

omit [DecidableEq α] in
/-- **Among finitely many nodes without a cycle some node is listed by none of them.** -/
theorem exists_unlisted {rest : List α} (hacyclic : ∀ a ∈ rest, ¬ TransGen (Lists parents) a a)
    (hne : rest ≠ []) : ∃ x ∈ rest, ∀ a ∈ rest, x ∉ parents a := by
  let before : {x // x ∈ rest} → {x // x ∈ rest} → Prop :=
    fun a p => TransGen (Lists parents) a.1 p.1
  have : Finite {x // x ∈ rest} := rest.finite_toSet.to_subtype
  have : IsTrans _ before := ⟨fun _ _ _ hab hbc => TransGen.trans hab hbc⟩
  have : Std.Irrefl before := ⟨fun a ha => hacyclic a.1 a.2 ha⟩
  have hwf : WellFounded before := Finite.wellFounded_of_trans_of_irrefl before
  obtain ⟨y, hy⟩ := List.exists_mem_of_ne_nil rest hne
  obtain ⟨x, -, hmin⟩ := hwf.has_min Set.univ ⟨⟨y, hy⟩, trivial⟩
  refine ⟨x.1, x.2, ?_⟩
  intro a ha hx
  exact hmin ⟨a, ha⟩ trivial (TransGen.single hx)

/-- **All nodes that remain are emitted**, each once, and none before a node that lists it. -/
theorem emit_spec {queue rest openPlaces : List α} (h : Pending parents queue rest openPlaces)
    (hacyclic : ∀ a ∈ rest, ¬ TransGen (Lists parents) a a) :
    (emit parents queue openPlaces).Perm rest ∧
      (emit parents queue openPlaces).Pairwise fun a b => a ∉ parents b := by
  fun_induction emit parents queue openPlaces generalizing rest with
  | case1 openPlaces =>
    -- Nothing is in the queue, so every node that remains is listed by one of them.
    have hnil : rest = [] := by
      by_contra hne
      obtain ⟨x, hx, hunlisted⟩ := exists_unlisted hacyclic hne
      refine List.not_mem_nil ((h.mem_queue x).mpr ⟨hx, fun hopen => ?_⟩)
      obtain ⟨b, hb, hxb⟩ := h.mem_openPlaces.mp hopen
      exact hunlisted b hb hxb
    rw [hnil]
    exact ⟨List.Perm.refl _, List.Pairwise.nil⟩
  | case2 a queue openPlaces ih =>
    obtain ⟨hperm, hpair⟩ := ih h.step fun b hb => hacyclic b (List.mem_of_mem_erase hb)
    have ha : a ∈ rest := ((h.mem_queue a).mp List.mem_cons_self).1
    refine ⟨(hperm.cons a).trans (List.perm_cons_erase ha).symm, List.pairwise_cons.mpr ⟨?_, hpair⟩⟩
    intro b hb
    exact h.not_listed b (List.mem_of_mem_erase (hperm.mem_iff.mp hb))

/-! ## 4. The order -/

omit [DecidableEq α] in
/-- The root is emitted first, as the only node that no ancestor lists. -/
theorem pending_root {nodes : List α} (hnodup : nodes.Nodup)
    (hmem : ∀ x, x ∈ nodes ↔ Ancestor parents root x) (hacyclic : Acyclic parents root) :
    Pending parents [root] nodes (nodes.flatMap parents) where
  nodup_rest := hnodup
  nodup_queue := List.nodup_singleton root
  mem_queue := by
    intro x
    rw [List.mem_singleton, List.mem_flatMap, hmem]
    constructor
    · rintro rfl
      refine ⟨ReflTransGen.refl, ?_⟩
      rintro ⟨a, ha, hx⟩
      exact hacyclic x ReflTransGen.refl (TransGen.tail' ((hmem a).mp ha) hx)
    · rintro ⟨hx, hunlisted⟩
      rcases ReflTransGen.cases_tail hx with hroot | ⟨a, ha, hxa⟩
      · exact hroot
      · exact absurd ⟨a, (hmem a).mpr ha, hxa⟩ hunlisted
  places := List.Perm.refl _
  closed := by
    intro a ha p hp
    exact (hmem p).mpr (((hmem a).mp ha).tail hp)

/-- **The listing is exact and in order.**  It has the root and all ancestors, each once, and nothing
else; every parent of a node stands at an earlier place; and the root stands last. -/
theorem listing_spec {bound : Nat} {nodes : List α} (hacyclic : Acyclic parents root)
    (hmem : ∀ x, Ancestor parents root x → x ∈ nodes) (hlen : nodes.length ≤ bound) :
    (listing parents bound root).Nodup ∧
    (∀ x, x ∈ listing parents bound root ↔ Ancestor parents root x) ∧
    (∀ (k : Nat) (a : α), (listing parents bound root)[k]? = some a → ∀ p ∈ parents a,
      ∃ j < k, (listing parents bound root)[j]? = some p) ∧
    (listing parents bound root).getLast? = some root := by
  obtain ⟨hnodup, hall⟩ :=
    Explored.ancestors_spec hmem bound (Explored.start parents root) (by simpa using hlen)
  rw [List.nil_append] at hnodup hall
  have hpending := pending_root hnodup hall hacyclic
  obtain ⟨hperm, hpair⟩ := emit_spec hpending fun a ha => hacyclic a ((hall a).mp ha)
  have hnodup' : (listing parents bound root).Nodup :=
    List.nodup_reverse.mpr (hperm.nodup_iff.mpr hnodup)
  have hmem' : ∀ x, x ∈ listing parents bound root ↔ Ancestor parents root x := by
    intro x
    rw [listing, List.mem_reverse, hperm.mem_iff, hall]
  refine ⟨hnodup', hmem', ?_, ?_⟩
  · intro k a hk p hp
    have ha := (hmem' a).mp (List.mem_of_getElem? hk)
    obtain ⟨j, hj⟩ := List.mem_iff_getElem?.mp ((hmem' p).mpr (ha.tail hp))
    refine ⟨j, ?_, hj⟩
    -- At the same place the node would be its own parent, and no later one lists an earlier one.
    have hpair' : (listing parents bound root).Pairwise fun b c => c ∉ parents b :=
      List.pairwise_reverse.mpr hpair
    obtain ⟨hkl, hka⟩ := List.getElem?_eq_some_iff.mp hk
    obtain ⟨hjl, hjp⟩ := List.getElem?_eq_some_iff.mp hj
    rcases Nat.lt_trichotomy j k with hlt | rfl | hgt
    · exact hlt
    · have hap : a = p := hka.symm.trans hjp
      subst hap
      exact absurd (TransGen.single hp) (hacyclic a ha)
    · have := List.pairwise_iff_getElem.mp hpair' k j hkl hjl hgt
      rw [hka, hjp] at this
      exact absurd hp this
  · rw [listing, List.getLast?_reverse, emit]
    rfl

end Clausal.Derivation

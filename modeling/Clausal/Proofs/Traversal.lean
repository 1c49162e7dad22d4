/-
# Traversals that may fail

A function that may fail on a member is carried through a list or a term.  In a list the whole fails
exactly if some member fails (`mapM_eq_none_iff`), and in a term if some variable does
(`traverse_eq_none_iff`).  Where it does not fail, a traversal of a term is a substitution: that of
the results for its variables (`subst_of_traverse`).
-/
import Clausal.Substitution

namespace Clausal

/-! ## 1. Lists of optional results -/

section MapM

variable {α β : Type} {f : α → Option β}

theorem mapM_eq_none_iff : ∀ {l : List α}, l.mapM f = none ↔ ∃ a ∈ l, f a = none
  | [] => by simp
  | a :: l => by
    have hcons : (a :: l).mapM f = none ↔ f a = none ∨ l.mapM f = none := by
      rw [List.mapM_cons]
      cases f a <;> cases l.mapM f <;> simp
    rw [hcons, mapM_eq_none_iff]
    simp

theorem mapM_eq_some_map {g : α → β} : ∀ {l : List α}, (∀ a ∈ l, f a = some (g a)) →
    l.mapM f = some (l.map g)
  | [], _ => rfl
  | a :: l, h => by
    obtain ⟨ha, hl⟩ := List.forall_mem_cons.mp h
    rw [List.mapM_cons, ha, mapM_eq_some_map hl]
    rfl

end MapM

/-! ## 2. Terms -/

namespace Term

variable {f : String → Option Term} {θ : String → Term} {t u : Term}

theorem traverseList_eq_mapM : ∀ ts : List Term, traverseList f ts = ts.mapM (traverse f)
  | [] => rfl
  | t :: ts => by
    rw [traverseList, traverseList_eq_mapM ts, List.mapM_cons]
    cases traverse f t with
    | none => rfl
    | some u => cases ts.mapM (traverse f) <;> rfl

@[simp] theorem traverse_var (x : String) : traverse f (.var x) = f x := rfl

theorem traverse_app (g : String) (ts : List Term) :
    traverse f (.app g ts) = (ts.mapM (traverse f)).map (.app g) := by
  rw [traverse, traverseList_eq_mapM]

/-- A term has a result if all its variables have one. -/
theorem traverse_eq_some_subst (h : ∀ x ∈ t.vars, f x = some (θ x)) :
    traverse f t = some (t.subst θ) := by
  induction t with
  | var x => exact h x (by simp)
  | app g ts ih =>
    have hts : ts.mapM (traverse f) = some (ts.map (subst θ)) := by
      refine mapM_eq_some_map fun s hs => ih s hs fun x hx => h x ?_
      rw [vars_app, List.mem_flatMap]
      exact ⟨s, hs, hx⟩
    rw [traverse_app, hts, subst_app]
    rfl

/-- A term whose variables stay as they are stays as it is. -/
theorem traverse_eq_self (h : ∀ x ∈ t.vars, f x = some (.var x)) : traverse f t = some t := by
  rw [traverse_eq_some_subst h, subst_id]

/-- A term has no result exactly if one of its variables has none. -/
theorem traverse_eq_none_iff : traverse f t = none ↔ ∃ x ∈ t.vars, f x = none := by
  induction t with
  | var x => simp
  | app g ts ih =>
    rw [traverse_app, Option.map_eq_none_iff, mapM_eq_none_iff]
    simp only [vars_app, List.mem_flatMap]
    constructor
    · rintro ⟨s, hs, hnone⟩
      obtain ⟨x, hx, hfx⟩ := (ih s hs).mp hnone
      exact ⟨x, ⟨s, hs, hx⟩, hfx⟩
    · rintro ⟨x, ⟨s, hs, hx⟩, hfx⟩
      exact ⟨s, hs, (ih s hs).mpr ⟨x, hx, hfx⟩⟩

/-- Where a term has a result, so have its variables. -/
theorem traverse_vars (h : traverse f t = some u) :
    ∀ x ∈ t.vars, f x = some ((f x).getD (.var x)) := by
  intro x hx
  cases hfx : f x with
  | some v => rfl
  | none =>
    have hnone : traverse f t = none := traverse_eq_none_iff.mpr ⟨x, hx, hfx⟩
    rw [h] at hnone
    exact absurd hnone (by simp)

/-- The result, where there is one, is that of a substitution, the same for all terms. -/
theorem subst_of_traverse (h : traverse f t = some u) :
    t.subst (fun x => (f x).getD (.var x)) = u := by
  have hsome := traverse_eq_some_subst (traverse_vars h)
  exact Option.some.inj (hsome.symm.trans h)

end Term

end Clausal

/-
# The unifier is sound and most general

Working through a queue of equations is a sequence of reductions, and each of them keeps the set of
substitutions that satisfy the queue: a split replaces an equation by equivalent ones, a binding
of `x` to `t` restricts to the substitutions that make `x` and `t` equal, and a clash is met only
when nothing satisfies the equation.  Two statements follow, both by induction along `solve`.

* `solve_sound`: the result is what was bound before, followed by a substitution that satisfies
  the queue.
* `solve_most_general`: a substitution that satisfies the queue, and that the bindings made so far
  do not change, is not changed by the result either; and then there is a result.

Both rest on one equation, `image_record`: to record a binding is to replace its variable in every
image.  For two terms they become `unify?_sound` and `unify?_most_general`.
-/
import Clausal.Proofs.Instance

namespace Clausal

/-! ## 1. Replacing a variable, and the occurs check -/

namespace Term

variable {θ : String → Term} {x : String} {t u : Term}

theorem subst_replace (t : Term) (x : String) (u : Term) (θ : String → Term) :
    (t.replace x u).subst θ = t.subst fun y => (if y = x then u else var y).subst θ :=
  subst_subst _ θ t

/-- A substitution that makes `x` and `u` equal does not see that `x` was replaced by `u`. -/
theorem subst_replace_of_eq (h : θ x = u.subst θ) : (t.replace x u).subst θ = t.subst θ := by
  rw [subst_replace]
  refine subst_congr fun y _ => ?_
  split
  · rename_i hy
    rw [hy, h]
  · rfl

theorem replace_of_not_mem (h : x ∉ t.vars) : t.replace x u = t := by
  calc t.replace x u
      = t.subst var := subst_congr fun y hy => if_neg fun (e : y = x) => h (e ▸ hy)
    _ = t := subst_id t

theorem size_le_sizeList {t : Term} : ∀ {ts : List Term}, t ∈ ts → t.size ≤ sizeList ts
  | s :: ts, h => by
    rw [sizeList_cons]
    rcases List.mem_cons.mp h with rfl | h
    · omega
    · have := size_le_sizeList h
      omega

/-- The image of a variable is no larger than that of a term in which it occurs. -/
theorem size_le_size_subst (h : x ∈ t.vars) : (θ x).size ≤ (t.subst θ).size := by
  induction t with
  | var y =>
    rw [vars_var, List.mem_singleton] at h
    subst h
    exact Nat.le_refl _
  | app f ts ih =>
    simp only [vars_app, List.mem_flatMap] at h
    obtain ⟨t, ht, hx⟩ := h
    have h₁ := ih t ht hx
    have h₂ : (t.subst θ).size ≤ sizeList (ts.map (subst θ)) :=
      size_le_sizeList (List.mem_map_of_mem ht)
    rw [subst_app, size_app]
    omega

/-- **The occurs check.**  No substitution makes a variable equal to a larger term that it occurs
in. -/
theorem subst_ne_of_occurs (h : x ∈ t.vars) (hne : t ≠ var x) : θ x ≠ t.subst θ := by
  intro he
  cases t with
  | var y =>
    rw [vars_var, List.mem_singleton] at h
    exact hne (by rw [h])
  | app f ts =>
    simp only [vars_app, List.mem_flatMap] at h
    obtain ⟨t, ht, hx⟩ := h
    have h₁ : (θ x).size ≤ (t.subst θ).size := size_le_size_subst hx
    have h₂ : (t.subst θ).size ≤ sizeList (ts.map (subst θ)) :=
      size_le_sizeList (List.mem_map_of_mem ht)
    rw [he, subst_app, size_app] at h₁
    omega

end Term

/-! ## 2. One reduction -/

/-- `θ` makes the two sides of every equation equal. -/
def Equation.Unified (θ : String → Term) (eqs : List Equation) : Prop :=
  ∀ e ∈ eqs, e.lhs.subst θ = e.rhs.subst θ

namespace Equation

variable {θ : String → Term} {e : Equation} {eqs rest : List Equation} {x : String} {t : Term}

theorem unified_cons :
    Unified θ (e :: rest) ↔ e.lhs.subst θ = e.rhs.subst θ ∧ Unified θ rest := by
  simp [Unified]

theorem unified_append : Unified θ (rest ++ eqs) ↔ Unified θ rest ∧ Unified θ eqs := by
  simp [Unified, or_imp, forall_and]

theorem unified_zipWith : ∀ {ss ts : List Term}, ss.length = ts.length →
    (Unified θ (ss.zipWith Equation.mk ts) ↔ ss.map (Term.subst θ) = ts.map (Term.subst θ))
  | [], [], _ => by simp [Unified]
  | [], _ :: _, h => by simp at h
  | _ :: _, [], h => by simp at h
  | s :: ss, t :: ts, h => by
    rw [List.zipWith_cons_cons, unified_cons, unified_zipWith (by simpa using h)]
    simp

/-- A split keeps the solutions of an equation. -/
theorem unified_split_iff (h : e.reduce = .split eqs) :
    Unified θ eqs ↔ e.lhs.subst θ = e.rhs.subst θ := by
  rcases reduce_eq_split h with ⟨he, rfl⟩ | ⟨f, ss, ts, rfl, hlen, rfl⟩
  · simp [Unified, he]
  · rw [unified_zipWith hlen, Term.subst_app, Term.subst_app]
    simp

/-- A binding is made only of an equation that has the same solutions. -/
theorem unified_bind_iff (h : e.reduce = .bind x t) :
    e.lhs.subst θ = e.rhs.subst θ ↔ θ x = t.subst θ := by
  rcases (reduce_eq_bind h).1 with rfl | rfl
  · rfl
  · exact eq_comm

theorem bindUnlessOccurs_eq_clash (h : bindUnlessOccurs x t = .clash) : x ∈ t.vars := by
  unfold bindUnlessOccurs at h
  split at h
  · rename_i hocc
    exact (Term.occursIn_var x t).mp hocc
  · simp at h

/-- **A clash has no solution.** -/
theorem not_unified_of_clash (h : e.reduce = .clash) : e.lhs.subst θ ≠ e.rhs.subst θ := by
  obtain ⟨a, b⟩ := e
  simp only [reduce] at h
  split at h
  · simp at h
  · rename_i hab
    split at h
    · rename_i y
      exact Term.subst_ne_of_occurs (bindUnlessOccurs_eq_clash h) fun he => hab he.symm
    · rename_i f ss y _
      intro he
      exact Term.subst_ne_of_occurs (bindUnlessOccurs_eq_clash h) hab he.symm
    · split at h
      · simp at h
      · rename_i f ss g ts _ hfg
        intro he
        rw [Term.subst_app, Term.subst_app, Term.app.injEq] at he
        have hlen := congrArg List.length he.2
        rw [List.length_map, List.length_map] at hlen
        exact hfg ⟨he.1, hlen⟩

theorem unified_replaceAll (h : θ x = t.subst θ) :
    Unified θ (replaceAll x t rest) ↔ Unified θ rest := by
  simp [Unified, replaceAll, replace, Term.subst_replace_of_eq h]

end Equation

/-! ## 3. The whole queue -/

namespace Substitution

@[simp] theorem image_empty (x : String) : empty.image x = .var x := rfl

theorem lookup_map_replace (x : String) (t : Term) (y : String) : ∀ bs : List (String × Term),
    (bs.map fun b => (b.1, b.2.replace x t)).lookup y =
      (bs.lookup y).map (·.replace x t)
  | [] => rfl
  | b :: bs => by
    rw [List.map_cons, List.lookup_cons, List.lookup_cons, lookup_map_replace x t y bs]
    split <;> rfl

/-- **To record a binding is to replace its variable in every image.** -/
theorem image_record (σ : Substitution) (x : String) (t : Term) (y : String) :
    (σ.record x t).image y = (σ.image y).replace x t := by
  simp only [image, lookup?, record, List.lookup_append, lookup_map_replace]
  cases hy : σ.bindings.lookup y with
  | some u => rfl
  | none =>
    by_cases hyx : y = x
    · simp [hyx, Term.replace_var]
    · have : (y == x) = false := by simpa using hyx
      simp [List.lookup_cons, this, Term.replace_var, hyx]

end Substitution

namespace Equation

variable {queue : List Equation} {made σ : Substitution}

/-- The result of a queue is what was bound before, followed by a solution of the queue. -/
theorem solve_sound (h : solve queue made = some σ) :
    ∃ η, Unified η queue ∧ ∀ y, σ.image y = (made.image y).subst η := by
  fun_induction solve queue made with
  | case1 made =>
    obtain rfl := Option.some.inj h
    exact ⟨.var, by simp [Unified], by simp⟩
  | case2 => simp at h
  | case3 made e rest eqs hred ih =>
    obtain ⟨η, hη, himg⟩ := ih h
    rw [unified_append, unified_split_iff hred] at hη
    exact ⟨η, unified_cons.mpr hη.symm, himg⟩
  | case4 made e rest x t hred ih =>
    obtain ⟨η, hη, himg⟩ := ih h
    -- The solution of the rest, after `x` has been replaced by `t`.
    let ζ : String → Term := fun y => (if y = x then t else .var y).subst η
    have hζ : ∀ u : Term, (u.replace x t).subst η = u.subst ζ := fun u =>
      Term.subst_replace u x t η
    have hx : ζ x = t.subst ζ := by
      rw [← hζ, Term.replace_of_not_mem (reduce_eq_bind hred).2]
      simp [ζ]
    refine ⟨ζ, unified_cons.mpr ⟨(unified_bind_iff hred).mpr hx, ?_⟩, fun y => ?_⟩
    · intro e' he'
      rw [← hζ, ← hζ]
      exact hη _ (List.mem_map_of_mem he')
    · rw [himg, Substitution.image_record, hζ]

/-- A solution of a queue that the bindings made so far do not change is not changed by the
result, which exists. -/
theorem solve_most_general {θ : String → Term} (h : Unified θ queue)
    (hmade : ∀ y, (made.image y).subst θ = θ y) :
    ∃ σ, solve queue made = some σ ∧ ∀ y, (σ.image y).subst θ = θ y := by
  fun_induction solve queue made with
  | case1 made => exact ⟨made, rfl, hmade⟩
  | case2 made e rest hred =>
    exact absurd (unified_cons.mp h).1 (not_unified_of_clash hred)
  | case3 made e rest eqs hred ih =>
    refine ih ?_ hmade
    rw [unified_append, unified_split_iff hred]
    exact (unified_cons.mp h).symm
  | case4 made e rest x t hred ih =>
    obtain ⟨he, hrest⟩ := unified_cons.mp h
    have hx : θ x = t.subst θ := (unified_bind_iff hred).mp he
    refine ih ((unified_replaceAll hx).mpr hrest) fun y => ?_
    rw [Substitution.image_record, Term.subst_replace_of_eq hx, hmade]

end Equation

/-! ## 4. Two terms, two literals -/

namespace Term

variable {s t : Term} {σ : Substitution}

/-- The unifier of two terms makes them equal. -/
theorem unify?_sound (h : s.unify? t = some σ) : s.subst σ.image = t.subst σ.image := by
  obtain ⟨η, hη, himg⟩ := Equation.solve_sound h
  have hσ : σ.image = η := funext fun y => by rw [himg, Substitution.image_empty, subst_var]
  rw [hσ]
  exact hη ⟨s, t⟩ List.mem_cons_self

/-- **Terms that some substitution makes equal have a unifier**, and the substitution is an
instance of it. -/
theorem unify?_most_general {θ : String → Term} (h : s.subst θ = t.subst θ) :
    ∃ σ, s.unify? t = some σ ∧ ∀ y, (σ.image y).subst θ = θ y := by
  refine Equation.solve_most_general ?_ fun y => by rw [Substitution.image_empty, subst_var]
  intro e he
  rw [List.mem_singleton.mp he]
  exact h

end Term

namespace Literal

variable {l m : Literal} {σ : Substitution}

/-- Literals of one sign are equal under the unifier of their atoms. -/
theorem subst_eq_of_unify? (h : l.unify? m = some σ) (hs : l.negated = m.negated) :
    l.subst σ.image = m.subst σ.image := by
  refine ext_atom hs ?_
  rw [atom_subst, atom_subst]
  exact Term.unify?_sound h

end Literal

end Clausal

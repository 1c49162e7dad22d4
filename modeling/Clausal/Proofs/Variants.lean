/-
# Variants by bijections and by mutual instances

A variant was defined by a renaming that keeps apart the variables of one clause.  Such a renaming
only matters on finitely many names, so it can be taken to be a bijection of all names
(`Variant.exists_perm`).

Two substitutions that *absorb* each other, as two most general unifiers of the same terms do, give
variants of every clause: what one of them leaves as a variable the other one renames
(`Absorbs.variant`).  So it does not matter in which order two terms are unified, and two clauses
have the same resolvents in both orders, up to renaming (`exists_resolvent_swap`).
-/
import Clausal.Proofs.Inference
import Mathlib.Logic.Equiv.Fintype

namespace Clausal

/-! ## 1. Renamings as bijections -/

namespace Clause

variable {c d : Clause}

/-- Two renamings that keep the same names apart differ by a bijection of all names. -/
theorem exists_perm_of_injective {ρ τ : String → String} {xs : List String}
    (hρ : ∀ x ∈ xs, ∀ y ∈ xs, ρ x = ρ y → x = y) (hτ : ∀ x ∈ xs, ∀ y ∈ xs, τ x = τ y → x = y) :
    ∃ π : Equiv.Perm String, ∀ x ∈ xs, π (ρ x) = τ x := by
  have hinj : ∀ {υ : String → String}, (∀ x ∈ xs, ∀ y ∈ xs, υ x = υ y → x = y) →
      Function.Injective fun x : {x // x ∈ xs} => υ x.1 := by
    intro υ hυ x y he
    exact Subtype.ext (hυ x.1 x.2 y.1 y.2 he)
  obtain ⟨π, hπ⟩ := Equiv.Perm.exists_extending_pair (fun x : {x // x ∈ xs} => ρ x.1)
    (fun x => τ x.1) (hinj hρ) (hinj hτ)
  exact ⟨π, fun x hx => hπ ⟨x, hx⟩⟩

/-- **A variant is the image under a bijection of names.** -/
theorem Variant.exists_perm (h : Variant c d) : ∃ π : Equiv.Perm String, c.rename π = d := by
  obtain ⟨ρ, hρ, rfl⟩ := h
  obtain ⟨π, hπ⟩ := exists_perm_of_injective (ρ := id) (fun _ _ _ _ he => he) hρ
  exact ⟨π, rename_congr hπ⟩

/-- Only the empty clause is a variant of the empty clause. -/
theorem Variant.ne_empty (h : Variant c d) (hc : c ≠ empty) : d ≠ empty := by
  obtain ⟨ρ, -, rfl⟩ := h
  exact subst_ne_empty hc

end Clause

/-! ## 2. Substitutions that absorb each other -/

namespace Term

/-- Substitutions with the same effect on a term agree on its variables. -/
theorem eq_of_subst_eq {θ η : String → Term} {t : Term} (h : t.subst θ = t.subst η) :
    ∀ x ∈ t.vars, θ x = η x := by
  induction t with
  | var y => simpa using h
  | app f ts ih =>
    rw [subst_app, subst_app, app.injEq] at h
    intro x hx
    simp only [vars_app, List.mem_flatMap] at hx
    obtain ⟨t, ht, hx⟩ := hx
    exact ih t ht (List.map_inj_left.mp h.2 t ht) x hx

end Term

/-- Each of two substitutions, applied after the other, has the effect that it has alone. -/
structure Absorbs (θ η : String → Term) : Prop where
  left : ∀ x, (θ x).subst η = η x
  right : ∀ x, (η x).subst θ = θ x

namespace Absorbs

variable {θ η : String → Term}

/-- A variable that `θ` leaves somewhere is renamed by `η`, and `θ` takes the new name back. -/
theorem exists_var (h : Absorbs θ η) {x y : String} (hx : x ∈ (θ y).vars) :
    ∃ z, η x = .var z ∧ θ z = .var x := by
  have hround : (θ y).subst (fun z => (η z).subst θ) = (θ y).subst .var := by
    rw [← Term.subst_subst, h.left, h.right, Term.subst_id]
  have hback : (η x).subst θ = .var x := Term.eq_of_subst_eq hround x hx
  cases hη : η x with
  | var z =>
    rw [hη, Term.subst_var] at hback
    exact ⟨z, rfl, hback⟩
  | app f ts =>
    rw [hη, Term.subst_app] at hback
    exact absurd hback (by simp)

/-- **Substitutions that absorb each other give variants.** -/
theorem variant (h : Absorbs θ η) (c : Clause) : Clause.Variant (c.subst θ) (c.subst η) := by
  have hvar : ∀ x ∈ (c.subst θ).vars, ∃ z, η x = .var z ∧ θ z = .var x := by
    intro x hx
    obtain ⟨y, -, hxy⟩ := Clause.mem_vars_subst.mp hx
    exact h.exists_var hxy
  choose! ρ hρ using hvar
  refine ⟨ρ, ?_, ?_⟩
  · intro x hx y hy he
    have hxy : Term.var x = .var y := by rw [← (hρ x hx).2, he, (hρ y hy).2]
    exact Term.var.inj hxy
  · calc c.subst η
        = (c.subst θ).subst η := by
          rw [Clause.subst_subst]
          exact Clause.subst_congr fun x _ => (h.left x).symm
      _ = (c.subst θ).subst fun x => .var (ρ x) :=
          Clause.subst_congr fun x hx => (hρ x hx).1

end Absorbs

/-! ## 3. Unifying and resolving in the other order -/

/-- **The order of two terms does not matter for their unifier**: in the other order there is one
too, and the two absorb each other. -/
theorem Term.unify?_swap {s t : Term} {σ : Substitution} (h : s.unify? t = some σ) :
    ∃ τ, t.unify? s = some τ ∧ Absorbs σ.image τ.image := by
  obtain ⟨τ, hτ, habs⟩ := unify?_most_general (unify?_sound h).symm
  obtain ⟨σ', hσ', habs'⟩ := unify?_most_general (unify?_sound hτ).symm
  rw [h, Option.some.injEq] at hσ'
  subst hσ'
  exact ⟨τ, hτ, habs', habs⟩

namespace Clause

variable {c d r : Clause}

theorem ofList_map_apply (σ : Substitution) (ls : List Literal) :
    ofList (ls.map (Literal.apply σ)) = (ofList ls).subst σ.image := by
  refine ext fun k => ?_
  simp only [mem_ofList, mem_subst, List.mem_map]
  rfl

theorem ofList_append_comm (ls ms : List Literal) : ofList (ls ++ ms) = ofList (ms ++ ls) := by
  refine ext fun k => ?_
  simp only [mem_ofList, List.mem_append]
  exact or_comm

/-- **A resolvent of two clauses is a variant of one in the other order.** -/
theorem exists_resolvent_swap (h : r ∈ d.resolvents c) :
    ∃ r' ∈ c.resolvents d, Variant r r' := by
  obtain ⟨m, l, σ, hm, hl, hs, hσ, rfl⟩ := mem_resolvents.mp h
  obtain ⟨τ, hτ, habs⟩ := Term.unify?_swap hσ
  refine ⟨_, mem_resolvents.mpr ⟨l, m, τ, hl, hm, Ne.symm hs, hτ, rfl⟩, ?_⟩
  rw [ofList_map_apply, ofList_map_apply, ofList_append_comm]
  exact habs.variant _

end Clause

end Clausal

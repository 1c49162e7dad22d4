/-
# Unification and resolution are symmetric

In the other order two terms are unified along other equations, and other variables are bound: `x`
and `y` give a binding of `x` one way and of `y` the other way.  What the two unifiers make of a term
differs by a renaming, the same for all terms.

The renaming comes from the fact that the two absorb each other: what the first one leaves as a
variable the second one renames.  That is a renaming of some names only, and to be a bijection it has
to be completed on the others.  The names that neither unifier binds are mapped to themselves.  The
rest are finitely many, and an injection of some of finitely many names can be completed to a
permutation of them (`Absorbs.exists_perm`).

Two clauses are resolved in the other order by the same pairs of literals in another sequence.  So
there is one resolvent for each resolvent, and it is the same up to renaming (`resolvents_swap`).
-/
import Clausal.Proofs.SolvedForm
import Clausal.Proofs.Variants
import Mathlib.Algebra.Group.End
import Mathlib.Data.List.Forall2
import Mathlib.Data.Multiset.Bind

namespace Clausal

open Equiv

/-! ## 1. Completing a renaming -/

/-- **Substitutions that absorb each other differ by a bijection of names**, if all but finitely many
variables stay as they are under both. -/
theorem Absorbs.exists_perm {θ η : String → Term} (h : Absorbs θ η) (moved : List String)
    (hθ : ∀ x, x ∉ moved → θ x = .var x) (hη : ∀ x, x ∉ moved → η x = .var x) :
    ∃ π : Perm String, ∀ x, η x = (θ x).rename π := by
  -- The variables that `θ` leaves somewhere are renamed by `η`, those that may move among themselves.
  have hrenamed : ∀ x : {x // x ∈ moved ∧ ∃ y, x ∈ (θ y).vars},
      ∃ z : {z // z ∈ moved}, η x = .var z ∧ θ z = .var x := by
    rintro ⟨x, hx, y, hxy⟩
    obtain ⟨z, hz, hback⟩ := h.exists_var hxy
    have hzmoved : z ∈ moved := by
      by_contra hnot
      rw [hθ z hnot] at hback
      exact hnot (Term.var.inj hback ▸ hx)
    exact ⟨⟨z, hzmoved⟩, hz, hback⟩
  choose ρ hρ using hrenamed
  let place : {x // x ∈ moved ∧ ∃ y, x ∈ (θ y).vars} → {x // x ∈ moved} := fun x => ⟨x.1, x.2.1⟩
  have hplace : Function.Injective place := by
    intro x y hxy
    exact Subtype.ext (Subtype.mk.inj hxy)
  have hinj : Function.Injective ρ := by
    intro x y hxy
    have hvar : Term.var x.1 = .var y.1 := by rw [← (hρ x).2, hxy, (hρ y).2]
    exact Subtype.ext (Term.var.inj hvar)
  have : Finite {x // x ∈ moved ∧ ∃ y, x ∈ (θ y).vars} := Finite.of_injective place hplace
  obtain ⟨π, hπ⟩ := Perm.exists_extending_pair place ρ hplace hinj
  refine ⟨Perm.ofSubtype π, fun x => ?_⟩
  have hvars : ∀ y ∈ (θ x).vars, η y = .var (Perm.ofSubtype π y) := by
    intro y hy
    by_cases hmoved : y ∈ moved
    · rw [Perm.ofSubtype_apply_of_mem π hmoved, (hρ ⟨y, hmoved, x, hy⟩).1]
      exact congrArg (fun z => Term.var z.1) (hπ ⟨y, hmoved, x, hy⟩).symm
    · rw [Perm.ofSubtype_apply_of_not_mem π hmoved, hη y hmoved]
  calc η x = (θ x).subst η := (h.left x).symm
    _ = (θ x).rename (Perm.ofSubtype π) := Term.subst_congr hvars

/-! ## 2. Two terms -/

theorem Substitution.image_of_not_mem {σ : Substitution} {x : String}
    (h : x ∉ σ.bindings.map Prod.fst) : σ.image x = .var x :=
  image_of_unbound (lookup?_eq_none_iff.mpr fun _ hb he => h (List.mem_map.mpr ⟨_, hb, he⟩))

namespace Term

variable {s t : Term} {σ τ : Substitution}

theorem unify?_eq_none_comm : s.unify? t = none ↔ t.unify? s = none := by
  simp only [unify?_eq_none_iff, ne_comm]

/-- **The unifiers of two terms in both orders differ by a bijection of names.** -/
theorem unify?_swap_perm (hσ : s.unify? t = some σ) (hτ : t.unify? s = some τ) :
    ∃ π : Perm String, ∀ x, τ.image x = (σ.image x).rename π := by
  obtain ⟨τ', hτ', habs⟩ := unify?_swap hσ
  obtain rfl := Option.some.inj (hτ.symm.trans hτ')
  refine habs.exists_perm (σ.bindings.map Prod.fst ++ τ.bindings.map Prod.fst)
    (fun x hx => ?_) fun x hx => ?_
  · exact Substitution.image_of_not_mem fun h => hx (List.mem_append_left _ h)
  · exact Substitution.image_of_not_mem fun h => hx (List.mem_append_right _ h)

end Term

/-! ## 3. Two clauses -/

/-- What two loops collect does not depend on which of them is the outer one, but for the order. -/
theorem flatMap_filterMap_perm {α β γ : Type} (f : α → β → Option γ) (as : List α) (bs : List β) :
    (as.flatMap fun a => bs.filterMap fun b => f a b).Perm
      (bs.flatMap fun b => as.filterMap fun a => f a b) := by
  simp only [List.filterMap_eq_flatMap_toList]
  rw [← Multiset.coe_eq_coe]
  simp only [← Multiset.coe_bind]
  exact Multiset.bind_bind _ _

namespace Clause

variable {c d : Clause}

/-- Two clauses joined on the same literals in the other order give the same clause up to
renaming. -/
theorem resolventOn?_swap (c d : Clause) (l m : Literal) :
    Option.Rel (fun r r' => ∃ π : Perm String, r' = r.rename π) (c.resolventOn? d l m)
      (d.resolventOn? c m l) := by
  unfold resolventOn?
  by_cases hs : l.negated = m.negated
  · rw [if_pos hs, if_pos hs.symm]
    exact .none
  · rw [if_neg hs, if_neg (Ne.symm hs), Literal.unify?, Literal.unify?]
    cases hσ : l.atom.unify? m.atom with
    | none =>
      rw [Term.unify?_eq_none_comm.mp hσ]
      exact .none
    | some σ =>
      obtain ⟨τ, hτ, -⟩ := Term.unify?_swap hσ
      obtain ⟨π, hπ⟩ := Term.unify?_swap_perm hσ hτ
      have hjoined : ofList ((d.others m ++ c.others l).map (Literal.apply τ)) =
          (ofList ((c.others l ++ d.others m).map (Literal.apply σ))).rename π := by
        rw [ofList_map_apply, ofList_map_apply, ofList_append_comm, rename_eq_subst, subst_subst]
        exact subst_congr fun x _ => hπ x
      rw [hτ]
      exact .some ⟨π, hjoined⟩

/-- **Two clauses have the same resolvents in both orders**, up to their order and renaming. -/
theorem resolvents_swap (c d : Clause) :
    ∃ rs, rs.Perm (d.resolvents c) ∧
      List.Forall₂ (fun r r' => ∃ π : Perm String, r' = r.rename π) (c.resolvents d) rs := by
  refine ⟨c.literals.flatMap fun l => d.literals.filterMap fun m => d.resolventOn? c m l,
    flatMap_filterMap_perm (fun l m => d.resolventOn? c m l) c.literals d.literals, ?_⟩
  refine List.rel_flatMap (R := Eq) (List.forall₂_same.mpr fun _ _ => rfl) ?_
  rintro l _ rfl
  refine List.rel_filterMap (R := Eq) ?_ (List.forall₂_same.mpr fun _ _ => rfl)
  rintro m _ rfl
  exact resolventOn?_swap c d l m

end Clause

/-! ## 4. Both orders -/

/-- **Unification and resolution are symmetric up to renaming.**  Two terms have a unifier in one order
exactly if they have one in the other, and what the two make of any term differs by a bijection of
names, the same for all terms.  And the resolvents of two clauses, which may share variables, can be
listed in such an order that they are those in the other order, each under a bijection of names. -/
theorem unification_and_resolution_are_symmetric :
    (∀ s t : Term, (s.unify? t = none ↔ t.unify? s = none) ∧
      ∀ σ τ, s.unify? t = some σ → t.unify? s = some τ →
        ∃ π : Perm String, ∀ u, ∃ v, σ.expand? u = some v ∧ τ.expand? u = some (v.rename π)) ∧
    ∀ c d : Clause, ∃ rs, rs.Perm (d.resolvents c) ∧
      List.Forall₂ (fun r r' => ∃ π : Perm String, r' = r.rename π) (c.resolvents d) rs := by
  refine ⟨fun s t => ⟨Term.unify?_eq_none_comm, fun σ τ hσ hτ => ?_⟩, Clause.resolvents_swap⟩
  obtain ⟨π, hπ⟩ := Term.unify?_swap_perm hσ hτ
  refine ⟨π, fun u => ⟨σ.apply u, (Term.unify?_solved hσ).expand?_eq u, ?_⟩⟩
  have hrename : τ.apply u = (σ.apply u).rename π := by
    rw [Substitution.apply, Substitution.apply, Term.rename, Term.subst_subst]
    exact Term.subst_congr fun x _ => hπ x
  rw [← hrename]
  exact (Term.unify?_solved hτ).expand?_eq u

/-- `P(x, y)` and `P(z, f(x))`, which share the variable `x`. -/
def sharedAtoms : Term × Term :=
  (.app "P" [.var "x", .var "y"], .app "P" [.var "z", .app "f" [.var "x"]])

/-- The unifiers of `sharedAtoms` bind `x` in one order and `z` in the other; so do the resolvents of two
clauses on these atoms leave the other variable. -/
theorem sharedAtoms_are_symmetric :
    sharedAtoms.1.unify? sharedAtoms.2 =
      some ⟨[("x", .var "z"), ("y", .app "f" [.var "z"])]⟩ ∧
    sharedAtoms.2.unify? sharedAtoms.1 =
      some ⟨[("z", .var "x"), ("y", .app "f" [.var "x"])]⟩ ∧
    (∃ π : Perm String, ∀ u, ∃ v,
      (⟨[("x", .var "z"), ("y", .app "f" [.var "z"])]⟩ : Substitution).expand? u = some v ∧
      (⟨[("z", .var "x"), ("y", .app "f" [.var "x"])]⟩ : Substitution).expand? u =
        some (v.rename π)) ∧
    ∃ c d : Clause, c.resolvents d = [.ofList [⟨false, "Q", [.var "z", .app "f" [.var "z"]]⟩]] ∧
      d.resolvents c = [.ofList [⟨false, "Q", [.var "x", .app "f" [.var "x"]]⟩]] ∧
      ∃ rs, rs.Perm (d.resolvents c) ∧
        List.Forall₂ (fun r r' => ∃ π : Perm String, r' = r.rename π) (c.resolvents d) rs := by
  have hσ : sharedAtoms.1.unify? sharedAtoms.2 =
      some ⟨[("x", .var "z"), ("y", .app "f" [.var "z"])]⟩ := by decide +kernel
  have hτ : sharedAtoms.2.unify? sharedAtoms.1 =
      some ⟨[("z", .var "x"), ("y", .app "f" [.var "x"])]⟩ := by decide +kernel
  refine ⟨hσ, hτ, (unification_and_resolution_are_symmetric.1 _ _).2 _ _ hσ hτ,
    .ofList [⟨false, "P", [.var "x", .var "y"]⟩, ⟨false, "Q", [.var "x", .var "y"]⟩],
    .ofList [⟨true, "P", [.var "z", .app "f" [.var "x"]]⟩], ?_, ?_,
    unification_and_resolution_are_symmetric.2 _ _⟩
  · decide +kernel
  · decide +kernel

end Clausal

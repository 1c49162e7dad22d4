/-
# Interpretations, and the rules of inference in them

An interpretation gives every function symbol a function and every predicate symbol a relation on a
domain that is not empty.  A symbol is a name together with a number of arguments, so a name stands
for a function, or a relation, on lists.  A clause is true in an interpretation when, whatever its
variables stand for, one of its literals is true.

Instances of true clauses are true, because a substitution can be moved into the assignment
(`holds_subst`).  From this the two rules are sound: what they derive from true clauses is true
(`Satisfies.factors`, `Satisfies.resolvents`), also when the clauses share variables.
-/
import Clausal.Proofs.Inference

namespace Clausal

universe u

/-- A domain, with functions and relations for all symbols. -/
structure Interpretation where
  /-- What variables stand for. -/
  Domain : Type u
  nonempty : Nonempty Domain
  /-- The function of a symbol: a name, and as many arguments as it is given. -/
  function : String → List Domain → Domain
  /-- The relation of a symbol. -/
  relation : String → List Domain → Prop

namespace Interpretation

variable (I : Interpretation.{u})

/-! ## 1. Truth -/

/-- What a term stands for under an assignment. -/
def value (v : String → I.Domain) : Term → I.Domain :=
  Term.fold v I.function

/-- Whether a literal is true under an assignment. -/
def Holds (v : String → I.Domain) (l : Literal) : Prop :=
  if l.negated then ¬ I.relation l.predicate (l.args.map (I.value v))
  else I.relation l.predicate (l.args.map (I.value v))

/-- Whether a clause is true: some literal is, under every assignment. -/
def Satisfies (c : Clause) : Prop :=
  ∀ v : String → I.Domain, ∃ l ∈ c, I.Holds v l

variable {I} {v : String → I.Domain} {c d r : Clause} {l m : Literal}

@[simp] theorem value_var (x : String) : I.value v (.var x) = v x := rfl

@[simp] theorem value_app (f : String) (ts : List Term) :
    I.value v (.app f ts) = I.function f (ts.map (I.value v)) := by
  simp [value]

/-- A substitution can be moved into the assignment. -/
theorem value_subst (θ : String → Term) (t : Term) :
    I.value v (t.subst θ) = I.value (fun x => I.value v (θ x)) t := by
  induction t with
  | var x => rfl
  | app f ts ih =>
    rw [Term.subst_app, value_app, value_app, List.map_map]
    exact congrArg _ (List.map_congr_left ih)

theorem holds_subst (θ : String → Term) :
    I.Holds v (l.subst θ) ↔ I.Holds (fun x => I.value v (θ x)) l := by
  have hargs : (l.subst θ).args.map (I.value v) =
      l.args.map (I.value fun x => I.value v (θ x)) := by
    rw [Literal.subst, List.map_map]
    exact List.map_congr_left fun t _ => value_subst θ t
  simp only [Holds, hargs]
  rfl

/-- Literals of opposite signs with the same atom are not both true. -/
theorem not_holds_of_opposite (hs : l.negated ≠ m.negated) (ha : l.atom = m.atom)
    (hl : I.Holds v l) : ¬ I.Holds v m := by
  obtain ⟨ln, lp, la⟩ := l
  obtain ⟨mn, mp, ma⟩ := m
  simp only [Literal.atom, Term.app.injEq] at ha
  obtain ⟨rfl, rfl⟩ := ha
  cases ln <;> cases mn <;> simp_all [Holds]

/-- The empty clause is false. -/
theorem not_satisfies_empty (I : Interpretation.{u}) : ¬ I.Satisfies .empty := by
  intro h
  obtain ⟨a⟩ := I.nonempty
  obtain ⟨l, hl, -⟩ := h fun _ => a
  exact Clause.not_mem_empty l hl

/-! ## 2. Instances and variants -/

theorem Satisfies.subst (h : I.Satisfies c) (θ : String → Term) : I.Satisfies (c.subst θ) := by
  intro v
  obtain ⟨l, hl, hv⟩ := h fun x => I.value v (θ x)
  exact ⟨l.subst θ, Clause.mem_subst_of_mem hl, (holds_subst θ).mpr hv⟩

theorem Satisfies.rename (h : I.Satisfies c) (ρ : String → String) : I.Satisfies (c.rename ρ) :=
  h.subst _

/-! ## 3. The rules of inference -/

theorem Satisfies.factors (h : I.Satisfies c) (hr : r ∈ c.factors) : I.Satisfies r := by
  obtain ⟨l, m, σ, hl, -, hne, hs, hσ, rfl⟩ := Clause.mem_factors hr
  have hlm : l.subst σ.image = m.subst σ.image := Literal.subst_eq_of_unify? hσ hs
  intro v
  obtain ⟨k, hk, hv⟩ := h fun x => I.value v (σ.image x)
  rw [← holds_subst] at hv
  -- The literal that was left out is true where the one it was merged into is.
  by_cases hkm : k = m
  · subst hkm
    rw [← hlm] at hv
    exact ⟨l.apply σ, by
      rw [Clause.mem_ofList]
      exact List.mem_map_of_mem (Clause.mem_others.mpr ⟨hl, hne⟩), hv⟩
  · exact ⟨k.apply σ, by
      rw [Clause.mem_ofList]
      exact List.mem_map_of_mem (Clause.mem_others.mpr ⟨hk, hkm⟩), hv⟩

theorem Satisfies.resolvents (hc : I.Satisfies c) (hd : I.Satisfies d)
    (hr : r ∈ c.resolvents d) : I.Satisfies r := by
  obtain ⟨l, m, σ, -, -, hs, hσ, rfl⟩ := Clause.mem_resolvents.mp hr
  have hatom : (l.subst σ.image).atom = (m.subst σ.image).atom := by
    rw [Literal.atom_subst, Literal.atom_subst]
    exact Term.unify?_sound hσ
  intro v
  obtain ⟨j, hj, hjv⟩ := hc fun x => I.value v (σ.image x)
  obtain ⟨k, hk, hkv⟩ := hd fun x => I.value v (σ.image x)
  rw [← holds_subst] at hjv hkv
  -- The two literals that were left out are not both true, so another one is.
  by_cases hjl : j = l
  · have hkm : k ≠ m := by
      rintro rfl
      subst hjl
      exact not_holds_of_opposite (by simpa using hs) hatom hjv hkv
    exact ⟨k.apply σ, by
      rw [Clause.mem_ofList]
      exact List.mem_map_of_mem
        (List.mem_append_right _ (Clause.mem_others.mpr ⟨hk, hkm⟩)), hkv⟩
  · exact ⟨j.apply σ, by
      rw [Clause.mem_ofList]
      exact List.mem_map_of_mem
        (List.mem_append_left _ (Clause.mem_others.mpr ⟨hj, hjl⟩)), hjv⟩

end Interpretation

end Clausal

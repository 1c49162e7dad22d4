/-
# Instances and variants of clauses

An *instance* of a clause is its image under a substitution; as clauses are sets, literals may
merge in it.  A *variant* is the image under a renaming that keeps the variables of the clause
apart.  To be a variant is an equivalence, and variants have the same instances (`Variant.subst`).
-/
import Clausal.Clause.Basic

namespace Clausal

/-! ## 1. Literals -/

namespace Term

theorem mem_vars_subst {θ : String → Term} {t : Term} {y : String} :
    y ∈ (t.subst θ).vars ↔ ∃ x ∈ t.vars, y ∈ (θ x).vars := by
  induction t with
  | var x => simp
  | app f ts ih =>
    simp only [subst_app, vars_app, List.mem_flatMap, List.mem_map]
    constructor
    · rintro ⟨_, ⟨t, ht, rfl⟩, hy⟩
      obtain ⟨x, hx, hy⟩ := (ih t ht).mp hy
      exact ⟨x, ⟨t, ht, hx⟩, hy⟩
    · rintro ⟨x, ⟨t, ht, hx⟩, hy⟩
      exact ⟨_, ⟨t, ht, rfl⟩, (ih t ht).mpr ⟨x, hx, hy⟩⟩

end Term

namespace Literal

variable {θ η : String → Term} {l : Literal} {y : String}

@[simp] theorem negated_subst (θ : String → Term) (l : Literal) :
    (l.subst θ).negated = l.negated := rfl

theorem atom_subst (θ : String → Term) (l : Literal) : (l.subst θ).atom = l.atom.subst θ := by
  simp [atom, subst]

theorem vars_eq_vars_atom (l : Literal) : l.vars = l.atom.vars := by
  simp [vars, atom]

theorem mem_vars_subst : y ∈ (l.subst θ).vars ↔ ∃ x ∈ l.vars, y ∈ (θ x).vars := by
  rw [vars_eq_vars_atom, atom_subst, vars_eq_vars_atom]
  exact Term.mem_vars_subst

theorem subst_congr (h : ∀ x ∈ l.vars, θ x = η x) : l.subst θ = l.subst η := by
  have hargs : l.args.map (Term.subst θ) = l.args.map (Term.subst η) :=
    List.map_congr_left fun t ht =>
      Term.subst_congr fun x hx => h x (List.mem_flatMap.mpr ⟨t, ht, hx⟩)
  simp only [subst, hargs]

theorem subst_subst (θ η : String → Term) (l : Literal) :
    (l.subst θ).subst η = l.subst fun x => (θ x).subst η := by
  simp [subst, Term.subst_subst]

@[simp] theorem subst_id (l : Literal) : l.subst Term.var = l := by
  have h : Term.subst Term.var = id := funext Term.subst_id
  simp [subst, h]

/-- A literal without variables has no other instance. -/
theorem subst_of_ground (h : l.vars = []) (θ : String → Term) : l.subst θ = l := by
  calc l.subst θ = l.subst Term.var :=
        subst_congr fun x hx => absurd (h ▸ hx) List.not_mem_nil
    _ = l := subst_id l

theorem rename_eq_subst (ρ : String → String) (l : Literal) :
    l.rename ρ = l.subst fun x => .var (ρ x) := rfl

theorem rename_rename (ρ τ : String → String) (l : Literal) :
    (l.rename ρ).rename τ = l.rename fun x => τ (ρ x) :=
  subst_subst _ _ l

/-- Literals with the same sign and the same atom are equal. -/
theorem ext_atom {l m : Literal} (hs : l.negated = m.negated) (ha : l.atom = m.atom) : l = m := by
  obtain ⟨_, _, _⟩ := l
  obtain ⟨_, _, _⟩ := m
  simp only [atom, Term.app.injEq] at ha
  obtain ⟨rfl, rfl⟩ := ha
  cases hs
  rfl

end Literal

/-! ## 2. Instances -/

namespace Clause

variable {θ η : String → Term} {c d : Clause} {l : Literal} {y : String}

theorem exists_mem_of_ne_empty (h : c ≠ empty) : ∃ l, l ∈ c := by
  obtain ⟨ls, hls⟩ := c
  cases ls with
  | nil => exact absurd rfl h
  | cons l ls => exact ⟨l, List.mem_cons_self⟩

/-- The clause of the images of all literals. -/
def subst (θ : String → Term) (c : Clause) : Clause :=
  ofList (c.literals.map (Literal.subst θ))

theorem mem_subst : l ∈ c.subst θ ↔ ∃ k ∈ c, k.subst θ = l := by
  rw [subst, mem_ofList, List.mem_map]
  rfl

theorem mem_subst_of_mem (h : l ∈ c) : l.subst θ ∈ c.subst θ :=
  mem_subst.mpr ⟨l, h, rfl⟩

/-- Only the empty clause has the empty clause as an instance. -/
theorem subst_ne_empty (h : c ≠ empty) : c.subst θ ≠ empty := by
  obtain ⟨l, hl⟩ := exists_mem_of_ne_empty h
  intro he
  exact not_mem_empty _ (he ▸ mem_subst_of_mem (θ := θ) hl)

theorem rename_eq_subst (ρ : String → String) (c : Clause) :
    c.rename ρ = c.subst fun x => .var (ρ x) := rfl

theorem mem_vars : y ∈ c.vars ↔ ∃ l ∈ c, y ∈ l.vars :=
  List.mem_flatMap

theorem mem_vars_subst : y ∈ (c.subst θ).vars ↔ ∃ x ∈ c.vars, y ∈ (θ x).vars := by
  simp only [mem_vars, mem_subst]
  constructor
  · rintro ⟨_, ⟨k, hk, rfl⟩, hy⟩
    obtain ⟨x, hx, hy⟩ := Literal.mem_vars_subst.mp hy
    exact ⟨x, ⟨k, hk, hx⟩, hy⟩
  · rintro ⟨x, ⟨k, hk, hx⟩, hy⟩
    exact ⟨_, ⟨k, hk, rfl⟩, Literal.mem_vars_subst.mpr ⟨x, hx, hy⟩⟩

theorem subst_congr (h : ∀ x ∈ c.vars, θ x = η x) : c.subst θ = c.subst η := by
  have : c.literals.map (Literal.subst θ) = c.literals.map (Literal.subst η) :=
    List.map_congr_left fun l hl =>
      Literal.subst_congr fun x hx => h x (mem_vars.mpr ⟨l, hl, hx⟩)
  rw [subst, subst, this]

theorem subst_subst (θ η : String → Term) (c : Clause) :
    (c.subst θ).subst η = c.subst fun x => (θ x).subst η := by
  refine ext fun l => ?_
  simp only [mem_subst]
  constructor
  · rintro ⟨_, ⟨k, hk, rfl⟩, rfl⟩
    exact ⟨k, hk, (Literal.subst_subst θ η k).symm⟩
  · rintro ⟨k, hk, rfl⟩
    exact ⟨_, ⟨k, hk, rfl⟩, Literal.subst_subst θ η k⟩

@[simp] theorem subst_id (c : Clause) : c.subst Term.var = c := by
  refine ext fun l => ?_
  simp [mem_subst]

theorem rename_congr {ρ τ : String → String} (h : ∀ x ∈ c.vars, ρ x = τ x) :
    c.rename ρ = c.rename τ := by
  rw [rename_eq_subst, rename_eq_subst]
  exact subst_congr fun x hx => by rw [h x hx]

theorem rename_rename (ρ τ : String → String) (c : Clause) :
    (c.rename ρ).rename τ = c.rename fun x => τ (ρ x) :=
  subst_subst _ _ c

theorem rename_id (c : Clause) : c.rename id = c :=
  subst_id c

theorem vars_eq_nil_of_mem (h : c.vars = []) (hl : l ∈ c) : l.vars = [] :=
  List.flatMap_eq_nil_iff.mp h l hl

theorem subst_of_ground (h : c.vars = []) (θ : String → Term) : c.subst θ = c := by
  calc c.subst θ = c.subst Term.var :=
        subst_congr fun x hx => absurd (h ▸ hx) List.not_mem_nil
    _ = c := subst_id c

/-! ## 3. Variants -/

/-- `d` is `c` under a renaming that keeps the variables of `c` apart. -/
def Variant (c d : Clause) : Prop :=
  ∃ ρ : String → String, (∀ x ∈ c.vars, ∀ y ∈ c.vars, ρ x = ρ y → x = y) ∧ d = c.rename ρ

/-- A renaming that keeps the members of a list apart can be undone on them. -/
theorem exists_inverse {ρ : String → String} {xs : List String}
    (h : ∀ x ∈ xs, ∀ y ∈ xs, ρ x = ρ y → x = y) :
    ∃ τ : String → String, ∀ x ∈ xs, τ (ρ x) = x := by
  refine ⟨fun y => (xs.find? fun x => ρ x = y).getD y, ?_⟩
  intro x hx
  cases hf : xs.find? fun z => ρ z = ρ x with
  | none =>
    have := List.find?_eq_none.mp hf x hx
    simp at this
  | some z =>
    have hz : ρ z = ρ x := by simpa using List.find?_some hf
    simp only [hf, Option.getD_some]
    exact h z (List.mem_of_find?_eq_some hf) x hx hz

theorem Variant.refl (c : Clause) : Variant c c :=
  ⟨id, fun _ _ _ _ h => h, (subst_id c).symm⟩

theorem rename_inverse {ρ τ : String → String} (h : ∀ x ∈ c.vars, τ (ρ x) = x) :
    (c.rename ρ).rename τ = c := by
  calc (c.rename ρ).rename τ = c.rename fun x => τ (ρ x) := rename_rename ρ τ c
    _ = c.rename id := rename_congr h
    _ = c := rename_id c

theorem Variant.symm (h : Variant c d) : Variant d c := by
  obtain ⟨ρ, hρ, rfl⟩ := h
  obtain ⟨τ, hτ⟩ := exists_inverse hρ
  refine ⟨τ, ?_, (rename_inverse hτ).symm⟩
  intro y hy z hz he
  obtain ⟨x, hx, hy⟩ := mem_vars_subst.mp (rename_eq_subst ρ c ▸ hy)
  obtain ⟨w, hw, hz⟩ := mem_vars_subst.mp (rename_eq_subst ρ c ▸ hz)
  rw [Term.vars_var, List.mem_singleton] at hy hz
  subst hy hz
  rw [hτ x hx, hτ w hw] at he
  rw [he]

/-- Every instance of a clause is an instance of its variants. -/
theorem Variant.subst (h : Variant c d) (θ : String → Term) :
    ∃ η, d.subst η = c.subst θ := by
  obtain ⟨ρ, -, hc⟩ := h.symm
  refine ⟨fun x => θ (ρ x), ?_⟩
  rw [hc, rename_eq_subst, subst_subst]
  rfl

theorem Variant.trans {e : Clause} (h : Variant c d) (h' : Variant d e) : Variant c e := by
  obtain ⟨ρ, hρ, rfl⟩ := h
  obtain ⟨τ, hτ, rfl⟩ := h'
  have hmem : ∀ x ∈ c.vars, ρ x ∈ (c.rename ρ).vars := by
    intro x hx
    rw [rename_eq_subst]
    exact mem_vars_subst.mpr ⟨x, hx, by simp⟩
  refine ⟨fun x => τ (ρ x), ?_, ?_⟩
  · intro x hx y hy he
    exact hρ x hx y hy (hτ _ (hmem x hx) _ (hmem y hy) he)
  · exact rename_rename ρ τ c

/-- A clause without variables has no other variant. -/
theorem Variant.eq_of_ground (h : Variant c d) (hc : c.vars = []) : d = c := by
  obtain ⟨ρ, -, rfl⟩ := h
  exact subst_of_ground hc _

end Clause

end Clausal

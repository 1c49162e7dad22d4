/-
# What the rules of inference derive

The two rules are functions to lists of clauses; here they are described by what is in the lists.
A factor comes from two different literals of one clause, of one sign (`mem_factors`), a resolvent
from literals of opposite signs of two clauses (`mem_resolvents`).

Because the unifier is most general, both rules can be *lifted*: what they would derive from
instances of clauses is an instance of what they derive from the clauses themselves
(`exists_factor`, `exists_resolvent`).  For a resolvent the two clauses must not share a variable,
so that two substitutions can be joined into one.  The substitutions may be any functions; on one
clause they do no more than finitely many bindings do (`exists_apply_eq_subst`).
-/
import Clausal.Clause.Inference
import Clausal.Proofs.Unification
import Mathlib.Data.List.Basic

namespace Clausal

/-! ## 1. Pairs of members -/

section Pairs

variable {α : Type} {a b : α}

theorem mem_of_mem_pairs : ∀ {l : List α}, (a, b) ∈ pairs l → a ∈ l ∧ b ∈ l
  | c :: l, h => by
    simp only [pairs, List.mem_append, List.mem_map, Prod.mk.injEq] at h
    rcases h with ⟨_, hb, rfl, rfl⟩ | h
    · exact ⟨List.mem_cons_self, List.mem_cons_of_mem _ hb⟩
    · obtain ⟨ha, hb⟩ := mem_of_mem_pairs h
      exact ⟨List.mem_cons_of_mem _ ha, List.mem_cons_of_mem _ hb⟩

theorem rel_of_mem_pairs {R : α → α → Prop} : ∀ {l : List α}, l.Pairwise R → (a, b) ∈ pairs l →
    R a b
  | c :: l, hl, h => by
    simp only [pairs, List.mem_append, List.mem_map, Prod.mk.injEq] at h
    rcases h with ⟨_, hb, rfl, rfl⟩ | h
    · exact List.rel_of_pairwise_cons hl hb
    · exact rel_of_mem_pairs hl.of_cons h

/-- Two different members form a pair, one way or the other. -/
theorem mem_pairs_of_ne : ∀ {l : List α}, a ∈ l → b ∈ l → a ≠ b →
    (a, b) ∈ pairs l ∨ (b, a) ∈ pairs l
  | c :: l, ha, hb, hne => by
    simp only [pairs, List.mem_append, List.mem_map, Prod.mk.injEq]
    rcases List.mem_cons.mp ha with hac | hal <;> rcases List.mem_cons.mp hb with hbc | hbl
    · exact absurd (hac.trans hbc.symm) hne
    · exact Or.inl (Or.inl ⟨b, hbl, hac.symm, rfl⟩)
    · exact Or.inr (Or.inl ⟨a, hal, hbc.symm, rfl⟩)
    · rcases mem_pairs_of_ne hal hbl hne with h | h
      · exact Or.inl (Or.inr h)
      · exact Or.inr (Or.inr h)

end Pairs

namespace Clause

variable {c d r : Clause} {l m : Literal} {σ : Substitution} {θ η : String → Term}

/-! ## 2. Factors and resolvents -/

theorem ne_of_mem_pairs (h : (l, m) ∈ pairs c.literals) : l ≠ m := by
  rintro rfl
  have := rel_of_mem_pairs c.ascending h
  rw [Literal.cmp_self] at this
  exact absurd this (by decide)

/-- A factor is what remains of a clause when one of two unified literals of the same sign has been
left out. -/
theorem mem_factors (h : r ∈ c.factors) :
    ∃ l m σ, l ∈ c ∧ m ∈ c ∧ l ≠ m ∧ l.negated = m.negated ∧ l.unify? m = some σ ∧
      r = ofList ((c.others m).map (Literal.apply σ)) := by
  obtain ⟨⟨l, m⟩, hp, hr⟩ := List.mem_filterMap.mp h
  simp only [factorOn?] at hr
  split at hr
  · rename_i hs
    obtain ⟨σ, hσ, rfl⟩ := Option.map_eq_some_iff.mp hr
    obtain ⟨hl, hm⟩ := mem_of_mem_pairs hp
    exact ⟨l, m, σ, hl, hm, ne_of_mem_pairs hp, hs, hσ, rfl⟩
  · simp at hr

/-- A resolvent is what remains of two clauses when two unified literals of opposite signs have been
left out. -/
theorem mem_resolvents : r ∈ c.resolvents d ↔
    ∃ l m σ, l ∈ c ∧ m ∈ d ∧ l.negated ≠ m.negated ∧ l.unify? m = some σ ∧
      r = ofList ((c.others l ++ d.others m).map (Literal.apply σ)) := by
  simp only [resolvents, List.mem_flatMap, List.mem_filterMap]
  constructor
  · rintro ⟨l, hl, m, hm, hr⟩
    simp only [resolventOn?] at hr
    split at hr
    · simp at hr
    · rename_i hs
      obtain ⟨σ, hσ, rfl⟩ := Option.map_eq_some_iff.mp hr
      exact ⟨l, m, σ, hl, hm, hs, hσ, rfl⟩
  · rintro ⟨l, m, σ, hl, hm, hs, hσ, rfl⟩
    refine ⟨l, hl, m, hm, ?_⟩
    rw [resolventOn?, if_neg hs, hσ]
    rfl

/-! ## 3. Sizes -/

theorem countP_insertInto_le (p : Literal → Bool) (l : Literal) : ∀ ms : List Literal,
    (Literal.insertInto l ms).countP p ≤ (l :: ms).countP p
  | [] => Nat.le_refl _
  | m :: ms => by
    unfold Literal.insertInto
    split
    · exact Nat.le_refl _
    · exact (List.sublist_cons_self l _).countP_le
    · have ih := countP_insertInto_le p l ms
      simp only [List.countP_cons] at ih ⊢
      omega

/-- A clause has at most as many literals of a kind as the list that it is made of; it has fewer where
the list repeats one. -/
theorem countP_ofList_le (p : Literal → Bool) : ∀ ls : List Literal,
    (ofList ls).literals.countP p ≤ ls.countP p
  | [] => Nat.le_refl _
  | l :: ls => by
    have ih := countP_ofList_le p ls
    have hinsert := countP_insertInto_le p l (ofList ls).literals
    simp only [List.countP_cons] at hinsert ⊢
    exact Nat.le_trans hinsert (Nat.add_le_add_right ih _)

theorem size_ofList_le (ls : List Literal) : (ofList ls).size ≤ ls.length := by
  simpa [size] using countP_ofList_le (fun _ => true) ls

theorem length_others_lt (h : l ∈ c) : (c.others l).length < c.size := by
  refine List.length_filter_lt_length_iff_exists.mpr ⟨l, h, ?_⟩
  simp

theorem size_rename_le (ρ : String → String) (c : Clause) : (c.rename ρ).size ≤ c.size := by
  have h := size_ofList_le (c.literals.map (Literal.rename ρ))
  rwa [List.length_map] at h

/-- A factor has fewer literals. -/
theorem size_lt_of_mem_factors (h : r ∈ c.factors) : r.size < c.size := by
  obtain ⟨l, m, σ, -, hm, -, -, -, rfl⟩ := mem_factors h
  have hle := size_ofList_le ((c.others m).map (Literal.apply σ))
  rw [List.length_map] at hle
  exact Nat.lt_of_le_of_lt hle (length_others_lt hm)

/-- It takes two literals to factor a clause. -/
theorem two_le_of_mem_factors (h : r ∈ c.factors) : 2 ≤ c.size := by
  obtain ⟨l, m, -, hl, hm, hne, -⟩ := mem_factors h
  have hrest : 0 < (c.others m).length := List.length_pos_of_mem (mem_others.mpr ⟨hl, hne⟩)
  have hlt := length_others_lt hm
  omega

/-! ## 4. Lifting -/

theorem mem_map_subst_others {k : Literal} :
    k ∈ (c.others l).map (Literal.subst θ) ↔ ∃ j ∈ c, j ≠ l ∧ j.subst θ = k := by
  simp only [List.mem_map, mem_others, and_assoc]

/-- A substitution that a unifier does not change sees its results as it saw what they came
from. -/
theorem subst_ofList_map_apply (h : ∀ x, (σ.image x).subst θ = θ x) (ls : List Literal) :
    (ofList (ls.map (Literal.apply σ))).subst θ = ofList (ls.map (Literal.subst θ)) := by
  have happly : ∀ l : Literal, (l.apply σ).subst θ = l.subst θ := fun l => by
    rw [Literal.apply, Literal.subst_subst]
    exact Literal.subst_congr fun x _ => h x
  refine ext fun k => ?_
  simp only [mem_subst, mem_ofList, List.mem_map]
  constructor
  · rintro ⟨_, ⟨l, hl, rfl⟩, rfl⟩
    exact ⟨l, hl, (happly l).symm⟩
  · rintro ⟨l, hl, rfl⟩
    exact ⟨_, ⟨l, hl, rfl⟩, happly l⟩

/-- A clause has the same instance without a literal that merges with another one in it. -/
theorem ofList_map_subst_others (hl : l ∈ c) (hne : l ≠ m) (h : l.subst θ = m.subst θ) :
    ofList ((c.others m).map (Literal.subst θ)) = c.subst θ := by
  refine ext fun k => ?_
  rw [mem_ofList, mem_map_subst_others, mem_subst]
  constructor
  · rintro ⟨j, hj, -, rfl⟩
    exact ⟨j, hj, rfl⟩
  · rintro ⟨j, hj, rfl⟩
    by_cases hjm : j = m
    · subst hjm
      exact ⟨l, hl, hne, h⟩
    · exact ⟨j, hj, hjm, rfl⟩

theorem exists_factor_of_mem_pairs (hp : (l, m) ∈ pairs c.literals) (h : l.subst θ = m.subst θ) :
    ∃ f ∈ c.factors, f.size < c.size ∧ f.subst θ = c.subst θ := by
  have hs : l.negated = m.negated := by
    have := congrArg Literal.negated h
    simpa using this
  have hatom : l.atom.subst θ = m.atom.subst θ := by
    rw [← Literal.atom_subst, ← Literal.atom_subst, h]
  obtain ⟨σ, hσ, hθ⟩ := Term.unify?_most_general hatom
  obtain ⟨hl, -⟩ := mem_of_mem_pairs hp
  have hfactor : ofList ((c.others m).map (Literal.apply σ)) ∈ c.factors := by
    refine List.mem_filterMap.mpr ⟨(l, m), hp, ?_⟩
    rw [factorOn?, if_pos hs, Literal.unify?, hσ]
    rfl
  refine ⟨_, hfactor, size_lt_of_mem_factors hfactor, ?_⟩
  rw [subst_ofList_map_apply hθ]
  exact ofList_map_subst_others hl (ne_of_mem_pairs hp) h

/-- **Lifting of factors.**  Where two literals of a clause merge in an instance, the instance is
one of a factor too, and the factor is smaller. -/
theorem exists_factor (hl : l ∈ c) (hm : m ∈ c) (hne : l ≠ m) (h : l.subst θ = m.subst θ) :
    ∃ f ∈ c.factors, f.size < c.size ∧ f.subst θ = c.subst θ := by
  rcases mem_pairs_of_ne hl hm hne with hp | hp
  · exact exists_factor_of_mem_pairs hp h
  · exact exists_factor_of_mem_pairs hp h.symm

/-- **Lifting of resolvents.**  Where literals of two clauses without a common variable have
instances that are opposite, what remains of the two instances is an instance of a resolvent. -/
theorem exists_resolvent (hdisj : ∀ x ∈ c.vars, x ∉ d.vars) (hl : l ∈ c) (hm : m ∈ d)
    (hs : l.negated ≠ m.negated) (h : l.atom.subst θ = m.atom.subst η) :
    ∃ r ∈ c.resolvents d, ∃ ζ, r.subst ζ =
      ofList ((c.others l).map (Literal.subst θ) ++ (d.others m).map (Literal.subst η)) := by
  -- One substitution that acts as `θ` on the first clause and as `η` on the second.
  let ζ : String → Term := fun x => if x ∈ c.vars then θ x else η x
  have hc : ∀ k ∈ c, k.subst ζ = k.subst θ := fun k hk =>
    Literal.subst_congr fun x hx => if_pos (mem_vars.mpr ⟨k, hk, hx⟩)
  have hd : ∀ k ∈ d, k.subst ζ = k.subst η := fun k hk =>
    Literal.subst_congr fun x hx => if_neg fun hx' => hdisj x hx' (mem_vars.mpr ⟨k, hk, hx⟩)
  have hatom : l.atom.subst ζ = m.atom.subst ζ := by
    rw [← Literal.atom_subst, ← Literal.atom_subst, hc l hl, hd m hm, Literal.atom_subst,
      Literal.atom_subst, h]
  obtain ⟨σ, hσ, hζ⟩ := Term.unify?_most_general hatom
  refine ⟨_, mem_resolvents.mpr ⟨l, m, σ, hl, hm, hs, hσ, rfl⟩, ζ, ?_⟩
  rw [subst_ofList_map_apply hζ, List.map_append]
  have h₁ : (c.others l).map (Literal.subst ζ) = (c.others l).map (Literal.subst θ) :=
    List.map_congr_left fun k hk => hc k (mem_others.mp hk).1
  have h₂ : (d.others m).map (Literal.subst ζ) = (d.others m).map (Literal.subst η) :=
    List.map_congr_left fun k hk => hd k (mem_others.mp hk).1
  rw [h₁, h₂]

/-! ## 5. Lifting with finitely many bindings -/

/-- On one clause a substitution does what the bindings of the clause's variables do at once. -/
theorem exists_apply_eq_subst (c : Clause) (θ : String → Term) :
    ∃ σ : Substitution, c.apply σ = c.subst θ := by
  refine ⟨⟨c.vars.map fun x => (x, θ x)⟩, subst_congr fun x hx => ?_⟩
  rw [Substitution.image, Substitution.lookup?, List.lookup_graph θ hx, Option.getD_some]

end Clause

/-- **What is derived from instances of clauses is an instance of what is derived from the clauses.**
Let two clauses share no variable, and let the atoms of two of their literals, of opposite signs, have
instances that are equal; then what the instances of the other literals come to is an instance of a
resolvent.  Let two different literals of a clause have equal instances; then the instance of the
clause is an instance of a factor.  The substitutions that are given are any functions, and those that
are found replace finitely many variables at once. -/
theorem inferences_can_be_lifted :
    (∀ (c d : Clause) (l m : Literal) (θ η : String → Term), (∀ x ∈ c.vars, x ∉ d.vars) →
      l ∈ c → m ∈ d → l.negated ≠ m.negated → l.atom.subst θ = m.atom.subst η →
      ∃ r ∈ c.resolvents d, ∃ ζ : Substitution, r.apply ζ =
        .ofList ((c.others l).map (Literal.subst θ) ++ (d.others m).map (Literal.subst η))) ∧
    ∀ (c : Clause) (l m : Literal) (θ : String → Term), l ∈ c → m ∈ c → l ≠ m →
      l.subst θ = m.subst θ →
      ∃ f ∈ c.factors, ∃ ζ : Substitution, f.apply ζ = c.subst θ := by
  constructor
  · intro c d l m θ η hdisj hl hm hs h
    obtain ⟨r, hr, ζ, hζ⟩ := Clause.exists_resolvent hdisj hl hm hs h
    obtain ⟨σ, hσ⟩ := r.exists_apply_eq_subst ζ
    exact ⟨r, hr, σ, hσ.trans hζ⟩
  · intro c l m θ hl hm hne h
    obtain ⟨f, hf, -, hsubst⟩ := Clause.exists_factor hl hm hne h
    obtain ⟨σ, hσ⟩ := f.exists_apply_eq_subst θ
    exact ⟨f, hf, σ, hσ.trans hsubst⟩

/-- `P(x) | Q(x, y)` and `!P(f(z)) | Q(f(z), z)`, whose second literals may become equal. -/
def mergingClauses : Clause × Clause :=
  (.ofList [⟨false, "P", [.var "x"]⟩, ⟨false, "Q", [.var "x", .var "y"]⟩],
   .ofList [⟨true, "P", [.app "f" [.var "z"]]⟩, ⟨false, "Q", [.app "f" [.var "z"], .var "z"]⟩])

/-- A constant for every variable but `x`, and `f(a)` for `x`. -/
def mergingInstance (v : String) : Term :=
  if v = "x" then .app "f" [.app "a" []] else .app "a" []

/-- In the instances of `mergingClauses` the literals that remain become one literal.  It is an instance
of the resolvent, which has two, and of the factor of the resolvent. -/
theorem mergingClauses_are_lifted :
    (mergingClauses.1.resolvents mergingClauses.2 =
      [.ofList [⟨false, "Q", [.app "f" [.var "z"], .var "y"]⟩,
        ⟨false, "Q", [.app "f" [.var "z"], .var "z"]⟩]] ∧
    ∃ r ∈ mergingClauses.1.resolvents mergingClauses.2, ∃ ζ : Substitution,
      r.apply ζ = .ofList [⟨false, "Q", [.app "f" [.app "a" []], .app "a" []]⟩]) ∧
    ∃ f ∈ (Clause.ofList [⟨false, "Q", [.app "f" [.var "z"], .var "y"]⟩,
        ⟨false, "Q", [.app "f" [.var "z"], .var "z"]⟩]).factors, ∃ ζ : Substitution,
      f.apply ζ = .ofList [⟨false, "Q", [.app "f" [.app "a" []], .app "a" []]⟩] := by
  obtain ⟨hresolvent, hfactor⟩ := inferences_can_be_lifted
  refine ⟨⟨by decide +kernel, ?_⟩, ?_⟩
  · exact hresolvent mergingClauses.1 mergingClauses.2 ⟨false, "P", [.var "x"]⟩
      ⟨true, "P", [.app "f" [.var "z"]]⟩ mergingInstance mergingInstance (by decide +kernel)
      (by decide +kernel) (by decide +kernel) (by decide) (by decide)
  · exact hfactor _ ⟨false, "Q", [.app "f" [.var "z"], .var "y"]⟩
      ⟨false, "Q", [.app "f" [.var "z"], .var "z"]⟩ mergingInstance (by decide +kernel)
      (by decide +kernel) (by decide) (by decide)

end Clausal

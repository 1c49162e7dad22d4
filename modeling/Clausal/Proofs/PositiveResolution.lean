/-
# Models of clause sets that are closed under the rules

A set of clauses that has no empty clause and is closed, up to renaming, under the two rules has a
model.  The instances of its clauses are treated like propositional clauses: their atoms may be true
or false independently.

*Positive* resolution, of which one parent has no negative literal, is enough.  So a clause never
has to be resolved with itself.  A smallest set of atoms that meets every positive clause makes all
clauses true (`PositivelyClosed.exists_atoms`): each of its atoms is needed by some positive clause
(`exists_support`), and the resolvent with that clause has the negative literal on the atom no more.

What positive resolution derives from instances is an instance of a resolvent (`exists_unmerged`
gives the parents, factored so far that one literal stands for all that merge in the instance).  So
the instances of a closed set are closed (`Saturated.positivelyClosed`), and the set of atoms gives
an interpretation on terms.
-/
import Clausal.Proofs.Interpretation
import Mathlib.Order.Zorn

namespace Clausal

open Clause

/-! ## 1. Truth by a set of atoms -/

/-- Whether a literal is true, where the atoms in `M` are. -/
def Literal.TrueIn (M : Set Term) (l : Literal) : Prop :=
  if l.negated then l.atom ∉ M else l.atom ∈ M

theorem Literal.trueIn_of_negated {M : Set Term} {l : Literal} (h : l.negated = true) :
    l.TrueIn M ↔ l.atom ∉ M := by
  rw [Literal.TrueIn, if_pos h]

theorem Literal.trueIn_of_positive {M : Set Term} {l : Literal} (h : l.negated = false) :
    l.TrueIn M ↔ l.atom ∈ M := by
  simp [Literal.TrueIn, h]

/-- Whether no literal is negated. -/
def Clause.Positive (c : Clause) : Prop :=
  ∀ l ∈ c, l.negated = false

/-- A set of clauses without the empty clause that is closed under positive resolution of clauses as
they stand. -/
structure PositivelyClosed (G : Set Clause) : Prop where
  not_empty : .empty ∉ G
  resolvent : ∀ c ∈ G, c.Positive → ∀ d ∈ G, ∀ l ∈ c, ∀ m ∈ d, m.negated = true →
    l.atom = m.atom → ofList (c.others l ++ d.others m) ∈ G

namespace PositivelyClosed

variable {G : Set Clause} {M : Set Term}

/-! ## 2. A smallest set of atoms that meets the positive clauses -/

/-- Whether a set of atoms makes the positive clauses of `G` true. -/
def Meets (G : Set Clause) (M : Set Term) : Prop :=
  ∀ c ∈ G, c.Positive → ∃ l ∈ c, l.atom ∈ M

/-- Where each of finitely many atoms is missing from a member of a chain, some member of the chain
misses them all. -/
theorem exists_missing {chain : Set (Set Term)} (hchain : IsChain (· ⊆ ·) chain) :
    ∀ {l : Literal} {ls : List Literal}, (∀ k ∈ l :: ls, ∃ N ∈ chain, k.atom ∉ N) →
      ∃ N ∈ chain, ∀ k ∈ l :: ls, k.atom ∉ N
  | l, [], h => by
    obtain ⟨N, hN, hl⟩ := h l List.mem_cons_self
    refine ⟨N, hN, ?_⟩
    intro k hk
    rw [List.mem_singleton.mp hk]
    exact hl
  | l, k :: ls, h => by
    obtain ⟨N, hN, hl⟩ := h l List.mem_cons_self
    obtain ⟨N', hN', hrest⟩ := exists_missing hchain fun j hj => h j (List.mem_cons_of_mem _ hj)
    -- The smaller one of the two sets misses what either of them does.
    rcases hchain.total hN hN' with hle | hle
    · refine ⟨N, hN, ?_⟩
      intro j hj
      rcases List.mem_cons.mp hj with rfl | hj
      · exact hl
      · exact fun hmem => hrest j hj (hle hmem)
    · refine ⟨N', hN', ?_⟩
      intro j hj
      rcases List.mem_cons.mp hj with rfl | hj
      · exact fun hmem => hl (hle hmem)
      · exact hrest j hj

/-- What all sets of a chain have in common meets the positive clauses if each of the sets does,
for a clause is finite. -/
theorem meets_sInter (h : PositivelyClosed G) {chain : Set (Set Term)}
    (hmeets : ∀ N ∈ chain, Meets G N) (hchain : IsChain (· ⊆ ·) chain) :
    Meets G (⋂₀ chain) := by
  intro c hc hpos
  by_contra hnone
  have hmissing : ∀ k ∈ c.literals, ∃ N ∈ chain, k.atom ∉ N := by
    intro k hk
    by_contra hall
    refine hnone ⟨k, hk, ?_⟩
    intro N hN
    by_contra hk'
    exact hall ⟨N, hN, hk'⟩
  obtain ⟨l, hl⟩ := exists_mem_of_ne_empty (c := c) fun he => h.not_empty (he ▸ hc)
  obtain ⟨k, ks, hks⟩ := List.exists_cons_of_ne_nil (List.ne_nil_of_mem hl)
  rw [hks] at hmissing
  obtain ⟨N, hN, hmiss⟩ := exists_missing hchain hmissing
  obtain ⟨j, hj, hjN⟩ := hmeets N hN c hc hpos
  exact hmiss j (hks ▸ hj) hjN

theorem exists_minimal (h : PositivelyClosed G) : ∃ M, Minimal (· ∈ {M | Meets G M}) M :=
  zorn_superset {M | Meets G M} fun chain hmeets hchain =>
    ⟨⋂₀ chain, h.meets_sInter hmeets hchain, fun _ hN => Set.sInter_subset_of_mem hN⟩

/-- **Every atom of a smallest set is needed**: some positive clause has no other atom in it. -/
theorem exists_support (hM : Minimal (· ∈ {M | Meets G M}) M) {a : Term} (ha : a ∈ M) :
    ∃ c ∈ G, c.Positive ∧ ∃ l ∈ c, l.atom = a ∧ ∀ k ∈ c.others l, k.atom ∉ M := by
  -- Without the atom the set does not meet some positive clause any more.
  have hless : ¬ Meets G (M \ {a}) := by
    intro hmeets
    exact (hM.le_of_le hmeets Set.sdiff_subset ha).2 rfl
  simp only [Meets, not_forall, not_exists, not_and] at hless
  obtain ⟨c, hc, hpos, hmiss⟩ := hless
  have hatom : ∀ k ∈ c, k.atom ∈ M → k.atom = a := by
    intro k hk hkM
    by_contra hne
    exact hmiss k hk ⟨hkM, hne⟩
  obtain ⟨l, hl, hlM⟩ := hM.prop c hc hpos
  refine ⟨c, hc, hpos, l, hl, hatom l hl hlM, ?_⟩
  intro k hk hkM
  obtain ⟨hkc, hne⟩ := mem_others.mp hk
  exact hne (Literal.ext_atom ((hpos k hkc).trans (hpos l hl).symm)
    ((hatom k hkc hkM).trans (hatom l hl hlM).symm))

/-- A smallest set of atoms makes every clause true.  The induction is on a list of literals among
which the negative ones of the clause are. -/
theorem exists_trueIn (h : PositivelyClosed G) (hM : Minimal (· ∈ {M | Meets G M}) M) :
    ∀ (ns : List Literal), ∀ d ∈ G, (∀ m ∈ d, m.negated = true → m ∈ ns) →
      ∃ k ∈ d, k.TrueIn M
  | [], d, hd, hns => by
    have hpos : d.Positive := by
      intro m hm
      by_contra hneg
      exact absurd (hns m hm (by simpa using hneg)) List.not_mem_nil
    obtain ⟨l, hl, hlM⟩ := hM.prop d hd hpos
    exact ⟨l, hl, (Literal.trueIn_of_positive (hpos l hl)).mpr hlM⟩
  | n :: ns, d, hd, hns => by
    by_cases hn : n ∈ d ∧ n.negated = true
    · obtain ⟨hnd, hneg⟩ := hn
      by_cases hnM : n.atom ∈ M
      · -- The clause that needs the atom resolves the literal away.
        obtain ⟨c, hc, hpos, l, hl, hatom, hothers⟩ := exists_support hM hnM
        have hr := h.resolvent c hc hpos d hd l hl n hnd hneg hatom
        have hfewer : ∀ m ∈ ofList (c.others l ++ d.others n), m.negated = true → m ∈ ns := by
          intro m hm hmneg
          rcases List.mem_append.mp (mem_ofList.mp hm) with hm | hm
          · rw [hpos m (mem_others.mp hm).1] at hmneg
            exact absurd hmneg (by decide)
          · obtain ⟨hmd, hmn⟩ := mem_others.mp hm
            exact (List.mem_cons.mp (hns m hmd hmneg)).resolve_left hmn
        obtain ⟨k, hk, hkM⟩ := exists_trueIn h hM ns _ hr hfewer
        rcases List.mem_append.mp (mem_ofList.mp hk) with hk | hk
        · have hkM := (Literal.trueIn_of_positive (hpos k (mem_others.mp hk).1)).mp hkM
          exact absurd hkM (hothers k hk)
        · exact ⟨k, (mem_others.mp hk).1, hkM⟩
      · exact ⟨n, hnd, (Literal.trueIn_of_negated hneg).mpr hnM⟩
    · refine exists_trueIn h hM ns d hd ?_
      intro m hm hmneg
      rcases List.mem_cons.mp (hns m hm hmneg) with rfl | hm'
      · exact absurd ⟨hm, hmneg⟩ hn
      · exact hm'

/-- **Positive resolution is enough.**  A set of clauses that is closed under it and does not have
the empty clause is made true by a set of atoms. -/
theorem exists_atoms (h : PositivelyClosed G) :
    ∃ M : Set Term, ∀ d ∈ G, ∃ k ∈ d, k.TrueIn M := by
  obtain ⟨M, hM⟩ := h.exists_minimal
  exact ⟨M, fun d hd => h.exists_trueIn hM d.literals d hd fun _ hm _ => hm⟩

end PositivelyClosed

/-! ## 3. The instances of a closed set -/

/-- A set of clauses without the empty clause and without common variables that is closed, up to
renaming, under factoring and under resolution of two different clauses, in one order at least. -/
structure Saturated (S : Set Clause) : Prop where
  not_empty : .empty ∉ S
  apart : ∀ c ∈ S, ∀ d ∈ S, c ≠ d → ∀ x ∈ c.vars, x ∉ d.vars
  factor : ∀ c ∈ S, ∀ r ∈ c.factors, ∃ e ∈ S, Variant r e
  resolvent : ∀ c ∈ S, ∀ d ∈ S, c ≠ d →
    (∀ r ∈ c.resolvents d, ∃ e ∈ S, Variant r e) ∨ ∀ r ∈ d.resolvents c, ∃ e ∈ S, Variant r e

/-- The instances of the clauses of a set. -/
def instances (S : Set Clause) : Set Clause :=
  {g | ∃ c ∈ S, ∃ θ, c.subst θ = g}

theorem Clause.Variant.size_le {c d : Clause} (h : Variant c d) : d.size ≤ c.size := by
  obtain ⟨ρ, -, rfl⟩ := h
  exact size_rename_le ρ c

/-- Where only one literal of a clause becomes `k.subst θ`, the others of the instance are those
that the others of the clause become. -/
theorem Clause.mem_others_subst {c : Clause} {k l : Literal} {θ : String → Term}
    (honly : ∀ j ∈ c, j.subst θ = k.subst θ → j = k) :
    l ∈ (c.others k).map (Literal.subst θ) ↔ l ∈ (c.subst θ).others (k.subst θ) := by
  rw [mem_map_subst_others, mem_others, mem_subst]
  constructor
  · rintro ⟨j, hj, hne, rfl⟩
    exact ⟨⟨j, hj, rfl⟩, fun heq => hne (honly j hj heq)⟩
  · rintro ⟨⟨j, hj, rfl⟩, hne⟩
    exact ⟨j, hj, fun heq => hne (by rw [heq]), rfl⟩

namespace Saturated

variable {S : Set Clause}

/-- **Instances without merging.**  An instance is also one of a clause in which a single literal
stands for a given literal of it: as long as there are two, a factor has the same instance. -/
theorem exists_unmerged (h : Saturated S) {c : Clause} (hc : c ∈ S) (θ : String → Term)
    {l : Literal} (hl : l ∈ c.subst θ) :
    ∃ d ∈ S, ∃ η, d.subst η = c.subst θ ∧
      ∃ k ∈ d, k.subst η = l ∧ ∀ j ∈ d, j.subst η = k.subst η → j = k := by
  induction hn : c.size using Nat.strong_induction_on generalizing c θ with
  | h n ih =>
    obtain ⟨k, hk, rfl⟩ := mem_subst.mp hl
    by_cases honly : ∀ j ∈ c, j.subst θ = k.subst θ → j = k
    · exact ⟨c, hc, θ, rfl, k, hk, rfl, honly⟩
    · simp only [not_forall] at honly
      obtain ⟨j, hj, heq, hne⟩ := honly
      obtain ⟨f, hf, hsize, hfθ⟩ := exists_factor hj hk hne heq
      obtain ⟨e, he, hvar⟩ := h.factor c hc f hf
      obtain ⟨η, hη⟩ := hvar.subst θ
      have hinst : e.subst η = c.subst θ := hη.trans hfθ
      have hlt : e.size < n := by
        have := hvar.size_le
        omega
      obtain ⟨d, hd, ζ, hζ, hrest⟩ := ih e.size hlt he η (hinst ▸ hl) rfl
      exact ⟨d, hd, ζ, hζ.trans hinst, hrest⟩

/-- **Lifting.**  The instances of a closed set are closed under positive resolution. -/
theorem positivelyClosed (h : Saturated S) : PositivelyClosed (instances S) where
  not_empty := by
    rintro ⟨c, hc, θ, hcθ⟩
    exact subst_ne_empty (fun he => h.not_empty (he ▸ hc)) hcθ
  resolvent := by
    rintro _ ⟨c₀, hc₀, θ₀, rfl⟩ hpos _ ⟨d₀, hd₀, η₀, rfl⟩ l hl m hm hneg hatom
    obtain ⟨c, hc, θ, hcθ, k, hk, rfl, honly⟩ := h.exists_unmerged hc₀ θ₀ hl
    obtain ⟨d, hd, η, hdη, j, hj, rfl, honly'⟩ := h.exists_unmerged hd₀ η₀ hm
    rw [← hcθ] at hpos ⊢
    rw [← hdη]
    rw [Literal.negated_subst] at hneg
    have hkpos : (k.subst θ).negated = false := hpos _ (mem_subst_of_mem hk)
    rw [Literal.negated_subst] at hkpos
    -- The first parent is positive and the second one is not, so they are different.
    have hne : c ≠ d := by
      rintro rfl
      have := hpos _ (mem_subst_of_mem hj)
      rw [Literal.negated_subst, hneg] at this
      exact absurd this (by decide)
    rw [Literal.atom_subst, Literal.atom_subst] at hatom
    rcases h.resolvent c hc d hd hne with hres | hres
    · obtain ⟨r, hr, ζ, hζ⟩ := exists_resolvent (h.apart c hc d hd hne) hk hj
        (by rw [hkpos, hneg]; decide) hatom
      obtain ⟨e, he, hvar⟩ := hres r hr
      obtain ⟨ξ, hξ⟩ := hvar.subst ζ
      refine ⟨e, he, ξ, hξ.trans (hζ.trans (Clause.ext fun x => ?_))⟩
      simp only [mem_ofList, List.mem_append, mem_others_subst honly, mem_others_subst honly']
    · obtain ⟨r, hr, ζ, hζ⟩ := exists_resolvent (h.apart d hd c hc hne.symm) hj hk
        (by rw [hkpos, hneg]; decide) hatom.symm
      obtain ⟨e, he, hvar⟩ := hres r hr
      obtain ⟨ξ, hξ⟩ := hvar.subst ζ
      refine ⟨e, he, ξ, hξ.trans (hζ.trans (Clause.ext fun x => ?_))⟩
      simp only [mem_ofList, List.mem_append, mem_others_subst honly, mem_others_subst honly']
      exact or_comm

end Saturated

/-! ## 4. The interpretation on terms -/

namespace Interpretation

/-- The terms as a domain, every function symbol standing for itself, with the atoms in `M` true. -/
def onTerms (M : Set Term) : Interpretation.{0} where
  Domain := Term
  nonempty := ⟨.var ""⟩
  function := .app
  relation p ts := .app p ts ∈ M

theorem value_onTerms (M : Set Term) (θ : String → Term) (t : Term) :
    (onTerms M).value θ t = t.subst θ := rfl

/-- A literal is true under an assignment of terms when its instance is. -/
theorem holds_onTerms (M : Set Term) (θ : String → Term) (l : Literal) :
    (onTerms M).Holds θ l ↔ (l.subst θ).TrueIn M := by
  have hargs : l.args.map ((onTerms M).value θ) = l.args.map (Term.subst θ) :=
    List.map_congr_left fun t _ => value_onTerms M θ t
  simp only [Holds, hargs]
  rfl

end Interpretation

/-- **A closed set of clauses has a model.** -/
theorem Saturated.exists_model {S : Set Clause} (h : Saturated S) :
    ∃ I : Interpretation.{0}, ∀ c ∈ S, I.Satisfies c := by
  obtain ⟨M, hM⟩ := h.positivelyClosed.exists_atoms
  refine ⟨.onTerms M, ?_⟩
  intro c hc θ
  obtain ⟨k, hk, htrue⟩ := hM (c.subst θ) ⟨c, hc, θ, rfl⟩
  obtain ⟨l, hl, rfl⟩ := mem_subst.mp hk
  exact ⟨l, hl, (Interpretation.holds_onTerms M θ l).mpr htrue⟩

end Clausal

/-
# Chains of bindings and where they end

To follow chains is to go from a bound variable to its image, then to the variables of the image, and
so on.  No measure falls along the way, since a binding may lead back to where it came from.  `Expands`
has the rules of this recursion without any bound on its depth, so that a term has no expansion if
the recursion does not end.

What decides is the graph of the bindings, with an edge from a bound variable to each variable of its
image (`LeadsTo`).  A term has an expansion exactly if no cycle of the graph can be reached from its
variables; cycles elsewhere do no harm, nor does a variable that is reached along several paths.  In
one direction a cycle would have to be expanded inside its own expansion
(`Expands.not_reachesCycle`).  In the other direction, where no cycle is reached, a variable that has
been replaced does not come back; so one bound variable after the other is used up, and a depth of
their number is enough (`exists_expandWithin`).  That is the depth that `expand?` allows, which is
therefore the recursion itself (`expand?_eq_some_iff`).

Literals and clauses are expanded variable by variable as terms are.  What is common to the three
kinds is stated once (`Expressions`).
-/
import Clausal.Proofs.SolvedForm
import Mathlib.Data.Finset.Card
import Mathlib.Logic.Function.Iterate
import Mathlib.Logic.Relation

namespace Clausal

open Relation

namespace Substitution

variable {σ : Substitution} {θ : String → Term} {x : String} {t u v : Term} {depth : Nat}

/-! ## 1. The recursion and the graph -/

/-- `u` is what becomes of `t` when bound variables are replaced by what becomes of their images. -/
inductive Expands (σ : Substitution) : Term → Term → Prop where
  | free {x : String} (h : σ.lookup? x = none) : Expands σ (.var x) (.var x)
  | bound {x : String} {t u : Term} (h : σ.lookup? x = some t) (image : Expands σ t u) :
      Expands σ (.var x) u
  /-- `g` gives what becomes of each argument. -/
  | app {f : String} {ts : List Term} (g : Term → Term) (args : ∀ t ∈ ts, Expands σ t (g t)) :
      Expands σ (.app f ts) (.app f (ts.map g))

/-- `x` is bound to a term in which `y` occurs. -/
def LeadsTo (σ : Substitution) (x y : String) : Prop :=
  ∃ t, σ.lookup? x = some t ∧ y ∈ t.vars

/-- From one of the variables a cycle of bindings can be reached. -/
def ReachesCycle (σ : Substitution) (xs : List String) : Prop :=
  ∃ x ∈ xs, ∃ y, ReflTransGen σ.LeadsTo x y ∧ TransGen σ.LeadsTo y y

/-- A cycle is reached from a variable exactly if the variable is bound and the cycle is reached from
its image. -/
theorem reachesCycle_singleton :
    σ.ReachesCycle [x] ↔ ∃ t, σ.lookup? x = some t ∧ σ.ReachesCycle t.vars := by
  constructor
  · rintro ⟨_, hx, y, hreach, hcycle⟩
    obtain rfl := List.mem_singleton.mp hx
    rcases hreach.cases_head with rfl | ⟨z, ⟨t, ht, hz⟩, hreach⟩
    · -- The variable is on the cycle itself, and so is the next one.
      obtain ⟨z, hstep, hback⟩ := TransGen.head'_iff.mp hcycle
      obtain ⟨t, ht, hz⟩ := hstep
      exact ⟨t, ht, z, hz, z, .refl, TransGen.tail' hback ⟨t, ht, hz⟩⟩
    · exact ⟨t, ht, z, hz, y, hreach, hcycle⟩
  · rintro ⟨t, ht, z, hz, y, hreach, hcycle⟩
    exact ⟨x, List.mem_singleton_self x, y, hreach.head ⟨t, ht, hz⟩, hcycle⟩

theorem ReachesCycle.of_mem {xs : List String} (h : σ.ReachesCycle [x]) (hx : x ∈ xs) :
    σ.ReachesCycle xs := by
  obtain ⟨z, hz, hcycle⟩ := h
  exact ⟨x, hx, List.mem_singleton.mp hz ▸ hcycle⟩

theorem ReachesCycle.exists_mem {xs : List String} (h : σ.ReachesCycle xs) :
    ∃ x ∈ xs, σ.ReachesCycle [x] := by
  obtain ⟨x, hx, hcycle⟩ := h
  exact ⟨x, hx, x, List.mem_singleton_self x, hcycle⟩

/-! ## 2. What the recursion comes to -/

/-- Terms are expanded variable by variable. -/
theorem expands_subst (h : ∀ x ∈ t.vars, σ.Expands (.var x) (θ x)) :
    σ.Expands t (t.subst θ) := by
  induction t with
  | var x => exact h x (by simp)
  | app f ts ih =>
    rw [Term.subst_app]
    refine .app _ fun s hs => ih s hs fun x hx => h x ?_
    rw [Term.vars_app, List.mem_flatMap]
    exact ⟨s, hs, hx⟩

/-- The recursion has one result at most. -/
theorem Expands.unique (h : σ.Expands t u) (h' : σ.Expands t v) : u = v := by
  induction h generalizing v with
  | free hx =>
    cases h' with
    | free _ => rfl
    | bound ht _ => exact absurd (hx.symm.trans ht) (by simp)
  | bound ht _ ih =>
    cases h' with
    | free hx => exact absurd (hx.symm.trans ht) (by simp)
    | bound ht' image =>
      obtain rfl := Option.some.inj (ht.symm.trans ht')
      exact ih image
  | app g _ ih =>
    cases h' with
    | app g' args => rw [List.map_congr_left fun s hs => ih s hs (args s hs)]

/-- What is left has no bound variable. -/
theorem Expands.unbound (h : σ.Expands t u) : ∀ x ∈ u.vars, σ.lookup? x = none := by
  induction h with
  | free h => simpa using h
  | bound _ _ ih => exact ih
  | app g _ ih =>
    intro x hx
    simp only [Term.vars_app, List.mem_flatMap, List.mem_map] at hx
    obtain ⟨_, ⟨s, hs, rfl⟩, hx⟩ := hx
    exact ih s hs x hx

/-- **The recursion does not end where a cycle is reached.** -/
theorem Expands.not_reachesCycle (h : σ.Expands t u) : ¬ σ.ReachesCycle t.vars := by
  induction h with
  | free hx =>
    intro hcycle
    obtain ⟨t, ht, -⟩ := reachesCycle_singleton.mp hcycle
    exact absurd (hx.symm.trans ht) (by simp)
  | bound hx _ ih =>
    intro hcycle
    obtain ⟨t, ht, hcycle⟩ := reachesCycle_singleton.mp hcycle
    obtain rfl := Option.some.inj (hx.symm.trans ht)
    exact ih hcycle
  | app g _ ih =>
    intro hcycle
    obtain ⟨x, hx, hcycle⟩ := hcycle.exists_mem
    rw [Term.vars_app, List.mem_flatMap] at hx
    obtain ⟨s, hs, hx⟩ := hx
    exact ih s hs (hcycle.of_mem hx)

/-! ## 3. A bounded depth -/

/-- A bounded depth is spent on each variable anew. -/
theorem expandWithin_eq_traverse (σ : Substitution) (depth : Nat) (t : Term) :
    σ.expandWithin depth t = t.traverse fun x => σ.expandWithin depth (.var x) := by
  cases depth <;> rfl

theorem expandWithin_zero_var (h : σ.expandWithin 0 (.var x) = some u) : σ.lookup? x = none := by
  rw [expandWithin, Term.traverse_var] at h
  split at h
  · simp at h
  · rename_i hx
    simpa using hx

theorem expandWithin_succ_var (h : σ.lookup? x = some t) (depth : Nat) :
    σ.expandWithin (depth + 1) (.var x) = σ.expandWithin depth t := by
  rw [expandWithin, Term.traverse_var, h]

/-- **Induction along an expansion within a bounded depth**: a variable is free, or bound and the
depth is one less for its image, and a term is expanded variable by variable. -/
theorem expandWithin_induct {P : Nat → Term → Term → Prop}
    (free : ∀ depth x, σ.lookup? x = none → P depth (.var x) (.var x))
    (bound : ∀ depth x t u, σ.lookup? x = some t → P depth t u → P (depth + 1) (.var x) u)
    (term : ∀ depth t θ, (∀ x ∈ t.vars, P depth (.var x) (θ x)) → P depth t (t.subst θ))
    (h : σ.expandWithin depth t = some u) : P depth t u := by
  induction depth generalizing t u with
  | zero =>
    rw [expandWithin_eq_traverse] at h
    rw [← Term.subst_of_traverse h]
    refine term 0 t _ fun x hx => ?_
    have hfree := expandWithin_zero_var (Term.traverse_vars h x hx)
    rw [expandWithin_of_unbound (by simpa using hfree)]
    exact free 0 x hfree
  | succ depth ih =>
    rw [expandWithin_eq_traverse] at h
    rw [← Term.subst_of_traverse h]
    refine term (depth + 1) t _ fun x hx => ?_
    have hvar := Term.traverse_vars h x hx
    cases hs : σ.lookup? x with
    | none =>
      rw [expandWithin_of_unbound (by simpa using hs)]
      exact free (depth + 1) x hs
    | some s =>
      rw [expandWithin_succ_var hs] at hvar ⊢
      exact bound depth x s _ hs (ih hvar)

/-- What is found within a bounded depth is what the recursion comes to. -/
theorem expands_of_expandWithin (h : σ.expandWithin depth t = some u) : σ.Expands t u :=
  expandWithin_induct (P := fun _ t u => σ.Expands t u) (fun _ _ hx => .free hx)
    (fun _ _ _ _ hx ih => .bound hx ih) (fun _ _ _ ih => expands_subst ih) h

/-- A depth that is not enough for a term is not enough for one of its bound variables. -/
theorem exists_of_expandWithin_eq_none (h : σ.expandWithin depth t = none) :
    ∃ x ∈ t.vars, ∃ s, σ.lookup? x = some s ∧
      ∀ depth', depth' + 1 = depth → σ.expandWithin depth' s = none := by
  rw [expandWithin_eq_traverse, Term.traverse_eq_none_iff] at h
  obtain ⟨x, hx, hnone⟩ := h
  cases hs : σ.lookup? x with
  | none =>
    rw [expandWithin_of_unbound (by simpa using hs)] at hnone
    exact absurd hnone (by simp)
  | some s =>
    refine ⟨x, hx, s, hs, ?_⟩
    rintro depth' rfl
    rwa [expandWithin_succ_var hs] at hnone

/-- **As many bindings as variables can be reached are enough**, where no cycle is reached. -/
theorem exists_expandWithin {S : Finset String} (hcard : S.card ≤ depth)
    (hS : ∀ x ∈ t.vars, ∀ y, ReflTransGen σ.LeadsTo x y → (σ.lookup? y).isSome → y ∈ S)
    (hacyclic : ¬ σ.ReachesCycle t.vars) : ∃ u, σ.expandWithin depth t = some u := by
  induction depth generalizing t S with
  | zero =>
    rw [← Option.ne_none_iff_exists']
    intro hnone
    obtain ⟨x, hx, s, hs, -⟩ := exists_of_expandWithin_eq_none hnone
    have hxS : x ∈ S := hS x hx x .refl (by rw [hs]; rfl)
    exact absurd (Finset.card_pos.mpr ⟨x, hxS⟩) (by omega)
  | succ depth ih =>
    rw [← Option.ne_none_iff_exists']
    intro hnone
    obtain ⟨x, hx, s, hs, hnone⟩ := exists_of_expandWithin_eq_none hnone
    have hxS : x ∈ S := hS x hx x .refl (by rw [hs]; rfl)
    -- From the image the variable cannot be reached again, so there is one variable less to meet.
    have himage : ∃ u, σ.expandWithin depth s = some u := by
      refine ih (S := S.erase x) ?_ ?_ ?_
      · rw [Finset.card_erase_of_mem hxS]
        omega
      · intro z hz y hreach hy
        refine Finset.mem_erase.mpr ⟨?_, hS x hx y (hreach.head ⟨s, hs, hz⟩) hy⟩
        rintro rfl
        exact hacyclic ⟨y, hx, y, .refl, TransGen.head' ⟨s, hs, hz⟩ hreach⟩
      · intro hcycle
        exact hacyclic ((reachesCycle_singleton.mpr ⟨s, hs, hcycle⟩).of_mem hx)
    exact Option.ne_none_iff_exists'.mpr himage (hnone depth rfl)

/-- **There is a result exactly if no cycle is reached.** -/
theorem exists_expand?_iff : (∃ u, σ.expand? t = some u) ↔ ¬ σ.ReachesCycle t.vars := by
  constructor
  · rintro ⟨u, hu⟩
    exact (expands_of_expandWithin hu).not_reachesCycle
  · intro hacyclic
    refine exists_expandWithin (S := (σ.bindings.map Prod.fst).toFinset) ?_ ?_ hacyclic
    · exact (List.toFinset_card_le _).trans_eq (List.length_map ..)
    · intro x _ y _ hy
      obtain ⟨s, hs⟩ := Option.isSome_iff_exists.mp hy
      exact List.mem_toFinset.mpr (List.mem_map.mpr ⟨_, mem_of_lookup? hs, rfl⟩)

/-- A variable that is bound to itself is a cycle, although to replace it changes nothing. -/
example : let σ : Substitution := ⟨[("x", .var "x")]⟩
    σ.expand? (.var "x") = none ∧ σ.apply (.var "x") = .var "x" := by
  decide

/-- **To follow chains is the recursion without a bound.** -/
theorem expand?_eq_some_iff : σ.expand? t = some u ↔ σ.Expands t u := by
  constructor
  · exact expands_of_expandWithin
  · intro h
    obtain ⟨v, hv⟩ := exists_expand?_iff.mpr h.not_reachesCycle
    rw [hv, (expands_of_expandWithin hv).unique h]

/-- Where a cycle is reached no depth is enough. -/
theorem expandWithin_eq_none (h : σ.ReachesCycle t.vars) (depth : Nat) :
    σ.expandWithin depth t = none := by
  cases hu : σ.expandWithin depth t with
  | none => rfl
  | some u => exact absurd h (expands_of_expandWithin hu).not_reachesCycle

/-! ## 4. The ends of the chains -/

/-- What the chains from `x` end in; `x` itself where they do not end. -/
def ends (σ : Substitution) (x : String) : Term :=
  (σ.expand? (.var x)).getD (.var x)

theorem ends_of_unbound (h : σ.lookup? x = none) : σ.ends x = .var x := by
  rw [ends, expand?, expandWithin_of_unbound (by simpa using h), Option.getD_some]

theorem expand?_var (h : ¬ σ.ReachesCycle [x]) : σ.expand? (.var x) = some (σ.ends x) := by
  obtain ⟨u, hu⟩ := (exists_expand?_iff (t := .var x)).mpr h
  rw [ends, hu, Option.getD_some]

theorem unbound_of_mem_ends (h : ¬ σ.ReachesCycle [x]) {y : String} (hy : y ∈ (σ.ends x).vars) :
    σ.lookup? y = none :=
  (expand?_eq_some_iff.mp (expand?_var h)).unbound y hy

/-- No cycle is reached from variables that are not bound. -/
theorem not_reachesCycle_of_unbound {xs : List String} (h : ∀ x ∈ xs, σ.lookup? x = none) :
    ¬ σ.ReachesCycle xs := by
  intro hcycle
  obtain ⟨x, hx, hcycle⟩ := hcycle.exists_mem
  obtain ⟨t, ht, -⟩ := reachesCycle_singleton.mp hcycle
  exact absurd ((h x hx).symm.trans ht) (by simp)

/-- What becomes of `x` if all bound variables are replaced at once, and that is done `n` times. -/
def passes (σ : Substitution) (n : Nat) (x : String) : Term :=
  σ.apply^[n] (.var x)

theorem passes_succ (n : Nat) (x : String) :
    σ.passes (n + 1) x = (σ.passes n x).subst σ.image :=
  Function.iterate_succ_apply' σ.apply n (.var x)

end Substitution

/-! ## 5. Terms, literals and clauses alike -/

/-- A kind of expressions, with their variables and the substitutions that act on them. -/
structure Expressions (α : Type) where
  vars : α → List String
  subst : (String → Term) → α → α
  subst_id : ∀ a, subst .var a = a
  subst_subst : ∀ θ η a, subst η (subst θ a) = subst (fun x => (θ x).subst η) a
  subst_congr : ∀ {θ η a}, (∀ x ∈ vars a, θ x = η x) → subst θ a = subst η a
  mem_vars_subst : ∀ {θ a y}, y ∈ vars (subst θ a) ↔ ∃ x ∈ vars a, y ∈ (θ x).vars

def Term.expressions : Expressions Term where
  vars := vars
  subst := subst
  subst_id := subst_id
  subst_subst := subst_subst
  subst_congr := subst_congr
  mem_vars_subst := mem_vars_subst

def Literal.expressions : Expressions Literal where
  vars := vars
  subst := subst
  subst_id := subst_id
  subst_subst := subst_subst
  subst_congr := subst_congr
  mem_vars_subst := mem_vars_subst

def Clause.expressions : Expressions Clause where
  vars := vars
  subst := subst
  subst_id := subst_id
  subst_subst := subst_subst
  subst_congr := subst_congr
  mem_vars_subst := mem_vars_subst

namespace Expressions

variable {α : Type} (E : Expressions α) (σ : Substitution)

/-- Replaces all bound variables at once. -/
def apply (a : α) : α :=
  E.subst σ.image a

theorem iterate_apply (n : Nat) (a : α) : (E.apply σ)^[n] a = E.subst (σ.passes n) a := by
  induction n with
  | zero => exact (E.subst_id a).symm
  | succ n ih =>
    rw [Function.iterate_succ_apply', ih, apply, E.subst_subst]
    exact E.subst_congr fun x _ => (σ.passes_succ n x).symm

theorem apply_of_unbound {a : α} (h : ∀ x ∈ E.vars a, σ.lookup? x = none) : E.apply σ a = a := by
  calc E.apply σ a = E.subst .var a := E.subst_congr fun x hx => σ.image_of_unbound (h x hx)
    _ = a := E.subst_id a

end Expressions

namespace Substitution

variable {σ : Substitution} {x : String} {t u : Term} {depth : Nat}

/-- **As many passes as the depth** reach what is found within it. -/
theorem iterate_of_expandWithin (h : σ.expandWithin depth t = some u) :
    σ.apply^[depth] t = u := by
  refine expandWithin_induct (P := fun depth t u => σ.apply^[depth] t = u) ?free ?bound ?term h
  case free =>
    intro depth x hx
    exact Function.iterate_fixed (apply_of_unbound (by simpa using hx)) depth
  case bound =>
    intro depth x t u hx ih
    rw [Function.iterate_succ_apply, apply, Term.subst_var, image, hx, Option.getD_some]
    exact ih
  case term =>
    intro depth t θ ih
    exact (Term.expressions.iterate_apply σ depth t).trans (Term.subst_congr ih)

theorem passes_eq_ends (h : ¬ σ.ReachesCycle [x]) :
    σ.passes σ.bindings.length x = σ.ends x :=
  iterate_of_expandWithin (expand?_var h)

end Substitution

/-- To apply `f` again and again, from `a` on, comes to rest, and it is at `b` when it does. -/
def ComesToRest {α : Type} (f : α → α) (a b : α) : Prop :=
  (∃ n, f^[n + 1] a = f^[n] a) ∧ ∀ n, f^[n + 1] a = f^[n] a → f^[n] a = b

theorem comesToRest_of_iterate {α : Type} {f : α → α} {a b : α} {n : Nat} (hb : f^[n] a = b)
    (hfix : f b = b) : ComesToRest f a b := by
  constructor
  · refine ⟨n, ?_⟩
    rw [Function.iterate_succ_apply', hb, hfix]
  · intro m hm
    rw [Function.iterate_succ_apply'] at hm
    -- Both are where the sum of the two numbers leads, for neither changes any more.
    calc f^[m] a = f^[n] (f^[m] a) := (Function.iterate_fixed hm n).symm
      _ = f^[m] (f^[n] a) := by
          rw [← Function.iterate_add_apply, Nat.add_comm, Function.iterate_add_apply]
      _ = b := by rw [hb, Function.iterate_fixed hfix]

/-- What following chains comes to for expressions of one kind. -/
structure FollowsChains (σ : Substitution) {α : Type} (vars : α → List String) (apply : α → α)
    (expand? : α → Option α) : Prop where
  /-- There is a result exactly if no cycle of bindings is reached. -/
  exists_iff : ∀ a, (∃ b, expand? a = some b) ↔ ¬ σ.ReachesCycle (vars a)
  /-- No bound variable is left in it. -/
  unbound : ∀ a b, expand? a = some b → ∀ x ∈ vars b, σ.lookup? x = none
  /-- It has itself as result. -/
  again : ∀ a b, expand? a = some b → expand? b = some b
  /-- It is what replacing all bound variables at once leads to, if that is repeated until nothing
  changes. -/
  rest : ∀ a b, expand? a = some b → ComesToRest apply a b

namespace Expressions

variable {α : Type} {E : Expressions α} {σ : Substitution} {expand? : α → Option α}

/-- `expand?` puts the ends of all chains in place of the variables, and has no result if one of the
chains has no end. -/
structure ExpandedBy (E : Expressions α) (σ : Substitution) (expand? : α → Option α) : Prop where
  ends : ∀ a, ¬ σ.ReachesCycle (E.vars a) → expand? a = some (E.subst σ.ends a)
  endless : ∀ a, σ.ReachesCycle (E.vars a) → expand? a = none

theorem ExpandedBy.eq_some (h : E.ExpandedBy σ expand?) {a b : α} (hb : expand? a = some b) :
    (∀ x ∈ E.vars a, ¬ σ.ReachesCycle [x]) ∧ b = E.subst σ.ends a := by
  have hacyclic : ¬ σ.ReachesCycle (E.vars a) := by
    intro hcycle
    rw [h.endless a hcycle] at hb
    exact absurd hb (by simp)
  refine ⟨fun x hx hcycle => hacyclic (hcycle.of_mem hx), ?_⟩
  rw [h.ends a hacyclic] at hb
  exact (Option.some.inj hb).symm

theorem ExpandedBy.followsChains (h : E.ExpandedBy σ expand?) :
    FollowsChains σ E.vars (E.apply σ) expand? := by
  have hunbound : ∀ a b, expand? a = some b → ∀ x ∈ E.vars b, σ.lookup? x = none := by
    intro a b hb x hx
    obtain ⟨hacyclic, rfl⟩ := h.eq_some hb
    obtain ⟨y, hy, hx⟩ := E.mem_vars_subst.mp hx
    exact Substitution.unbound_of_mem_ends (hacyclic y hy) hx
  refine ⟨fun a => ⟨?_, ?_⟩, hunbound, ?_, ?_⟩
  · rintro ⟨b, hb⟩ hcycle
    rw [h.endless a hcycle] at hb
    exact absurd hb (by simp)
  · exact fun hacyclic => ⟨_, h.ends a hacyclic⟩
  · intro a b hb
    have hfree := hunbound a b hb
    rw [h.ends b (Substitution.not_reachesCycle_of_unbound hfree)]
    have hsame : E.subst σ.ends b = E.subst .var b :=
      E.subst_congr fun x hx => Substitution.ends_of_unbound (hfree x hx)
    rw [hsame, E.subst_id]
  · intro a b hb
    refine comesToRest_of_iterate (n := σ.bindings.length) ?_
      (E.apply_of_unbound σ (hunbound a b hb))
    obtain ⟨hacyclic, rfl⟩ := h.eq_some hb
    rw [E.iterate_apply]
    exact E.subst_congr fun x hx => Substitution.passes_eq_ends (hacyclic x hx)

/-- A list is expanded member by member. -/
theorem ExpandedBy.mapM_eq_some (h : E.ExpandedBy σ expand?) {as : List α}
    (hacyclic : ¬ σ.ReachesCycle (as.flatMap E.vars)) :
    as.mapM expand? = some (as.map (E.subst σ.ends)) := by
  refine mapM_eq_some_map fun a ha => h.ends a fun hcycle => hacyclic ?_
  obtain ⟨x, hx, hcycle⟩ := hcycle.exists_mem
  exact hcycle.of_mem (List.mem_flatMap.mpr ⟨a, ha, hx⟩)

theorem ExpandedBy.mapM_eq_none (h : E.ExpandedBy σ expand?) {as : List α}
    (hcycle : σ.ReachesCycle (as.flatMap E.vars)) : as.mapM expand? = none := by
  obtain ⟨x, hx, hcycle⟩ := hcycle.exists_mem
  obtain ⟨a, ha, hx⟩ := List.mem_flatMap.mp hx
  exact mapM_eq_none_iff.mpr ⟨a, ha, h.endless a (hcycle.of_mem hx)⟩

end Expressions

theorem Term.expandedBy (σ : Substitution) : expressions.ExpandedBy σ σ.expand? where
  ends t hacyclic := by
    rw [Substitution.expand?_eq_some_iff]
    refine Substitution.expands_subst fun x hx => ?_
    refine Substitution.expand?_eq_some_iff.mp (Substitution.expand?_var fun hcycle => ?_)
    exact hacyclic (hcycle.of_mem hx)
  endless _ hcycle := Substitution.expandWithin_eq_none hcycle _

theorem Literal.expandedBy (σ : Substitution) : expressions.ExpandedBy σ (expand? σ) where
  ends l hacyclic := by
    rw [expand?, (Term.expandedBy σ).mapM_eq_some hacyclic]
    rfl
  endless l hcycle := by
    rw [expand?, (Term.expandedBy σ).mapM_eq_none hcycle]
    rfl

theorem Clause.expandedBy (σ : Substitution) : expressions.ExpandedBy σ (expand? σ) where
  ends c hacyclic := by
    rw [expand?, (Literal.expandedBy σ).mapM_eq_some hacyclic]
    rfl
  endless c hcycle := by
    rw [expand?, (Literal.expandedBy σ).mapM_eq_none hcycle]
    rfl

/-- The members of what becomes of a clause are what becomes of its members. -/
theorem Clause.mem_expand? {σ : Substitution} {c d : Clause} (h : c.expand? σ = some d)
    (k : Literal) : k ∈ d ↔ ∃ l ∈ c, l.expand? σ = some k := by
  obtain ⟨hacyclic, rfl⟩ := (expandedBy σ).eq_some h
  have hends : ∀ l ∈ c, l.expand? σ = some (l.subst σ.ends) := by
    refine fun l hl => (Literal.expandedBy σ).ends l fun hcycle => ?_
    obtain ⟨x, hx, hcycle⟩ := hcycle.exists_mem
    exact hacyclic x (mem_vars.mpr ⟨l, hl, hx⟩) hcycle
  constructor
  · intro hk
    obtain ⟨l, hl, rfl⟩ := mem_subst.mp hk
    exact ⟨l, hl, hends l hl⟩
  · rintro ⟨l, hl, hk⟩
    obtain rfl := Option.some.inj ((hends l hl).symm.trans hk)
    exact mem_subst_of_mem hl

/-! ## 6. Any bindings whatever -/

/-- **Following chains of any bindings whatever.**  For terms, for literals and for clauses there is a
result exactly if no cycle of bindings can be reached from the variables; no bound variable is left in
it, it has itself as result, and it is where replacing all bound variables at once comes to rest.  A
clause is expanded member by member.  The result is that of the recursion without any bound on its
depth, and where a cycle is reached the recursion does not end: no depth is enough. -/
theorem chains_end_unless_they_cycle (σ : Substitution) :
    FollowsChains σ Term.vars σ.apply σ.expand? ∧
    FollowsChains σ Literal.vars (Literal.apply σ) (Literal.expand? σ) ∧
    FollowsChains σ Clause.vars (Clause.apply σ) (Clause.expand? σ) ∧
    (∀ c d : Clause, c.expand? σ = some d → ∀ k, k ∈ d ↔ ∃ l ∈ c, l.expand? σ = some k) ∧
    (∀ t u : Term, σ.expand? t = some u ↔ σ.Expands t u) ∧
    ∀ t : Term, σ.ReachesCycle t.vars →
      (¬ ∃ u, σ.Expands t u) ∧ ∀ depth, σ.expandWithin depth t = none := by
  refine ⟨(Term.expandedBy σ).followsChains, (Literal.expandedBy σ).followsChains,
    (Clause.expandedBy σ).followsChains, fun c d h k => Clause.mem_expand? h k,
    fun t u => Substitution.expand?_eq_some_iff, fun t hcycle => ⟨?_, ?_⟩⟩
  · rintro ⟨u, hu⟩
    exact hu.not_reachesCycle hcycle
  · exact Substitution.expandWithin_eq_none hcycle

/-- `w` is reached from `x` along two paths; `p` and `q` lead to each other. -/
def sharedAndCyclic : Substitution :=
  ⟨[("x", .app "f" [.var "y", .var "z"]), ("y", .app "g" [.var "w"]), ("z", .app "g" [.var "w"]),
    ("w", .app "a" []), ("p", .app "h" [.var "q"]), ("q", .var "p")]⟩

/-- The cycle of `sharedAndCyclic` is not reached from `x`, where replacing all bound variables at once
comes to rest after three passes; no depth is enough to expand `p`, nor a clause in which it
occurs. -/
theorem sharedAndCyclic_chains_end :
    sharedAndCyclic.expand? (.var "x") =
      some (.app "f" [.app "g" [.app "a" []], .app "g" [.app "a" []]]) ∧
    ¬ sharedAndCyclic.ReachesCycle ["x"] ∧
    ComesToRest sharedAndCyclic.apply (.var "x")
      (.app "f" [.app "g" [.app "a" []], .app "g" [.app "a" []]]) ∧
    sharedAndCyclic.ReachesCycle ["p"] ∧
    (∀ depth, sharedAndCyclic.expandWithin depth (.var "p") = none) ∧
    ¬ ∃ d, (Clause.ofList [⟨false, "R", [.var "x"]⟩, ⟨true, "S", [.var "p"]⟩]).expand?
      sharedAndCyclic = some d := by
  have hx : sharedAndCyclic.expand? (.var "x") =
      some (.app "f" [.app "g" [.app "a" []], .app "g" [.app "a" []]]) := by decide +kernel
  have hp : sharedAndCyclic.LeadsTo "p" "q" := ⟨.app "h" [.var "q"], by decide +kernel, by decide⟩
  have hq : sharedAndCyclic.LeadsTo "q" "p" := ⟨.var "p", by decide +kernel, by decide⟩
  have hcycle : sharedAndCyclic.ReachesCycle ["p"] :=
    ⟨"p", by decide, "p", .refl, TransGen.tail (.single hp) hq⟩
  obtain ⟨hterms, -, hclauses, -, -, hendless⟩ := chains_end_unless_they_cycle sharedAndCyclic
  refine ⟨hx, (hterms.exists_iff _).mp ⟨_, hx⟩, hterms.rest _ _ hx, hcycle,
    (hendless (.var "p") hcycle).2, ?_⟩
  rw [hclauses.exists_iff, not_not]
  exact hcycle.of_mem (by decide +kernel)

end Clausal

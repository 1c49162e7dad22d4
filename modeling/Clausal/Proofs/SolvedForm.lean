/-
# Unifiers are in solved form

A substitution is in *solved form* if no variable that it binds occurs in an image.  A chain of its
bindings then ends after the first one, so following chains has a result for every term, and it is
that of replacing all bound variables at once (`Solved.expand?_eq`).

The unifier of two terms is in solved form because a variable is eliminated when it is bound: it is
replaced in the images recorded before, and in the equations that still wait.  The first alone would
not do, for a later equation could bring the variable back into an image; so the two are one
invariant of the queue (`Eliminated`), which every reduction keeps.

Soundness and generality of the unifier were shown for replacing all bound variables at once; with
the solved form they hold along chains too.
-/
import Clausal.Proofs.Traversal
import Clausal.Proofs.Unification

namespace Clausal

/-! ## 1. Solved forms -/

namespace Substitution

variable {σ : Substitution} {x : String} {t u : Term}

/-- No bound variable occurs in an image. -/
def Solved (σ : Substitution) : Prop :=
  ∀ b ∈ σ.bindings, ∀ d ∈ σ.bindings, b.1 ∉ d.2.vars

instance (σ : Substitution) : Decidable σ.Solved :=
  inferInstanceAs (Decidable (∀ b ∈ σ.bindings, ∀ d ∈ σ.bindings, b.1 ∉ d.2.vars))

theorem lookup?_eq_none_iff : σ.lookup? x = none ↔ ∀ b ∈ σ.bindings, b.1 ≠ x := by
  rw [lookup?, List.lookup_eq_none_iff]
  simp only [bne_iff_ne, ne_comm]

theorem mem_of_lookup? (h : σ.lookup? x = some t) : (x, t) ∈ σ.bindings := by
  obtain ⟨before, after, he, -⟩ := List.lookup_eq_some_iff.mp h
  rw [he]
  exact List.mem_append_right _ List.mem_cons_self

theorem image_of_unbound (h : σ.lookup? x = none) : σ.image x = .var x := by
  rw [image, h, Option.getD_none]

/-- The variables of an image are not bound, nor is a variable that is its own image. -/
theorem Solved.unbound_of_mem_image (h : σ.Solved) {y : String} (hy : y ∈ (σ.image x).vars) :
    σ.lookup? y = none := by
  cases hx : σ.lookup? x with
  | none =>
    rw [image_of_unbound hx, Term.vars_var, List.mem_singleton] at hy
    rw [hy, hx]
  | some t =>
    rw [image, hx, Option.getD_some] at hy
    refine lookup?_eq_none_iff.mpr fun b hb he => ?_
    exact h b hb (x, t) (mem_of_lookup? hx) (he ▸ hy)

theorem Solved.unbound_of_mem_apply (h : σ.Solved) (ht : x ∈ (σ.apply t).vars) :
    σ.lookup? x = none := by
  obtain ⟨y, -, hx⟩ := Term.mem_vars_subst.mp ht
  exact h.unbound_of_mem_image hx

theorem apply_of_unbound (h : ∀ x ∈ t.vars, σ.lookup? x = none) : σ.apply t = t := by
  calc σ.apply t = t.subst .var := Term.subst_congr fun x hx => image_of_unbound (h x hx)
    _ = t := Term.subst_id t

/-- A term without bound variables stays as it is, however long a chain may be. -/
theorem expandWithin_of_unbound (h : ∀ x ∈ t.vars, σ.lookup? x = none) (depth : Nat) :
    σ.expandWithin depth t = some t := by
  cases depth with
  | zero => exact Term.traverse_eq_self fun x hx => by simp [h x hx]
  | succ depth => exact Term.traverse_eq_self fun x hx => by simp [h x hx]

/-- **No chain goes beyond its first binding**, so every longer one that is allowed makes no
difference. -/
theorem Solved.expandWithin_succ (h : σ.Solved) (depth : Nat) (t : Term) :
    σ.expandWithin (depth + 1) t = some (σ.apply t) := by
  rw [expandWithin, apply]
  refine Term.traverse_eq_some_subst fun x _ => ?_
  cases hx : σ.lookup? x with
  | none => rw [image_of_unbound hx]
  | some u =>
    have himage : σ.image x = u := by rw [image, hx, Option.getD_some]
    rw [himage]
    refine expandWithin_of_unbound (fun y hy => ?_) depth
    exact h.unbound_of_mem_image (himage ▸ hy)

/-- **To follow chains is to replace all bound variables at once.** -/
theorem Solved.expand?_eq (h : σ.Solved) (t : Term) : σ.expand? t = some (σ.apply t) := by
  rw [expand?]
  cases hlen : σ.bindings.length with
  | zero =>
    -- Nothing is bound at all.
    have hnone : ∀ x ∈ t.vars, σ.lookup? x = none := by
      intro x _
      rw [lookup?, List.length_eq_zero_iff.mp hlen, List.lookup_nil]
    rw [expandWithin_of_unbound hnone, apply_of_unbound hnone]
  | succ depth => exact h.expandWithin_succ depth t

/-- A binding of a variable in an image recorded before, which is not pushed through. -/
example : let σ : Substitution := ⟨[("x", .app "f" [.var "y"]), ("y", .app "a" [])]⟩
    ¬ σ.Solved ∧ σ.expand? (.var "x") ≠ some (σ.apply (.var "x")) := by
  decide

theorem Solved.apply_apply (h : σ.Solved) (t : Term) : σ.apply (σ.apply t) = σ.apply t :=
  apply_of_unbound fun _ hx => h.unbound_of_mem_apply hx

/-- Whatever the bindings are, following chains is a substitution where it has a result. -/
theorem exists_subst_of_expand? (σ : Substitution) :
    ∃ θ : String → Term, ∀ t u, σ.expand? t = some u → t.subst θ = u := by
  unfold expand?
  cases σ.bindings.length with
  | zero => exact ⟨_, fun t u h => Term.subst_of_traverse h⟩
  | succ depth => exact ⟨_, fun t u h => Term.subst_of_traverse h⟩

end Substitution

/-! ## 2. The queue eliminates what it binds -/

namespace Equation

open Substitution

variable {queue rest eqs : List Equation} {made σ : Substitution} {e : Equation} {x : String}
  {t : Term}

/-- The bound variables occur neither in the images nor in the equations that wait. -/
structure Eliminated (made : Substitution) (queue : List Equation) : Prop where
  solved : made.Solved
  unbound : ∀ b ∈ made.bindings, b.1 ∉ queueVariables queue

theorem eliminated_empty (queue : List Equation) : Eliminated .empty queue :=
  ⟨fun _ hb => absurd hb List.not_mem_nil, fun _ hb => absurd hb List.not_mem_nil⟩

theorem Eliminated.split (h : Eliminated made (e :: rest)) (hred : e.reduce = .split eqs) :
    Eliminated made (rest ++ eqs) := by
  refine ⟨h.solved, fun b hb hmem => h.unbound b hb ?_⟩
  rw [mem_queueVariables_cons]
  rcases mem_queueVariables_append.mp hmem with hmem | hmem
  · exact Or.inr hmem
  · exact Or.inl (mem_vars_of_split hred hmem)

/-- A variable that is bound after a binding is the new one, or was bound before. -/
theorem bound_of_mem_record {b : String × Term} (h : b ∈ (made.record x t).bindings) :
    b.1 = x ∨ ∃ b' ∈ made.bindings, b'.1 = b.1 := by
  rcases List.mem_append.mp h with h | h
  · obtain ⟨b', hb', rfl⟩ := List.mem_map.mp h
    exact Or.inr ⟨b', hb', rfl⟩
  · rw [List.mem_singleton.mp h]
    exact Or.inl rfl

theorem Eliminated.bind (h : Eliminated made (e :: rest)) (hred : e.reduce = .bind x t) :
    Eliminated (made.record x t) (replaceAll x t rest) := by
  have hocc : x ∉ t.vars := (reduce_eq_bind hred).2
  -- The new image has no bound variable: `x` by the occurs check, the others as `t` waited.
  have himage : ∀ b ∈ (made.record x t).bindings, b.1 ∉ t.vars := by
    intro b hb hmem
    rcases bound_of_mem_record hb with hx | ⟨b', hb', he⟩
    · exact hocc (hx ▸ hmem)
    · refine h.unbound b' hb' (mem_queueVariables_cons.mpr (Or.inl ?_))
      rw [mem_vars_of_bind hred, he]
      exact Or.inr hmem
  constructor
  · intro b hb d hd hmem
    rcases List.mem_append.mp hd with hd | hd
    · obtain ⟨d', hd', rfl⟩ := List.mem_map.mp hd
      rcases Term.mem_vars_replace hmem with hmem | ⟨hmem, hne⟩
      · exact himage b hb hmem
      · obtain hx | ⟨b', hb', he⟩ := bound_of_mem_record hb
        · exact hne hx
        · exact h.solved b' hb' d' hd' (he ▸ hmem)
    · rw [List.mem_singleton.mp hd] at hmem
      exact himage b hb hmem
  · intro b hb hmem
    rcases mem_queueVariables_replaceAll hmem with hmem | ⟨hmem, hne⟩
    · exact himage b hb hmem
    · obtain hx | ⟨b', hb', he⟩ := bound_of_mem_record hb
      · exact hne hx
      · exact h.unbound b' hb' (mem_queueVariables_cons.mpr (Or.inr (he ▸ hmem)))

/-- **The result of a queue is in solved form**, if what was bound before has been eliminated. -/
theorem solve_solved (h : solve queue made = some σ) (hel : Eliminated made queue) :
    σ.Solved := by
  fun_induction solve queue made with
  | case1 made =>
    obtain rfl := Option.some.inj h
    exact hel.solved
  | case2 => simp at h
  | case3 made e rest eqs hred ih => exact ih h (hel.split hred)
  | case4 made e rest x t hred ih => exact ih h (hel.bind hred)

end Equation

/-! ## 3. The unifier of two terms -/

namespace Term

variable {s t : Term} {σ : Substitution}

theorem unify?_solved (h : s.unify? t = some σ) : σ.Solved :=
  Equation.solve_solved h (Equation.eliminated_empty _)

/-- The unifier makes the terms equal along chains of bindings too. -/
theorem unify?_expands (h : s.unify? t = some σ) :
    ∃ u, σ.expand? s = some u ∧ σ.expand? t = some u := by
  have heq : σ.apply s = σ.apply t := unify?_sound h
  refine ⟨σ.apply s, (unify?_solved h).expand?_eq s, ?_⟩
  rw [heq]
  exact (unify?_solved h).expand?_eq t

/-- There is no unifier exactly where nothing makes the terms equal. -/
theorem unify?_eq_none_iff :
    s.unify? t = none ↔ ∀ θ : String → Term, s.subst θ ≠ t.subst θ := by
  constructor
  · intro hnone θ hθ
    obtain ⟨σ, hσ, -⟩ := unify?_most_general hθ
    rw [hnone] at hσ
    exact absurd hσ (by simp)
  · intro hne
    cases hσ : s.unify? t with
    | none => rfl
    | some σ => exact absurd (unify?_sound hσ) (hne σ.image)

end Term

/-- **The unifier is sound and in solved form.**  Its bindings, followed along chains, make the two
terms equal, and no variable that it binds occurs in an image.  So on every term it is the same to
follow chains, of any length from one binding on, and to replace all bound variables at once; and
there is nothing to replace in the result. -/
theorem unifier_is_in_solved_form {s t : Term} {σ : Substitution} (h : s.unify? t = some σ) :
    (∃ u, σ.expand? s = some u ∧ σ.expand? t = some u) ∧
    (∀ b ∈ σ.bindings, ∀ d ∈ σ.bindings, b.1 ∉ d.2.vars) ∧
    ∀ u, (∀ depth, σ.expandWithin (depth + 1) u = some (σ.apply u)) ∧
      σ.expand? u = some (σ.apply u) ∧
      σ.expand? (σ.apply u) = some (σ.apply u) := by
  have hsolved : σ.Solved := Term.unify?_solved h
  refine ⟨Term.unify?_expands h, hsolved, fun u => ⟨?_, hsolved.expand?_eq u, ?_⟩⟩
  · exact fun depth => hsolved.expandWithin_succ depth u
  · rw [hsolved.expand?_eq, hsolved.apply_apply]

/-- Three variables, each to be bound. -/
def threeVariables : Term :=
  .app "f" [.var "x", .var "y", .var "z"]

/-- Images for the three variables, the first two with the next variable in them. -/
def nestedImages : Term :=
  .app "f" [.app "g" [.var "y"], .app "h" [.var "z"], .app "a" []]

/-- The unifier of `threeVariables` and `nestedImages`. -/
def nestedUnifier : Substitution :=
  ⟨[("x", .app "g" [.app "h" [.app "a" []]]), ("y", .app "h" [.app "a" []]), ("z", .app "a" [])]⟩

/-- Each binding but the first is of a variable in an image recorded before, and is pushed through
all of them. -/
theorem nestedImages_are_solved :
    threeVariables.unify? nestedImages = some nestedUnifier ∧
    (∃ u, nestedUnifier.expand? threeVariables = some u ∧
      nestedUnifier.expand? nestedImages = some u) ∧
    nestedUnifier.expandWithin 1 threeVariables =
      some (.app "f" [.app "g" [.app "h" [.app "a" []]], .app "h" [.app "a" []], .app "a" []]) := by
  have h : threeVariables.unify? nestedImages = some nestedUnifier := by decide +kernel
  obtain ⟨hexpand, -, hsame⟩ := unifier_is_in_solved_form h
  refine ⟨h, hexpand, ?_⟩
  rw [(hsame threeVariables).1 0]
  decide

/-- **The unifier is complete and most general.**  There is none exactly when no substitution makes
the two terms equal, whether it is a function that replaces all variables at once or a list of
bindings followed along chains.  And a substitution that makes them equal does not see whether the
unifier was applied before. -/
theorem unifier_is_most_general (s t : Term) :
    (s.unify? t = none ↔ ∀ θ : String → Term, s.subst θ ≠ t.subst θ) ∧
    (s.unify? t = none ↔
      ¬ ∃ (τ : Substitution) (u : Term), τ.expand? s = some u ∧ τ.expand? t = some u) ∧
    ∀ σ, s.unify? t = some σ → ∀ θ : String → Term, s.subst θ = t.subst θ →
      ∀ x, ∃ u, σ.expand? (.var x) = some u ∧ θ x = u.subst θ := by
  refine ⟨Term.unify?_eq_none_iff, ⟨?_, ?_⟩, ?_⟩
  · rintro hnone ⟨τ, u, hs, ht⟩
    obtain ⟨θ, hθ⟩ := τ.exists_subst_of_expand?
    exact Term.unify?_eq_none_iff.mp hnone θ ((hθ s u hs).trans (hθ t u ht).symm)
  · intro hnone
    cases hσ : s.unify? t with
    | none => rfl
    | some σ => exact absurd ⟨σ, Term.unify?_expands hσ⟩ hnone
  · intro σ hσ θ hθ x
    refine ⟨σ.image x, (Term.unify?_solved hσ).expand?_eq (.var x), ?_⟩
    obtain ⟨σ', hσ', hgeneral⟩ := Term.unify?_most_general hθ
    obtain rfl := Option.some.inj (hσ.symm.trans hσ')
    exact (hgeneral x).symm

/-- A variable that stands twice. -/
def twice (x : String) : Term :=
  .app "p" [.var x, .var x]

/-- Two images of one variable, which become equal only if `y` and `z` do. -/
def twoImages : Term :=
  .app "p" [.app "f" [.var "y"], .app "f" [.var "z"]]

/-- A substitution that makes `y` and `z` a constant. -/
def constantImages (v : String) : Term :=
  if v = "x" then .app "f" [.app "a" []] else .app "a" []

/-- The unifier of `twice "x"` and `twoImages` makes `y` equal to `z` and leaves that open, so
`constantImages` is an instance of it.  For `p(y, f(y))` in place of `twoImages` there is none. -/
theorem twoImages_are_unified :
    ((twice "x").unify? twoImages = some ⟨[("x", .app "f" [.var "z"]), ("y", .var "z")]⟩ ∧
      (twice "x").subst constantImages = twoImages.subst constantImages ∧
      ∃ u, (⟨[("x", .app "f" [.var "z"]), ("y", .var "z")]⟩ : Substitution).expand? (.var "y") =
        some u ∧ constantImages "y" = u.subst constantImages) ∧
    (twice "x").unify? (.app "p" [.var "y", .app "f" [.var "y"]]) = none ∧
    (twice "x").subst constantImages ≠
      (Term.app "p" [.var "y", .app "f" [.var "y"]]).subst constantImages := by
  have hsome : (twice "x").unify? twoImages =
      some ⟨[("x", .app "f" [.var "z"]), ("y", .var "z")]⟩ := by decide +kernel
  have hnone : (twice "x").unify? (.app "p" [.var "y", .app "f" [.var "y"]]) = none := by
    decide +kernel
  have hunified : (twice "x").subst constantImages = twoImages.subst constantImages := by decide
  refine ⟨⟨hsome, hunified, ?_⟩, hnone, (unifier_is_most_general _ _).1.mp hnone _⟩
  exact (unifier_is_most_general _ _).2.2 _ hsome _ hunified "y"

end Clausal

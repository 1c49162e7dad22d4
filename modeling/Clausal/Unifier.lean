/-
# Most general unifiers

Unification works through a queue of equations, first in, first out.  An equation between equal
terms is dropped; one between applications of the same functor to equally many arguments is
replaced by the equations of the arguments, which go to the end of the queue; one with a variable
on one side binds the variable (the left one, if both sides are variables) unless it occurs in the
other side.  A new binding is applied at once to the equations still waiting and to the bindings
already recorded, so the recorded substitution is in solved form throughout.

The queue is worked through to its end: `Equation.weight` falls at every step, because a binding
takes its variable out of all remaining equations and every other step takes symbols away.
-/
import Clausal.Distinct
import Clausal.Substitution

namespace Clausal

/-- Two terms that are to be made equal. -/
structure Equation where
  /-- The left side, whose variable is bound first. -/
  lhs : Term
  /-- The right side. -/
  rhs : Term

/-- What one equation asks for. -/
inductive Reduction where
  /-- No substitution satisfies the equation. -/
  | clash
  /-- The equation holds exactly when these equations do. -/
  | split (eqs : List Equation)
  /-- The equation holds when the variable `x`, which does not occur in `t`, becomes `t`. -/
  | bind (x : String) (t : Term)

namespace Equation

/-! ## 1. One equation -/

/-- The occurrences of variables, from left to right. -/
def vars (e : Equation) : List String :=
  e.lhs.vars ++ e.rhs.vars

/-- The number of variable and functor occurrences. -/
def size (e : Equation) : Nat :=
  e.lhs.size + e.rhs.size

/-- Replaces the variable `x` by `t` on both sides. -/
def replace (x : String) (t : Term) (e : Equation) : Equation :=
  ⟨e.lhs.replace x t, e.rhs.replace x t⟩

/-- Replaces the variable `x` by `t` in a whole queue. -/
def replaceAll (x : String) (t : Term) (eqs : List Equation) : List Equation :=
  eqs.map (replace x t)

/-- A binding of `x` to `t`, refused when `x` occurs in `t`. -/
def bindUnlessOccurs (x : String) (t : Term) : Reduction :=
  if (Term.var x).occursIn t then .clash else .bind x t

/-- What the equation asks for. -/
def reduce (e : Equation) : Reduction :=
  if e.lhs = e.rhs then .split []
  else
    match e.lhs, e.rhs with
    | .var x, t => bindUnlessOccurs x t
    | .app f ss, .var x => bindUnlessOccurs x (.app f ss)
    | .app f ss, .app g ts =>
      if f = g ∧ ss.length = ts.length then .split (ss.zipWith Equation.mk ts) else .clash

/-! ## 2. Why the queue becomes empty -/

/-- All occurrences of variables in a queue. -/
def queueVariables (eqs : List Equation) : List String :=
  eqs.flatMap vars

/-- The number of variable and functor occurrences in a queue. -/
def queueSize : List Equation → Nat
  | [] => 0
  | e :: eqs => e.size + queueSize eqs

/-- A bound on the work left in a queue.  The base counts symbols and the exponent distinct
variables: binding a variable may square the number of symbols, and halves the exponent. -/
def weight (eqs : List Equation) : Nat :=
  Nat.pow (queueSize eqs + 2) (Nat.pow 2 (distinctCount (queueVariables eqs)))

theorem size_pos (e : Equation) : 0 < e.size :=
  Nat.add_pos_left e.lhs.size_pos _

@[simp] theorem queueSize_cons (e : Equation) (eqs : List Equation) :
    queueSize (e :: eqs) = e.size + queueSize eqs := rfl

@[simp] theorem queueSize_append (eqs eqs' : List Equation) :
    queueSize (eqs ++ eqs') = queueSize eqs + queueSize eqs' := by
  induction eqs with
  | nil => simp [queueSize]
  | cons e eqs ih => simp [ih, Nat.add_assoc]

@[simp] theorem mem_queueVariables_cons {x : String} {e : Equation} {eqs : List Equation} :
    x ∈ queueVariables (e :: eqs) ↔ x ∈ e.vars ∨ x ∈ queueVariables eqs := by
  simp [queueVariables]

@[simp] theorem mem_queueVariables_append {x : String} {eqs eqs' : List Equation} :
    x ∈ queueVariables (eqs ++ eqs') ↔ x ∈ queueVariables eqs ∨ x ∈ queueVariables eqs' := by
  simp [queueVariables]

/-- Fewer symbols and no new variable: less weight. -/
theorem weight_lt_of_size {eqs eqs' : List Equation} (hs : queueSize eqs < queueSize eqs')
    (hv : ∀ x ∈ queueVariables eqs, x ∈ queueVariables eqs') : weight eqs < weight eqs' := by
  refine Nat.lt_of_le_of_lt (Nat.pow_le_pow_right (Nat.le_add_left 1 _)
    (Nat.pow_le_pow_right Nat.two_pos (distinctCount_le hv))) ?_
  exact Nat.pow_lt_pow_left (Nat.add_lt_add_right hs 2) (Nat.ne_of_gt (Nat.two_pow_pos _))

/-- A variable less and at most the square of the symbols: less weight. -/
theorem weight_lt_of_variable {eqs eqs' : List Equation} {x : String}
    (hs : queueSize eqs ≤ queueSize eqs' * queueSize eqs')
    (hv : ∀ y ∈ queueVariables eqs, y ∈ queueVariables eqs') (hx' : x ∈ queueVariables eqs')
    (hx : x ∉ queueVariables eqs) : weight eqs < weight eqs' := by
  have hd : distinctCount (queueVariables eqs) + 1 ≤ distinctCount (queueVariables eqs') :=
    distinctCount_lt hv hx' hx
  -- The square of `n + 2` is more than the square of `n`, plus two.
  have hq : queueSize eqs + 2 < (queueSize eqs' + 2) ^ 2 := by
    rw [Nat.pow_two, Nat.add_mul, Nat.mul_add]
    omega
  calc weight eqs
      < ((queueSize eqs' + 2) ^ 2) ^ 2 ^ distinctCount (queueVariables eqs) :=
        Nat.pow_lt_pow_left hq (Nat.ne_of_gt (Nat.two_pow_pos _))
    _ = (queueSize eqs' + 2) ^ 2 ^ (distinctCount (queueVariables eqs) + 1) := by
        rw [← Nat.pow_mul, Nat.pow_succ 2, Nat.mul_comm]
    _ ≤ weight eqs' :=
        Nat.pow_le_pow_right (Nat.le_add_left 1 _) (Nat.pow_le_pow_right Nat.two_pos hd)

end Equation

namespace Term

/-- A replaced variable is gone, and the other variables come from the term or the image. -/
theorem mem_vars_replace {x y : String} {u t : Term} (h : y ∈ (t.replace x u).vars) :
    y ∈ u.vars ∨ (y ∈ t.vars ∧ y ≠ x) := by
  induction t with
  | var z =>
    rw [replace_var] at h
    split at h
    · exact Or.inl h
    · rename_i hz
      rw [vars_var, List.mem_singleton] at h
      exact Or.inr ⟨by simp [h], h ▸ hz⟩
  | app f ts ih =>
    simp only [replace_app, vars_app, List.mem_flatMap, List.mem_map] at h
    obtain ⟨_, ⟨t, ht, rfl⟩, hy⟩ := h
    rcases ih t ht hy with h | ⟨h, hne⟩
    · exact Or.inl h
    · refine Or.inr ⟨?_, hne⟩
      simp only [vars_app, List.mem_flatMap]
      exact ⟨t, ht, h⟩

/-- Replacing a variable multiplies the size by that of the image at most. -/
theorem size_replace_le (x : String) (u t : Term) : (t.replace x u).size ≤ t.size * u.size := by
  induction t with
  | var y =>
    have := u.size_pos
    rw [replace_var]
    split
    · simp
    · simp only [size_var]
      omega
  | app f ts ih =>
    have hsum : sizeList (ts.map (·.replace x u)) ≤ sizeList ts * u.size := by
      clear f
      induction ts with
      | nil => simp
      | cons t ts ih' =>
        have h := ih t (by simp)
        have h' := ih' fun s hs => ih s (by simp [hs])
        simp only [List.map_cons, sizeList_cons, Nat.add_mul]
        omega
    have := u.size_pos
    rw [replace_app, size_app, size_app, Nat.add_mul, Nat.one_mul]
    omega

end Term

namespace Equation

theorem queueSize_replaceAll_le (x : String) (t : Term) (eqs : List Equation) :
    queueSize (replaceAll x t eqs) ≤ queueSize eqs * t.size := by
  induction eqs with
  | nil => simp [queueSize, replaceAll]
  | cons e eqs ih =>
    have hl := Term.size_replace_le x t e.lhs
    have hr := Term.size_replace_le x t e.rhs
    simp only [replaceAll, List.map_cons, queueSize_cons, size, replace, Nat.add_mul] at ih ⊢
    omega

theorem mem_queueVariables_replaceAll {x y : String} {t : Term} {eqs : List Equation}
    (h : y ∈ queueVariables (replaceAll x t eqs)) :
    y ∈ t.vars ∨ (y ∈ queueVariables eqs ∧ y ≠ x) := by
  simp only [queueVariables, replaceAll, List.mem_flatMap, List.mem_map] at h ⊢
  obtain ⟨_, ⟨e, he, rfl⟩, hy⟩ := h
  simp only [vars, replace, List.mem_append] at hy
  rcases hy with hy | hy <;> rcases Term.mem_vars_replace hy with h | ⟨h, hne⟩
  · exact Or.inl h
  · exact Or.inr ⟨⟨e, he, by simp [vars, h]⟩, hne⟩
  · exact Or.inl h
  · exact Or.inr ⟨⟨e, he, by simp [vars, h]⟩, hne⟩

theorem bindUnlessOccurs_eq_bind {x y : String} {t u : Term}
    (h : bindUnlessOccurs x t = .bind y u) : x = y ∧ t = u ∧ x ∉ t.vars := by
  unfold bindUnlessOccurs at h
  split at h
  · simp at h
  · rename_i hocc
    injection h with hx ht
    exact ⟨hx, ht, fun hm => hocc ((Term.occursIn_var x t).mpr hm)⟩

/-- The two sides of an equation that becomes a binding: its variable, which does not occur in its
image. -/
theorem reduce_eq_bind {e : Equation} {x : String} {t : Term} (h : e.reduce = .bind x t) :
    (e = ⟨.var x, t⟩ ∨ e = ⟨t, .var x⟩) ∧ x ∉ t.vars := by
  obtain ⟨a, b⟩ := e
  simp only [reduce] at h
  split at h
  · simp at h
  · split at h
    · rename_i hb _
      obtain ⟨rfl, rfl, hocc⟩ := bindUnlessOccurs_eq_bind h
      exact ⟨Or.inl rfl, hocc⟩
    · obtain ⟨rfl, rfl, hocc⟩ := bindUnlessOccurs_eq_bind h
      exact ⟨Or.inr rfl, hocc⟩
    · split at h <;> simp at h

/-- An equation that is split either is between equal terms, or between applications of one
functor to equally many arguments. -/
theorem reduce_eq_split {e : Equation} {eqs : List Equation} (h : e.reduce = .split eqs) :
    (e.lhs = e.rhs ∧ eqs = []) ∨ ∃ f ss ts, e = ⟨.app f ss, .app f ts⟩ ∧
      ss.length = ts.length ∧ eqs = ss.zipWith Equation.mk ts := by
  obtain ⟨a, b⟩ := e
  simp only [reduce] at h
  split at h
  · rename_i hab
    injection h with h
    exact Or.inl ⟨hab, h.symm⟩
  · split at h
    · unfold bindUnlessOccurs at h
      split at h <;> simp at h
    · unfold bindUnlessOccurs at h
      split at h <;> simp at h
    · split at h
      · rename_i f ss g ts _ hfg
        injection h with h
        exact Or.inr ⟨f, ss, ts, by rw [hfg.1], hfg.2, h.symm⟩
      · simp at h

theorem queueSize_zipWith_le : ∀ ss ts : List Term,
    queueSize (ss.zipWith Equation.mk ts) ≤ Term.sizeList ss + Term.sizeList ts
  | [], _ => by simp [queueSize]
  | _ :: _, [] => by simp [queueSize]
  | s :: ss, t :: ts => by
    have := queueSize_zipWith_le ss ts
    simp only [List.zipWith_cons_cons, queueSize_cons, size, Term.sizeList_cons]
    omega

theorem mem_queueVariables_zipWith {x : String} : ∀ ss ts : List Term,
    x ∈ queueVariables (ss.zipWith Equation.mk ts) →
      x ∈ ss.flatMap Term.vars ∨ x ∈ ts.flatMap Term.vars
  | [], _, h => by simp [queueVariables] at h
  | _ :: _, [], h => by simp [queueVariables] at h
  | s :: ss, t :: ts, h => by
    simp only [List.zipWith_cons_cons, mem_queueVariables_cons, vars, List.mem_append,
      List.flatMap_cons] at h ⊢
    rcases h with (h | h) | h
    · exact Or.inl (Or.inl h)
    · exact Or.inr (Or.inl h)
    · rcases mem_queueVariables_zipWith ss ts h with h | h
      · exact Or.inl (Or.inr h)
      · exact Or.inr (Or.inr h)

/-- Splitting an equation brings in no variable. -/
theorem mem_vars_of_split {e : Equation} {eqs : List Equation} {x : String}
    (h : e.reduce = .split eqs) (hx : x ∈ queueVariables eqs) : x ∈ e.vars := by
  rcases reduce_eq_split h with ⟨-, rfl⟩ | ⟨f, ss, ts, rfl, -, rfl⟩
  · simp [queueVariables] at hx
  · simpa [vars] using mem_queueVariables_zipWith ss ts hx

/-- The variables of an equation that becomes a binding. -/
theorem mem_vars_of_bind {e : Equation} {x y : String} {t : Term} (h : e.reduce = .bind x t) :
    y ∈ e.vars ↔ y = x ∨ y ∈ t.vars := by
  rcases (reduce_eq_bind h).1 with rfl | rfl
  · simp [vars]
  · simp [vars, or_comm]

/-- Splitting an equation takes weight from the queue. -/
theorem weight_split_lt {e : Equation} {rest eqs : List Equation} (h : e.reduce = .split eqs) :
    weight (rest ++ eqs) < weight (e :: rest) := by
  refine weight_lt_of_size ?_ fun x hx => ?_
  · rcases reduce_eq_split h with ⟨-, rfl⟩ | ⟨f, ss, ts, rfl, -, rfl⟩
    · have := e.size_pos
      simp only [List.append_nil, queueSize_cons]
      omega
    · have := queueSize_zipWith_le ss ts
      simp only [queueSize_append, queueSize_cons, size, Term.size_app]
      omega
  · rw [mem_queueVariables_append] at hx
    rw [mem_queueVariables_cons]
    rcases hx with hx | hx
    · exact Or.inr hx
    · exact Or.inl (mem_vars_of_split h hx)

/-- Making a binding takes weight from the queue. -/
theorem weight_bind_lt {e : Equation} {rest : List Equation} {x : String} {t : Term}
    (h : e.reduce = .bind x t) : weight (replaceAll x t rest) < weight (e :: rest) := by
  obtain ⟨he, hocc⟩ := reduce_eq_bind h
  have hsize : e.size = t.size + 1 := by
    rcases he with rfl | rfl
    · simp [size, Nat.add_comm]
    · simp [size]
  refine weight_lt_of_variable (x := x) ?_ (fun y hy => ?_) ?_ fun hx => ?_
  · refine Nat.le_trans (queueSize_replaceAll_le x t rest) (Nat.mul_le_mul ?_ ?_)
    · simp
    · simp only [queueSize_cons, hsize]
      omega
  · rw [mem_queueVariables_cons, mem_vars_of_bind h]
    rcases mem_queueVariables_replaceAll hy with hy | ⟨hy, -⟩
    · exact Or.inl (Or.inr hy)
    · exact Or.inr hy
  · rw [mem_queueVariables_cons, mem_vars_of_bind h]
    exact Or.inl (Or.inl rfl)
  · rcases mem_queueVariables_replaceAll hx with hx | ⟨-, hx⟩
    · exact hocc hx
    · exact hx rfl

/-! ## 3. The queue -/

set_option linter.unusedVariables false in
/-- Works through a queue of equations, adding to the bindings made so far; there is no result
when an equation cannot be satisfied. -/
def solve : (queue : List Equation) → (made : Substitution) → Option Substitution
  | [], made => some made
  | e :: rest, made =>
    match h : e.reduce with
    | .clash => none
    | .split eqs => solve (rest ++ eqs) made
    | .bind x t => solve (replaceAll x t rest) (made.record x t)
termination_by queue => weight queue
decreasing_by
  · exact weight_split_lt h
  · exact weight_bind_lt h

end Equation

/-- A most general unifier of two terms, its bindings in the order in which they were made. -/
def Term.unify? (s t : Term) : Option Substitution :=
  Equation.solve [⟨s, t⟩] .empty

end Clausal

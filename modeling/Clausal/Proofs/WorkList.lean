/-
# The work list comes to its end

The unifier works through its equations in a loop.  A pass takes the first equation off the list.  If
it asks for a binding, the terms that still wait and the images recorded so far are expanded along
that one binding, and then it is entered under its variable, where it would push out an older binding
of the same variable.  Nothing in this is bounded from outside: `Pass` needs the expansions to have
results, in the sense of the recursion `Expands`, and `Finishes` follows the passes until the list is
empty or an equation cannot be satisfied.  Either could fail to have a result.

Neither does, and both for the same reason, the occurs check.  A variable that does not occur in its
image is gone after one replacement, so the expansions end (`expands_single_iff`).  And it is gone from
the list.  What waits may have grown by then, as may the images, but there is one variable less in it;
so the passes come to an end from any list whatever (`wellFounded_pass`).  A variable that is gone is
not met again, hence not bound again: the variables bound on the way are distinct, and they are
variables of the terms that the loop began with (`Passes.tidy`).
-/
import Clausal.Proofs.Chains
import Mathlib.Data.List.Forall2

namespace Clausal

/-! ## 1. Expanding along one binding -/

namespace Substitution

variable {σ : Substitution} {x : String} {t u v : Term}

/-- The substitution with one binding. -/
def single (x : String) (t : Term) : Substitution := ⟨[(x, t)]⟩

theorem apply_single (x : String) (t u : Term) : (single x t).apply u = u.replace x t := by
  refine Term.subst_congr fun y _ => ?_
  by_cases hy : y = x
  · simp [image, lookup?, single, hy]
  · have : (y == x) = false := by simpa using hy
    simp [image, lookup?, single, List.lookup_cons, this, hy]

theorem solved_single (h : x ∉ t.vars) : (single x t).Solved := by
  intro b hb d hd
  rw [List.mem_singleton.mp hb, List.mem_singleton.mp hd]
  exact h

/-- **One replacement is enough** for a variable that does not occur in its image. -/
theorem expands_single_iff (h : x ∉ t.vars) : (single x t).Expands u v ↔ u.replace x t = v := by
  rw [← expand?_eq_some_iff, (solved_single h).expand?_eq, apply_single, Option.some.injEq]

/-- A binding of a variable that is not bound yet is entered at the end. -/
theorem insert_of_unbound (h : x ∉ σ.bindings.map Prod.fst) :
    σ.insert x t = ⟨σ.bindings ++ [(x, t)]⟩ := by
  have hnone : σ.lookup? x = none := by
    refine lookup?_eq_none_iff.mpr fun b hb he => h ?_
    exact List.mem_map.mpr ⟨b, hb, he⟩
  rw [insert, hnone]
  rfl

end Substitution

theorem forall₂_eq_map {α β : Type} {f : α → β} {as : List α} {bs : List β} :
    List.Forall₂ (fun a b => f a = b) as bs ↔ as.map f = bs := by
  rw [← List.forall₂_map_left_iff, List.forall₂_eq_eq_eq]

/-! ## 2. The loop -/

/-- Where the loop is. -/
structure WorkList where
  /-- The equations that wait. -/
  waiting : List Equation
  /-- The bindings recorded so far. -/
  made : Substitution

namespace WorkList

open Substitution Equation

/-- The list with the equation of two terms. -/
def start (s t : Term) : WorkList := ⟨[⟨s, t⟩], .empty⟩

/-- One pass of the loop, with the variables that it binds. -/
inductive Pass : WorkList → List String → WorkList → Prop where
  /-- The equation holds, or it is replaced by others, which wait behind all that are there. -/
  | split {e : Equation} {rest eqs : List Equation} {made : Substitution}
      (asks : e.reduce = .split eqs) : Pass ⟨e :: rest, made⟩ [] ⟨rest ++ eqs, made⟩
  /-- A variable is bound.  The terms that wait and the images are expanded along the new binding
  before it is entered. -/
  | bind {e : Equation} {rest rest' : List Equation} {made : Substitution}
      {images : List (String × Term)} {x : String} {t : Term} (asks : e.reduce = .bind x t)
      (lists : List.Forall₂ (fun d d' => (single x t).Expands d.lhs d'.lhs ∧
        (single x t).Expands d.rhs d'.rhs) rest rest')
      (records : List.Forall₂ (fun b b' => b.1 = b'.1 ∧ (single x t).Expands b.2 b'.2)
        made.bindings images) :
      Pass ⟨e :: rest, made⟩ [x] ⟨rest', Substitution.insert ⟨images⟩ x t⟩

/-- Passes one after the other, with all variables that they bind, in order. -/
inductive Passes : WorkList → List String → WorkList → Prop where
  | none {w : WorkList} : Passes w [] w
  | more {w w' w'' : WorkList} {xs ys : List String} (before : Passes w xs w')
      (last : Pass w' ys w'') : Passes w (xs ++ ys) w''

/-- The loop comes to its end, with a substitution or without one. -/
inductive Finishes : WorkList → Option Substitution → Prop where
  | done {made : Substitution} : Finishes ⟨[], made⟩ (some made)
  | clash {e : Equation} {rest : List Equation} {made : Substitution} (asks : e.reduce = .clash) :
      Finishes ⟨e :: rest, made⟩ none
  | pass {w w' : WorkList} {xs : List String} {result : Option Substitution}
      (first : Pass w xs w') (others : Finishes w' result) : Finishes w result

variable {w w' : WorkList} {e : Equation} {rest eqs : List Equation} {made : Substitution}
  {x : String} {t : Term} {xs ys names : List String}

/-! ## 3. What a pass can do -/

/-- The images of some bindings, with `x` replaced by `t`. -/
def replaceImages (x : String) (t : Term) (bs : List (String × Term)) : List (String × Term) :=
  bs.map fun b => (b.1, b.2.replace x t)

theorem map_fst_replaceImages (x : String) (t : Term) (bs : List (String × Term)) :
    (replaceImages x t bs).map Prod.fst = bs.map Prod.fst := by
  simp [replaceImages, Function.comp_def]

/-- The expansions of a pass are replacements. -/
theorem forall₂_lists_iff {rest' : List Equation} (h : x ∉ t.vars) :
    List.Forall₂ (fun d d' => (single x t).Expands d.lhs d'.lhs ∧
      (single x t).Expands d.rhs d'.rhs) rest rest' ↔ replaceAll x t rest = rest' := by
  have hsides : ∀ d d' : Equation, d.replace x t = d' ↔
      d.lhs.replace x t = d'.lhs ∧ d.rhs.replace x t = d'.rhs := fun d d' => by
    obtain ⟨a, b⟩ := d'
    rw [replace, Equation.mk.injEq]
  rw [replaceAll, ← forall₂_eq_map]
  simp only [expands_single_iff h, hsides]

theorem forall₂_records_iff {bs images : List (String × Term)} (h : x ∉ t.vars) :
    List.Forall₂ (fun b b' => b.1 = b'.1 ∧ (single x t).Expands b.2 b'.2) bs images ↔
      replaceImages x t bs = images := by
  rw [replaceImages, ← forall₂_eq_map]
  simp only [expands_single_iff h, Prod.ext_iff]

/-- **What a pass can do**: it splits the first equation, or it replaces a variable by its image in
all that waits and in all that is recorded. -/
theorem pass_iff : Pass w xs w' ↔ ∃ e rest, w.waiting = e :: rest ∧
    ((∃ eqs, e.reduce = .split eqs ∧ xs = [] ∧ w' = ⟨rest ++ eqs, w.made⟩) ∨
      ∃ x t, e.reduce = .bind x t ∧ xs = [x] ∧ w' = ⟨replaceAll x t rest,
        Substitution.insert ⟨replaceImages x t w.made.bindings⟩ x t⟩) := by
  constructor
  · intro h
    cases h with
    | split asks => exact ⟨_, _, rfl, Or.inl ⟨_, asks, rfl, rfl⟩⟩
    | bind asks lists records =>
      have hocc := (reduce_eq_bind asks).2
      obtain rfl := (forall₂_lists_iff hocc).mp lists
      obtain rfl := (forall₂_records_iff hocc).mp records
      exact ⟨_, _, rfl, Or.inr ⟨_, _, asks, rfl, rfl⟩⟩
  · obtain ⟨waiting, made⟩ := w
    rintro ⟨e, rest, rfl, ⟨eqs, asks, rfl, rfl⟩ | ⟨x, t, asks, rfl, rfl⟩⟩
    · exact .split asks
    · have hocc := (reduce_eq_bind asks).2
      exact .bind asks ((forall₂_lists_iff hocc).mpr rfl) ((forall₂_records_iff hocc).mpr rfl)

theorem Pass.unique {w'' : WorkList} (h : Pass w xs w') (h' : Pass w ys w'') : w' = w'' := by
  obtain ⟨e, rest, hw, hcases⟩ := pass_iff.mp h
  obtain ⟨e', rest', hw', hcases'⟩ := pass_iff.mp h'
  obtain ⟨rfl, rfl⟩ := List.cons.inj (hw.symm.trans hw')
  rcases hcases with ⟨eqs, asks, -, rfl⟩ | ⟨x, t, asks, -, rfl⟩ <;>
    rcases hcases' with ⟨eqs', asks', -, rfl⟩ | ⟨x', t', asks', -, rfl⟩ <;>
    cases asks.symm.trans asks'
  · rfl
  · rfl

/-- Every pass takes weight from the list. -/
theorem Pass.weight_lt (h : Pass w xs w') : weight w'.waiting < weight w.waiting := by
  obtain ⟨e, rest, hw, ⟨eqs, asks, -, rfl⟩ | ⟨x, t, asks, -, rfl⟩⟩ := pass_iff.mp h
  · rw [hw]
    exact weight_split_lt asks
  · rw [hw]
    exact weight_bind_lt asks

/-- **There is no endless sequence of passes**, from any list and with any bindings. -/
theorem wellFounded_pass : WellFounded fun w' w => ∃ xs, Pass w xs w' := by
  refine Subrelation.wf ?_ (measure fun w : WorkList => weight w.waiting).wf
  rintro w' w ⟨xs, h⟩
  exact h.weight_lt

theorem not_pass_nil : ¬ Pass ⟨[], made⟩ xs w' := by
  intro h
  obtain ⟨e, rest, hw, -⟩ := pass_iff.mp h
  exact absurd hw (by simp)

theorem not_pass_of_clash (asks : e.reduce = .clash) : ¬ Pass ⟨e :: rest, made⟩ xs w' := by
  intro h
  obtain ⟨e', rest', hw, hcases⟩ := pass_iff.mp h
  obtain ⟨rfl, -⟩ := List.cons.inj hw
  rcases hcases with ⟨eqs, asks', -⟩ | ⟨x, t, asks', -⟩
  · exact absurd (asks.symm.trans asks') (by simp)
  · exact absurd (asks.symm.trans asks') (by simp)

theorem Finishes.unique {result result' : Option Substitution} (h : Finishes w result)
    (h' : Finishes w result') : result = result' := by
  induction h with
  | done =>
    cases h' with
    | done => rfl
    | pass first _ => exact absurd first not_pass_nil
  | clash asks =>
    cases h' with
    | clash _ => rfl
    | pass first _ => exact absurd first (not_pass_of_clash asks)
  | pass first _ ih =>
    cases h' with
    | done => exact absurd first not_pass_nil
    | clash asks => exact absurd first (not_pass_of_clash asks)
    | pass first' others =>
      obtain rfl := first.unique first'
      exact ih others

/-! ## 4. What all passes keep -/

/-- What holds after the variables `xs` have been bound: they are distinct, they have been eliminated,
and there are no other variables than the given ones. -/
structure Tidy (names xs : List String) (w : WorkList) : Prop where
  eliminated : Eliminated w.made w.waiting
  bound : w.made.bindings.map Prod.fst = xs
  nodup : xs.Nodup
  waiting : ∀ y ∈ queueVariables w.waiting, y ∈ names
  domain : ∀ x ∈ xs, x ∈ names
  range : ∀ b ∈ w.made.bindings, ∀ y ∈ b.2.vars, y ∈ names

theorem tidy_start (s t : Term) : Tidy (s.vars ++ t.vars) [] (start s t) where
  eliminated := eliminated_empty _
  bound := rfl
  nodup := List.nodup_nil
  waiting := by simp [start, queueVariables, Equation.vars]
  domain := by simp
  range := fun b hb => absurd hb List.not_mem_nil

theorem Tidy.mem_of_waits (h : Tidy names xs ⟨e :: rest, made⟩) {y : String}
    (hy : y ∈ e.vars ∨ y ∈ queueVariables rest) : y ∈ names :=
  h.waiting y (mem_queueVariables_cons.mpr hy)

/-- A variable that is about to be bound has not been bound before. -/
theorem Tidy.not_mem (h : Tidy names xs ⟨e :: rest, made⟩) (asks : e.reduce = .bind x t) :
    x ∉ xs := by
  intro hx
  rw [← h.bound] at hx
  obtain ⟨b, hb, rfl⟩ := List.mem_map.mp hx
  refine h.eliminated.unbound b hb (mem_queueVariables_cons.mpr (Or.inl ?_))
  exact (mem_vars_of_bind asks).mpr (Or.inl rfl)

/-- So its binding is recorded after all the others. -/
theorem Tidy.insert_eq_record (h : Tidy names xs ⟨e :: rest, made⟩) (asks : e.reduce = .bind x t) :
    Substitution.insert ⟨replaceImages x t made.bindings⟩ x t = made.record x t := by
  refine insert_of_unbound ?_
  rw [map_fst_replaceImages, h.bound]
  exact h.not_mem asks

theorem Tidy.split (h : Tidy names xs ⟨e :: rest, made⟩) (asks : e.reduce = .split eqs) :
    Tidy names xs ⟨rest ++ eqs, made⟩ := by
  refine ⟨h.eliminated.split asks, h.bound, h.nodup, fun y hy => ?_, h.domain, h.range⟩
  refine h.mem_of_waits ?_
  rcases mem_queueVariables_append.mp hy with hy | hy
  · exact Or.inr hy
  · exact Or.inl (mem_vars_of_split asks hy)

theorem Tidy.bind (h : Tidy names xs ⟨e :: rest, made⟩) (asks : e.reduce = .bind x t) :
    Tidy names (xs ++ [x]) ⟨replaceAll x t rest, made.record x t⟩ := by
  have hx : x ∈ names := h.mem_of_waits (Or.inl ((mem_vars_of_bind asks).mpr (Or.inl rfl)))
  have ht : ∀ y ∈ t.vars, y ∈ names := fun y hy =>
    h.mem_of_waits (Or.inl ((mem_vars_of_bind asks).mpr (Or.inr hy)))
  refine ⟨h.eliminated.bind asks, ?_, ?_, fun y hy => ?_, ?_, fun b hb y hy => ?_⟩
  · have hsame := map_fst_replaceImages x t made.bindings
    rw [h.bound] at hsame
    rw [record, List.map_append, ← replaceImages, hsame]
    rfl
  · exact List.nodup_append.mpr ⟨h.nodup, List.nodup_singleton x, by
      rintro y hy _ hx' rfl
      exact h.not_mem asks (List.mem_singleton.mp hx' ▸ hy)⟩
  · rcases mem_queueVariables_replaceAll hy with hy | ⟨hy, -⟩
    · exact ht y hy
    · exact h.mem_of_waits (Or.inr hy)
  · rw [List.forall_mem_append]
    exact ⟨h.domain, by simpa using hx⟩
  · rcases List.mem_append.mp hb with hb | hb
    · obtain ⟨b', hb', rfl⟩ := List.mem_map.mp hb
      rcases Term.mem_vars_replace hy with hy | ⟨hy, -⟩
      · exact ht y hy
      · exact h.range b' hb' y hy
    · rw [List.mem_singleton.mp hb] at hy
      exact ht y hy

/-- **The step.** -/
theorem Tidy.pass (h : Tidy names xs w) (hpass : Pass w ys w') : Tidy names (xs ++ ys) w' := by
  obtain ⟨waiting, made⟩ := w
  obtain ⟨e, rest, rfl, ⟨eqs, asks, rfl, rfl⟩ | ⟨x, t, asks, rfl, rfl⟩⟩ := pass_iff.mp hpass
  · rw [List.append_nil]
    exact h.split asks
  · rw [h.insert_eq_record asks]
    exact h.bind asks

/-- **The run.** -/
theorem Passes.tidy {s t : Term} (h : Passes (start s t) xs w) : Tidy (s.vars ++ t.vars) xs w := by
  induction h with
  | none => exact tidy_start s t
  | more _ last ih => exact ih.pass last

/-! ## 5. The loop is the unifier -/

theorem Passes.head {w'' : WorkList} (first : Pass w xs w') (others : Passes w' ys w'') :
    Passes w (xs ++ ys) w'' := by
  induction others with
  | none =>
    rw [List.append_nil, ← List.nil_append xs]
    exact .more .none first
  | more _ last ih =>
    rw [← List.append_assoc]
    exact .more ih last

/-- **The loop comes to its end**, and with the result of `solve`. -/
theorem Tidy.finishes {queue : List Equation} (h : Tidy names xs ⟨queue, made⟩) :
    Finishes ⟨queue, made⟩ (solve queue made) := by
  fun_induction solve queue made generalizing xs with
  | case1 made => exact .done
  | case2 e rest made asks => exact .clash asks
  | case3 e rest made eqs asks ih => exact .pass (.split asks) (ih (h.split asks))
  | case4 e rest made x t asks ih =>
    refine .pass (pass_iff.mpr ⟨e, rest, rfl, Or.inr ⟨x, t, asks, rfl, ?_⟩⟩) (ih (h.bind asks))
    rw [h.insert_eq_record asks]

/-- A substitution in which the loop ends has been reached by passes. -/
theorem Finishes.exists_passes {σ : Substitution} (h : Finishes w (some σ)) :
    ∃ xs, Passes w xs ⟨[], σ⟩ := by
  generalize hresult : some σ = result at h
  induction h with
  | done =>
    obtain rfl := Option.some.inj hresult
    exact ⟨[], .none⟩
  | clash => exact absurd hresult (by simp)
  | pass first _ ih =>
    obtain ⟨ys, hys⟩ := ih hresult
    exact ⟨_, Passes.head first hys⟩

end WorkList

/-! ## 6. Two terms -/

/-- Distinct variables are bound, no more than there are in `names`, and all variables on both sides of
the bindings are among these. -/
structure Substitution.BindsWithin (σ : Substitution) (names : List String) : Prop where
  nodup : (σ.bindings.map Prod.fst).Nodup
  length_le : σ.bindings.length ≤ distinctCount names
  domain : ∀ b ∈ σ.bindings, b.1 ∈ names
  range : ∀ b ∈ σ.bindings, ∀ y ∈ b.2.vars, y ∈ names

theorem WorkList.Tidy.bindsWithin {names xs : List String} {w : WorkList} (h : Tidy names xs w) :
    w.made.BindsWithin names where
  nodup := h.bound ▸ h.nodup
  length_le := by
    calc w.made.bindings.length = xs.length := by rw [← h.bound, List.length_map]
      _ = distinctCount xs := by rw [distinctCount, eraseDups_of_nodup h.nodup]
      _ ≤ distinctCount names := distinctCount_le h.domain
  domain := fun b hb => h.domain b.1 (h.bound ▸ List.mem_map_of_mem hb)
  range := h.range

open WorkList in
/-- **Unification ends, and binds no variable twice.**  From no list of equations is there an endless
sequence of passes, and from the equation of two terms the loop has one result, that of the unifier.
After any number of passes the variables that they have bound are distinct, the substitution binds
these and no others, they are no more than the distinct variables of the two terms, and all variables
in it occur in the terms.  If the next pass is to bind a variable, it is one that has not been bound,
and to expand any term along its binding has a result.  What was said of the bindings on the way holds
of the unifier. -/
theorem unification_ends_and_binds_once (s t : Term) :
    (WellFounded fun w' w => ∃ xs, Pass w xs w') ∧
    (∀ result, Finishes (start s t) result ↔ result = s.unify? t) ∧
    (∀ xs w, Passes (start s t) xs w →
      xs.Nodup ∧ w.made.bindings.map Prod.fst = xs ∧ w.made.BindsWithin (s.vars ++ t.vars) ∧
      ∀ e rest x u, w.waiting = e :: rest → e.reduce = .bind x u →
        x ∉ xs ∧ ∀ v, ∃ v', (Substitution.single x u).Expands v v') ∧
    ∀ σ, s.unify? t = some σ → σ.BindsWithin (s.vars ++ t.vars) := by
  have hfinishes : Finishes (start s t) (s.unify? t) := (tidy_start s t).finishes
  refine ⟨wellFounded_pass, fun result => ⟨fun h => h.unique hfinishes, fun h => h ▸ hfinishes⟩,
    fun xs w hpasses => ?_, fun σ hσ => ?_⟩
  · have htidy := hpasses.tidy
    refine ⟨htidy.nodup, htidy.bound, htidy.bindsWithin, ?_⟩
    obtain ⟨waiting, made⟩ := w
    rintro e rest x u rfl asks
    refine ⟨htidy.not_mem asks, fun v => ⟨v.replace x u, ?_⟩⟩
    exact (Substitution.expands_single_iff (Equation.reduce_eq_bind asks).2).mpr rfl
  · obtain ⟨xs, hpasses⟩ := (hσ ▸ hfinishes).exists_passes
    exact hpasses.tidy.bindsWithin

/-- Three arguments, the first and the last of them the same variable. -/
def repeatedArgument : Term :=
  .app "p" [.var "x", .var "y", .var "x"]

/-- Arguments of which the first two have the next variable in them twice. -/
def doubledArguments : Term :=
  .app "p" [.app "g" [.var "y", .var "y"], .app "g" [.var "z", .var "z"], .var "w"]

open WorkList in
/-- The last equation is `x = w` at first and has grown to `g(g(z, z), g(z, z)) = w` when its turn comes.
Of four variables three are bound. -/
theorem doubledArguments_are_bound_once :
    ∃ σ, Finishes (start repeatedArgument doubledArguments) (some σ) ∧
      σ.bindings.map Prod.fst = ["x", "y", "w"] ∧
      σ.BindsWithin (repeatedArgument.vars ++ doubledArguments.vars) := by
  obtain ⟨-, hresult, -, hbinds⟩ := unification_ends_and_binds_once repeatedArgument doubledArguments
  have hkeys : (repeatedArgument.unify? doubledArguments).map (fun σ => σ.bindings.map Prod.fst) =
      some ["x", "y", "w"] := by decide +kernel
  obtain ⟨σ, hσ, hkeys⟩ := Option.map_eq_some_iff.mp hkeys
  exact ⟨σ, (hresult _).mpr hσ.symm, hkeys, hbinds σ hσ⟩

end Clausal

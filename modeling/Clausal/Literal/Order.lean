/-
# The order of literals

Literals are ordered by their written form, code point by code point.  Names may be arbitrary
texts, and then two different literals can be written alike (a predicate whose name begins with an
exclamation mark, say); such literals are ordered by their bracketed code, from which a literal can
be read off again.  So the order is total, and no two different literals are equal in it.
-/
import Clausal.Literal.Basic

namespace Clausal

/-! ## 1. The bracketed code of a term -/

namespace Term

/-- The symbols of a term from left to right, each behind an opening bracket, with a closing
bracket after the arguments of an application. -/
def code : Term → List String :=
  fold (fun x => ["[", x]) fun f ts => "(" :: f :: (ts.flatten ++ [")"])

@[simp] theorem code_var (x : String) : (var x).code = ["[", x] := rfl

@[simp] theorem code_app (f : String) (ts : List Term) :
    (app f ts).code = "(" :: f :: (ts.flatMap code ++ [")"]) := by
  simp [code, List.flatMap]

theorem code_head_ne (t : Term) (r s : List String) : t.code ++ r ≠ ")" :: s := by
  cases t <;> simp

/-- Argument lists can be told apart by their codes, if their members can. -/
theorem flatMap_code_injective : ∀ {ss ts : List Term} {r r' : List String},
    (∀ s ∈ ss, ∀ t q q', s.code ++ q = t.code ++ q' → s = t ∧ q = q') →
    ss.flatMap code ++ ")" :: r = ts.flatMap code ++ ")" :: r' → ss = ts ∧ r = r'
  | [], [], _, _, _, h => by simpa using h
  | [], t :: ts, r, r', _, h => by
    rw [List.flatMap_cons, List.append_assoc] at h
    exact absurd h.symm (code_head_ne t _ _)
  | s :: ss, [], r, r', _, h => by
    rw [List.flatMap_cons, List.append_assoc] at h
    exact absurd h (code_head_ne s _ _)
  | s :: ss, t :: ts, r, r', ih, h => by
    rw [List.flatMap_cons, List.flatMap_cons, List.append_assoc, List.append_assoc] at h
    obtain ⟨rfl, hrest⟩ := ih s (by simp) t _ _ h
    obtain ⟨rfl, hr⟩ := flatMap_code_injective (fun u hu => ih u (by simp [hu])) hrest
    exact ⟨rfl, hr⟩

/-- A term and what follows it can be read off the code. -/
theorem code_append_injective (s : Term) : ∀ (t : Term) (r r' : List String),
    s.code ++ r = t.code ++ r' → s = t ∧ r = r' := by
  induction s with
  | var x =>
    intro t r r' h
    cases t with
    | var y => simpa using h
    | app g ts => simp at h
  | app f ss ih =>
    intro t r r' h
    cases t with
    | var y => simp at h
    | app g ts =>
      simp only [code_app, List.cons_append, List.append_assoc, List.cons.injEq, true_and,
        List.nil_append] at h
      obtain ⟨rfl, h⟩ := h
      obtain ⟨rfl, hr⟩ := flatMap_code_injective ih h
      exact ⟨rfl, hr⟩

/-- Different terms have different codes. -/
theorem code_injective {s t : Term} (h : s.code = t.code) : s = t :=
  (code_append_injective s t [] [] (by rw [h])).1

end Term

/-! ## 2. Comparing literals -/

namespace Literal

/-- The sign of a literal and the code of its atom. -/
def code (l : Literal) : List String :=
  (if l.negated then "!" else "") :: l.atom.code

theorem code_injective {l m : Literal} (h : l.code = m.code) : l = m := by
  obtain ⟨ln, lp, la⟩ := l
  obtain ⟨mn, mp, ma⟩ := m
  simp only [code, List.cons.injEq] at h
  have hatom := Term.code_injective h.2
  simp only [atom, Term.app.injEq] at hatom
  obtain ⟨rfl, rfl⟩ := hatom
  cases ln <;> cases mn <;> simp_all

/-- Compares literals by their written form, and those that are written alike by their code. -/
def cmp : Literal → Literal → Ordering :=
  compareLex (compareOn text) (compareOn code)

instance : Std.TransCmp cmp :=
  inferInstanceAs (Std.TransCmp (compareLex (compareOn text) (compareOn code)))

theorem cmp_eq_iff {l m : Literal} : cmp l m = .eq ↔ l = m := by
  constructor
  · intro h
    simp only [cmp, compareLex, Ordering.then_eq_eq, compareOn] at h
    exact code_injective (Std.LawfulEqOrd.eq_of_compare h.2)
  · rintro rfl
    exact Std.ReflCmp.compare_self

theorem cmp_lt_trans {l m n : Literal} (h₁ : cmp l m = .lt) (h₂ : cmp m n = .lt) :
    cmp l n = .lt :=
  Std.TransCmp.lt_trans h₁ h₂

theorem cmp_self (l : Literal) : cmp l l = .eq :=
  cmp_eq_iff.mpr rfl

theorem cmp_gt_iff {l m : Literal} : cmp l m = .gt ↔ cmp m l = .lt :=
  Std.OrientedCmp.gt_iff_lt

end Literal

end Clausal

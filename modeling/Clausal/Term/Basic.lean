/-
# Terms of first-order logic

A term is a variable, or a functor applied to a list of argument terms; a constant is a functor
with no arguments.  A functor's arity is the length of its argument list, so the same name may be
used with several arities.

Everything that walks a term once is an instance of `Term.fold`, and each such function comes with
its two equations (`_var`, `_app`), which are stated with `List.map` and are all that later proofs
need.  `Term.induction` is the induction principle that goes with them: it hands an application
the hypothesis for every member of its argument list.
-/
namespace Clausal

/-- A first-order term. -/
inductive Term where
  /-- A logic variable. -/
  | var (name : String)
  /-- A functor applied to its arguments. -/
  | app (functor : String) (args : List Term)

namespace Term

/-! ## 1. Induction and equality -/

/-- Induction on terms, with the hypothesis for every argument of an application. -/
@[induction_eliminator, elab_as_elim]
theorem induction {motive : Term → Prop} (var : ∀ x, motive (.var x))
    (app : ∀ f ts, (∀ t ∈ ts, motive t) → motive (.app f ts)) : ∀ t, motive t
  | .var x => var x
  | .app f ts => app f ts fun t _ => induction var app t

mutual

/-- Structural equality of terms is decidable. -/
def decEq : (s t : Term) → Decidable (s = t)
  | .var x, .var y =>
    if h : x = y then isTrue (by rw [h]) else isFalse (by simpa using h)
  | .var _, .app _ _ => isFalse (by simp)
  | .app _ _, .var _ => isFalse (by simp)
  | .app f ss, .app g ts =>
    if h : f = g then
      match decEqList ss ts with
      | isTrue h' => isTrue (by rw [h, h'])
      | isFalse h' => isFalse (by simp [h'])
    else isFalse (by simp [h])

/-- Structural equality of argument lists is decidable. -/
def decEqList : (ss ts : List Term) → Decidable (ss = ts)
  | [], [] => isTrue rfl
  | [], _ :: _ => isFalse (by simp)
  | _ :: _, [] => isFalse (by simp)
  | s :: ss, t :: ts =>
    match decEq s t with
    | isTrue h =>
      match decEqList ss ts with
      | isTrue h' => isTrue (by rw [h, h'])
      | isFalse h' => isFalse (by simp [h'])
    | isFalse h => isFalse (by simp [h])

end

instance : DecidableEq Term := decEq

/-! ## 2. Folding a term -/

section Fold

universe u

variable {β : Type u} (onVar : String → β) (onApp : String → List β → β)

mutual

/-- Replaces every variable by `onVar` and every functor by `onApp`, from the leaves up. -/
def fold : Term → β
  | .var x => onVar x
  | .app f ts => onApp f (foldList ts)

/-- The folds of a list of terms. -/
def foldList : List Term → List β
  | [] => []
  | t :: ts => fold t :: foldList ts

end

theorem foldList_eq_map : ∀ ts, foldList onVar onApp ts = ts.map (fold onVar onApp)
  | [] => rfl
  | t :: ts => by rw [foldList, foldList_eq_map ts, List.map_cons]

@[simp] theorem fold_var (x : String) : fold onVar onApp (.var x) = onVar x := rfl

@[simp] theorem fold_app (f : String) (ts : List Term) :
    fold onVar onApp (.app f ts) = onApp f (ts.map (fold onVar onApp)) := by
  rw [fold, foldList_eq_map]

end Fold

/-! ## 3. Written form -/

/-- The written form: a variable stands in brackets, a functor is followed by its arguments in
parentheses, and a constant by an empty pair of parentheses. -/
def text : Term → String :=
  fold (fun x => "[" ++ x ++ "]") fun f ts => f ++ "(" ++ ", ".intercalate ts ++ ")"

@[simp] theorem text_var (x : String) : (var x).text = "[" ++ x ++ "]" := rfl

@[simp] theorem text_app (f : String) (ts : List Term) :
    (app f ts).text = f ++ "(" ++ ", ".intercalate (ts.map text) ++ ")" := by
  simp [text]

/-- The written form with every variable replaced by a question mark, and no blanks. -/
def shape : Term → String :=
  fold (fun _ => "?") fun f ts => f ++ "(" ++ ",".intercalate ts ++ ")"

@[simp] theorem shape_var (x : String) : (var x).shape = "?" := rfl

@[simp] theorem shape_app (f : String) (ts : List Term) :
    (app f ts).shape = f ++ "(" ++ ",".intercalate (ts.map shape) ++ ")" := by
  simp [shape]

/-! ## 4. Variables and size -/

/-- The occurrences of variables, from left to right. -/
def vars : Term → List String :=
  fold (fun x => [x]) fun _ ts => ts.flatten

@[simp] theorem vars_var (x : String) : (var x).vars = [x] := rfl

@[simp] theorem vars_app (f : String) (ts : List Term) :
    (app f ts).vars = ts.flatMap vars := by
  simp [vars, List.flatMap]

mutual

/-- The number of variable and functor occurrences. -/
def size : Term → Nat
  | .var _ => 1
  | .app _ ts => sizeList ts + 1

/-- The number of variable and functor occurrences in a list of terms. -/
def sizeList : List Term → Nat
  | [] => 0
  | t :: ts => size t + sizeList ts

end

@[simp] theorem size_var (x : String) : (var x).size = 1 := rfl

@[simp] theorem size_app (f : String) (ts : List Term) : (app f ts).size = sizeList ts + 1 := rfl

@[simp] theorem sizeList_nil : sizeList [] = 0 := rfl

@[simp] theorem sizeList_cons (t : Term) (ts : List Term) :
    sizeList (t :: ts) = t.size + sizeList ts := rfl

theorem size_pos (t : Term) : 0 < t.size := by
  cases t <;> simp

mutual

/-- All subterms, the term itself first. -/
def subterms : Term → List Term
  | .var x => [.var x]
  | .app f ts => .app f ts :: subtermsList ts

/-- The subterms of a list of terms. -/
def subtermsList : List Term → List Term
  | [] => []
  | t :: ts => subterms t ++ subtermsList ts

end

theorem subtermsList_eq_flatMap : ∀ ts, subtermsList ts = ts.flatMap subterms
  | [] => rfl
  | t :: ts => by rw [subtermsList, subtermsList_eq_flatMap ts, List.flatMap_cons]

@[simp] theorem subterms_var (x : String) : (var x).subterms = [var x] := rfl

@[simp] theorem subterms_app (f : String) (ts : List Term) :
    (app f ts).subterms = app f ts :: ts.flatMap subterms := by
  rw [subterms, subtermsList_eq_flatMap]

/-- Whether `s` is `t` or stands somewhere inside it. -/
def occursIn (s t : Term) : Bool :=
  t.subterms.contains s

/-- A variable stands inside a term exactly when it is among the term's variables. -/
theorem occursIn_var (x : String) (t : Term) : (var x).occursIn t = true ↔ x ∈ t.vars := by
  simp only [occursIn, List.contains_iff_mem]
  induction t with
  | var y => simp
  | app f ts ih =>
    simp only [subterms_app, vars_app, List.mem_cons, reduceCtorEq, false_or,
      List.mem_flatMap]
    exact exists_congr fun t => and_congr_right (ih t)

/-! ## 5. Substitution

A substitution in general is a function from variable names to terms.  It is applied to all
variables at once; the images are not looked at again. -/

/-- Replaces every variable `x` by `θ x`. -/
def subst (θ : String → Term) : Term → Term :=
  fold θ app

@[simp] theorem subst_var (θ : String → Term) (x : String) : (var x).subst θ = θ x := rfl

@[simp] theorem subst_app (θ : String → Term) (f : String) (ts : List Term) :
    (app f ts).subst θ = app f (ts.map (subst θ)) := by
  simp [subst]

/-- Two substitutions that agree on the variables of a term have the same effect on it. -/
theorem subst_congr {θ η : String → Term} {t : Term} (h : ∀ x ∈ t.vars, θ x = η x) :
    t.subst θ = t.subst η := by
  induction t with
  | var x => simpa using h
  | app f ts ih =>
    simp only [subst_app, app.injEq, true_and]
    refine List.map_congr_left fun t ht => ih t ht fun x hx => h x ?_
    simp only [vars_app, List.mem_flatMap]
    exact ⟨t, ht, hx⟩

/-- Applying one substitution after another is applying their composition. -/
theorem subst_subst (θ η : String → Term) (t : Term) :
    (t.subst θ).subst η = t.subst fun x => (θ x).subst η := by
  induction t with
  | var x => rfl
  | app f ts ih => simpa using ih

@[simp] theorem subst_id (t : Term) : t.subst var = t := by
  induction t with
  | var x => rfl
  | app f ts ih =>
    have h : ts.map (subst var) = ts := by simpa using List.map_congr_left ih
    rw [subst_app, h]

/-- Replaces the variable `x` of `t` by `u` and leaves the others. -/
def replace (t : Term) (x : String) (u : Term) : Term :=
  t.subst fun y => if y = x then u else var y

theorem replace_var (y x : String) (u : Term) :
    (var y).replace x u = if y = x then u else var y := rfl

theorem replace_app (f : String) (ts : List Term) (x : String) (u : Term) :
    (app f ts).replace x u = app f (ts.map (·.replace x u)) := by
  simp only [replace, subst_app]

/-- Replaces every variable name `x` by `ρ x`. -/
def rename (ρ : String → String) : Term → Term :=
  subst fun x => var (ρ x)

@[simp] theorem rename_var (ρ : String → String) (x : String) :
    (var x).rename ρ = var (ρ x) := rfl

@[simp] theorem rename_app (ρ : String → String) (f : String) (ts : List Term) :
    (app f ts).rename ρ = app f (ts.map (rename ρ)) := by
  simp only [rename, subst_app]

end Term

end Clausal

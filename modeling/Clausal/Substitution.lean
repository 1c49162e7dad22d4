/-
# Finite substitutions

A finite substitution is a list of bindings, in the order in which they were made.  It can be read
in two ways.

* `apply` replaces all bound variables at once and does not look at the images again.
* `expand?` follows chains: it also replaces the bound variables of the images, and so on.  A chain
  that returns to a variable while that variable's binding is being expanded has no end, and
  `expand?` answers `none` for it.

On a substitution in solved form, such as the unifier of two terms, both readings agree.
-/
import Clausal.Term.Basic

namespace Clausal

/-- A list of bindings, each giving a variable its image. -/
structure Substitution where
  /-- The bindings, oldest first. -/
  bindings : List (String × Term)
  deriving DecidableEq

namespace Substitution

/-! ## 1. Bindings -/

/-- The substitution that binds nothing. -/
def empty : Substitution := ⟨[]⟩

/-- The image bound to `x`, if there is one. -/
def lookup? (σ : Substitution) (x : String) : Option Term :=
  σ.bindings.lookup x

/-- The image of `x`, which is `x` itself when it is not bound. -/
def image (σ : Substitution) (x : String) : Term :=
  (σ.lookup? x).getD (.var x)

/-- Binds `x` to `t`.  An older binding of `x` keeps its place and takes the new image. -/
def insert (σ : Substitution) (x : String) (t : Term) : Substitution :=
  if (σ.lookup? x).isSome then
    ⟨σ.bindings.map fun b => if b.1 = x then (x, t) else b⟩
  else ⟨σ.bindings ++ [(x, t)]⟩

/-- The bindings of a list, made from left to right. -/
def ofList (bindings : List (String × Term)) : Substitution :=
  bindings.foldl (fun σ b => σ.insert b.1 b.2) empty

/-- Replaces `x` by `t` in every image, and then adds the binding of `x` to `t`. -/
def record (σ : Substitution) (x : String) (t : Term) : Substitution :=
  ⟨σ.bindings.map (fun b => (b.1, b.2.replace x t)) ++ [(x, t)]⟩

/-! ## 2. All bound variables at once -/

/-- Replaces every bound variable of `t` by its image. -/
def apply (σ : Substitution) (t : Term) : Term :=
  t.subst σ.image

end Substitution

/-! ## 3. Along chains of bindings -/

mutual

/-- Replaces the variables of a term by what `f` gives for them, from left to right; there is no
result as soon as `f` gives none. -/
def Term.traverse (f : String → Option Term) : Term → Option Term
  | .var x => f x
  | .app g ts => (Term.traverseList f ts).map (.app g)

/-- `Term.traverse` on each member of a list. -/
def Term.traverseList (f : String → Option Term) : List Term → Option (List Term)
  | [] => some []
  | t :: ts =>
    match Term.traverse f t with
    | none => none
    | some u => (Term.traverseList f ts).map (u :: ·)

end

namespace Substitution

/-- Expands a term along chains of at most `depth` bindings.  There is no result when a longer
chain is met. -/
def expandWithin (σ : Substitution) : (depth : Nat) → Term → Option Term
  | 0 => Term.traverse fun x => if (σ.lookup? x).isSome then none else some (.var x)
  | depth + 1 => Term.traverse fun x =>
    match σ.lookup? x with
    | some t => σ.expandWithin depth t
    | none => some (.var x)

/-- Replaces bound variables until none is left.  There is no result exactly when a variable is
met again while its own binding is being expanded: a chain that is longer than the list of
bindings uses one of them twice, so no longer chain has to be followed. -/
def expand? (σ : Substitution) (t : Term) : Option Term :=
  σ.expandWithin σ.bindings.length t

end Substitution

end Clausal

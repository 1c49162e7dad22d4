/-
# Clauses

A clause is a finite set of literals and stands for their disjunction; the empty clause is false.
The literals are kept in strictly ascending order, so a set has one representation only: two
clauses are equal exactly when they have the same members (`Clause.ext`), however they were built.
-/
import Clausal.Literal.Order

namespace Clausal

/-! ## 1. Ascending lists of literals -/

namespace Literal

/-- Whether each literal of a list comes before all later ones. -/
abbrev Ascending (ls : List Literal) : Prop :=
  ls.Pairwise fun l m => cmp l m = .lt

/-- Puts a literal in its place in an ascending list, unless it is there already. -/
def insertInto (l : Literal) : List Literal → List Literal
  | [] => [l]
  | m :: ms =>
    match cmp l m with
    | .lt => l :: m :: ms
    | .eq => m :: ms
    | .gt => m :: insertInto l ms

theorem mem_insertInto {l k : Literal} : ∀ {ms : List Literal},
    k ∈ insertInto l ms ↔ k = l ∨ k ∈ ms
  | [] => by simp [insertInto]
  | m :: ms => by
    unfold insertInto
    split
    · simp
    · rename_i h
      rw [cmp_eq_iff] at h
      subst h
      simp
    · simp only [List.mem_cons, mem_insertInto]
      exact or_left_comm

theorem ascending_insertInto {l : Literal} : ∀ {ms : List Literal},
    Ascending ms → Ascending (insertInto l ms)
  | [], _ => by simp [insertInto]
  | m :: ms, h => by
    unfold insertInto
    split
    · rename_i hlt
      refine List.Pairwise.cons (fun k hk => ?_) h
      rcases List.mem_cons.mp hk with rfl | hk
      · exact hlt
      · exact cmp_lt_trans hlt (List.rel_of_pairwise_cons h hk)
    · exact h
    · rename_i hgt
      refine List.Pairwise.cons (fun k hk => ?_) (ascending_insertInto (List.Pairwise.of_cons h))
      rcases mem_insertInto.mp hk with rfl | hk
      · exact cmp_gt_iff.mp hgt
      · exact List.rel_of_pairwise_cons h hk

/-- Ascending lists with the same members are equal. -/
theorem ascending_ext : ∀ {ls ms : List Literal}, Ascending ls → Ascending ms →
    (∀ k, k ∈ ls ↔ k ∈ ms) → ls = ms
  | [], [], _, _, _ => rfl
  | [], m :: ms, _, _, h => by simpa using h m
  | l :: ls, [], _, _, h => by simpa using h l
  | l :: ls, m :: ms, hl, hm, h => by
    -- Neither head can come after the other, for each is a member of both lists.
    have hlm : l = m := by
      rcases List.mem_cons.mp ((h l).mp (by simp)) with e | hl'
      · exact e
      · rcases List.mem_cons.mp ((h m).mpr (by simp)) with e | hm'
        · exact e.symm
        · have h₁ := List.rel_of_pairwise_cons hl hm'
          have h₂ := List.rel_of_pairwise_cons hm hl'
          have := cmp_lt_trans h₁ h₂
          rw [cmp_self] at this
          exact absurd this (by decide)
    subst hlm
    have htail : ∀ k, k ∈ ls ↔ k ∈ ms := by
      intro k
      constructor
      · intro hk
        rcases List.mem_cons.mp ((h k).mp (List.mem_cons_of_mem _ hk)) with rfl | hk'
        · have := List.rel_of_pairwise_cons hl hk
          rw [cmp_self] at this
          exact absurd this (by decide)
        · exact hk'
      · intro hk
        rcases List.mem_cons.mp ((h k).mpr (List.mem_cons_of_mem _ hk)) with rfl | hk'
        · have := List.rel_of_pairwise_cons hm hk
          rw [cmp_self] at this
          exact absurd this (by decide)
        · exact hk'
    rw [ascending_ext (List.Pairwise.of_cons hl) (List.Pairwise.of_cons hm) htail]

end Literal

/-! ## 2. The type -/

/-- A finite set of literals. -/
structure Clause where
  /-- The literals, in ascending order. -/
  literals : List Literal
  ascending : Literal.Ascending literals

namespace Clause

instance : DecidableEq Clause := fun c d =>
  decidable_of_iff (c.literals = d.literals)
    ⟨fun h => by cases c; cases d; cases h; rfl, fun h => by rw [h]⟩

instance : Membership Literal Clause where
  mem c l := l ∈ c.literals

theorem mem_def {l : Literal} {c : Clause} : l ∈ c ↔ l ∈ c.literals := Iff.rfl

instance {l : Literal} {c : Clause} : Decidable (l ∈ c) :=
  inferInstanceAs (Decidable (l ∈ c.literals))

/-- Clauses with the same members are equal. -/
theorem ext {c d : Clause} (h : ∀ l, l ∈ c ↔ l ∈ d) : c = d := by
  obtain ⟨ls, hls⟩ := c
  obtain ⟨ms, hms⟩ := d
  have : ls = ms := Literal.ascending_ext hls hms h
  subst this
  rfl

/-! ## 3. Building clauses -/

/-- The empty clause, which is false. -/
def empty : Clause := ⟨[], .nil⟩

/-- Adds a literal. -/
def insert (l : Literal) (c : Clause) : Clause :=
  ⟨Literal.insertInto l c.literals, Literal.ascending_insertInto c.ascending⟩

/-- The clause of the members of a list. -/
def ofList : List Literal → Clause
  | [] => empty
  | l :: ls => (ofList ls).insert l

@[simp] theorem not_mem_empty (l : Literal) : l ∉ empty := List.not_mem_nil

@[simp] theorem mem_insert {l k : Literal} {c : Clause} : k ∈ c.insert l ↔ k = l ∨ k ∈ c :=
  Literal.mem_insertInto

@[simp] theorem mem_ofList {l : Literal} : ∀ {ls : List Literal}, l ∈ ofList ls ↔ l ∈ ls
  | [] => by simp [ofList]
  | k :: ls => by simp [ofList, mem_ofList]

/-- All literals but one. -/
def others (c : Clause) (l : Literal) : List Literal :=
  c.literals.filter (· ≠ l)

theorem mem_others {l k : Literal} {c : Clause} : k ∈ c.others l ↔ k ∈ c ∧ k ≠ l := by
  simp [others, mem_def]

/-- The clause of the images of all literals under a substitution. -/
def apply (σ : Substitution) (c : Clause) : Clause :=
  ofList (c.literals.map (Literal.apply σ))

/-- Replaces every variable name `x` by `ρ x`. -/
def rename (ρ : String → String) (c : Clause) : Clause :=
  ofList (c.literals.map (Literal.rename ρ))

/-- Replaces bound variables until none is left; there is no result when that has no end. -/
def expand? (σ : Substitution) (c : Clause) : Option Clause :=
  (c.literals.mapM (Literal.expand? σ)).map ofList

/-! ## 4. Looking at clauses -/

/-- The number of literals. -/
def size (c : Clause) : Nat :=
  c.literals.length

/-- Whether there is no literal. -/
def isEmpty (c : Clause) : Bool :=
  c.literals.isEmpty

theorem isEmpty_iff {c : Clause} : c.isEmpty = true ↔ c = empty := by
  obtain ⟨ls, hls⟩ := c
  cases ls <;> simp [isEmpty, empty]

/-- Whether there is at most one positive literal. -/
def isHorn (c : Clause) : Bool :=
  (c.literals.filter fun l => !l.negated).length ≤ 1

/-- The occurrences of variables, literal by literal. -/
def vars (c : Clause) : List String :=
  c.literals.flatMap Literal.vars

/-- The written forms of the literals. -/
def texts (c : Clause) : List String :=
  c.literals.map Literal.text

/-- The literals with bars between them, or a pair of brackets for the empty clause. -/
def name (c : Clause) : String :=
  if c.isEmpty then "[]" else " | ".intercalate c.texts

/-- The name behind a label in brackets, if the label is not empty. -/
def labelled (c : Clause) (label : String) : String :=
  if label = "" then c.name else "[" ++ label ++ "] " ++ c.name

/-- The name marked as that of a clause, as it stands where other kinds of values may stand too. -/
def display (c : Clause) : String :=
  "Clause(" ++ c.name ++ ")"

end Clause

end Clausal

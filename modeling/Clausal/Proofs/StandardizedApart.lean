/-
# Stored clauses share no variable

The store is a list of clauses as they came in, each kept twice: standardised apart under its index,
and by its key.  `Filed` says so, with the clauses as they came in for a list of their own; it
holds after every sequence of calls, whatever was offered (`Reachable.filed`).

Every variable of the clause at index `i` ends in an underscore and the number `i`, and the number
can be read off the name.  So clauses at different indices have no variable in common, for any names
that the variables had before: `x_1` at index `0` becomes `x_0`, and `x_1_0` at index `1` becomes
`x_1_1`.

Literals that are written alike are kept in the order of their codes.  Nothing here depends on that
order.  It decides in which order the variables of a clause get their new names, and perhaps whether
a clause is stored at all; but new names end in the suffix in whatever order they are given
(`mem_freshNames`), and `Filed` leaves it open which clauses came in.
-/
import Clausal.Proofs.Renaming
import Clausal.Proofs.Session

namespace Clausal

/-! ## 1. How the store is filed -/

/-- The suffix for the variables of the clause at an index. -/
def indexSuffix (i : Nat) : String :=
  "_" ++ toString i

namespace KnowledgeBase

variable {kb : KnowledgeBase} {originals : List Clause}

/-- `originals` are the stored clauses as they came in. -/
structure Filed (kb : KnowledgeBase) (originals : List Clause) : Prop where
  /-- Each is stored with variables of its own. -/
  clauses : kb.clauses.map (fun e => e.clause) =
    originals.mapIdx fun i c => c.apart (indexSuffix i)
  /-- Each can be found by its key. -/
  keys : kb.signatures = originals.mapIdx fun i c => (c.key, i)

theorem Filed.length_eq (h : Filed kb originals) : kb.clauses.length = originals.length := by
  simpa using congrArg List.length h.clauses

theorem Filed.append (h : Filed kb originals) (c : Candidate) :
    Filed (kb.append c) (originals ++ [c.clause]) := by
  constructor
  · simp only [KnowledgeBase.append, List.map_append, h.clauses, List.mapIdx_append,
      h.length_eq]
    simp [indexSuffix]
  · simp only [KnowledgeBase.append, h.keys, List.mapIdx_append, h.length_eq]
    simp

/-- A stored clause is the one that came in at its index, standardised apart. -/
theorem Filed.getElem? (h : Filed kb originals) {i : Nat} {e : Entry}
    (he : kb.clauses[i]? = some e) :
    ∃ c, originals[i]? = some c ∧ e.clause = c.apart (indexSuffix i) := by
  have hi : (kb.clauses.map fun e => e.clause)[i]? = some e.clause := by
    rw [List.getElem?_map, he]
    rfl
  rw [h.clauses, List.getElem?_mapIdx, Option.map_eq_some_iff] at hi
  obtain ⟨c, hc, hce⟩ := hi
  exact ⟨c, hc, hce.symm⟩

/-- Clauses that were filed at different indices share no variable. -/
theorem Filed.disjoint (h : Filed kb originals) {i j : Nat} {d e : Entry} (hij : i ≠ j)
    (hd : kb.clauses[i]? = some d) (he : kb.clauses[j]? = some e) :
    ∀ x ∈ d.clause.vars, x ∉ e.clause.vars := by
  obtain ⟨c, -, hc⟩ := h.getElem? hd
  obtain ⟨c', -, hc'⟩ := h.getElem? he
  intro x hx hx'
  rw [hc] at hx
  rw [hc'] at hx'
  obtain ⟨y, hy⟩ := Clause.mem_vars_apart hx
  obtain ⟨z, hz⟩ := Clause.mem_vars_apart hx'
  exact hij (numbered_injective (hy.symm.trans hz))

end KnowledgeBase

/-! ## 2. Every session keeps the store filed -/

namespace Session

variable {offers : Prop} {s : Session}

open KnowledgeBase

theorem Reachable.filed (h : Reachable offers s) : ∃ originals, Filed s.kb originals := by
  have hlists : ∃ originals : List Clause,
      s.kb.clauses.map (fun e => e.clause) = originals.mapIdx (fun i c => c.apart (indexSuffix i)) ∧
      s.kb.signatures = originals.mapIdx fun i c => (c.key, i) := by
    refine h.store_induction (P := fun clauses signatures => ∃ originals : List Clause,
      clauses.map (fun e => e.clause) = originals.mapIdx (fun i c => c.apart (indexSuffix i)) ∧
      signatures = originals.mapIdx fun i c => (c.key, i)) ⟨[], rfl, rfl⟩ ?_
    intro kb c _ hkb
    obtain ⟨originals, hclauses, hkeys⟩ := hkb
    have happ := Filed.append ⟨hclauses, hkeys⟩ c
    exact ⟨_, happ.clauses, happ.keys⟩
  obtain ⟨originals, hclauses, hkeys⟩ := hlists
  exact ⟨originals, hclauses, hkeys⟩

end Session

/-- **Stored clauses are standardised apart.**  After any sequence of calls, offers of any clauses
with any variable names among them, clauses at different indices have no variable in common. -/
theorem stored_clauses_share_no_variable (calls : List Call) {i j : Nat} {d e : Entry}
    (hij : i ≠ j) (hd : (Session.ofCalls calls).kb.clauses[i]? = some d)
    (he : (Session.ofCalls calls).kb.clauses[j]? = some e) :
    ∀ x ∈ d.clause.vars, x ∉ e.clause.vars := by
  obtain ⟨originals, h⟩ := (Session.reachable_ofCalls fun _ _ _ => trivial).filed
  exact h.disjoint hij hd he

/-- Names that end in numbers, and offers that take the names of a stored clause. -/
def collidingNames : List Call := [
  .ingest [.text "P([x1])", .text "!P([x])"] "",
  .offer [] ⟨.ofList [⟨false, "Q", [.var "x1_0", .var "x_0", .var "x_0_1"]⟩], [], ""⟩]

/-- The clauses of `collidingNames` are stored as `!P([x_0]) | P([x1_0])` and
`Q([x1_1], [x_1], [x_0_1])`, and share no variable. -/
theorem collidingNames_share_no_variable :
    ∃ d e, (Session.ofCalls collidingNames).kb.clauses = [d, e] ∧
      d.clause.vars = ["x_0", "x1_0"] ∧ e.clause.vars = ["x1_1", "x_1", "x_0_1"] ∧
      ∀ x ∈ d.clause.vars, x ∉ e.clause.vars := by
  have hvars : (Session.ofCalls collidingNames).kb.clauses.map (fun e => e.clause.vars) =
      [["x_0", "x1_0"], ["x1_1", "x_1", "x_0_1"]] := by decide +kernel
  obtain ⟨d, rest, hkb, hd, hrest⟩ := List.map_eq_cons_iff.mp hvars
  obtain ⟨e, rest, rfl, he, hnil⟩ := List.map_eq_cons_iff.mp hrest
  obtain rfl := List.map_eq_nil_iff.mp hnil
  exact ⟨d, e, hkb, hd, he, stored_clauses_share_no_variable collidingNames
    (by decide : 0 ≠ 1) (by rw [hkb]; rfl) (by rw [hkb]; rfl)⟩

end Clausal

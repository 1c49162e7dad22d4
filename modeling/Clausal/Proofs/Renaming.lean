/-
# The two renamings keep variables apart

`Clause.apart` and `Clause.key` rename the variables of a clause.  Both results are variants of the
clause, for any variable names whatsoever:

* `apart` numbers base names until it meets one that is not taken, and there is always one
  (`freshName_not_mem`), so the names it gives are distinct;
* `key` numbers the variables in the order in which they first occur.

Hence clauses with equal keys are variants of each other (`Variant.of_key_eq`), and what is dropped
because its key is known is never a new clause.

The suffix with the number of a clause can be read off a name: what stands after the last underscore
are digits (`numbered_injective`).  So names with different suffixes are different.
-/
import Clausal.Clause.Renaming
import Clausal.Proofs.Instance
import Mathlib.Data.List.Nodup
import Mathlib.Data.List.Perm.Subperm

namespace Clausal

/-! ## 1. Numbers at the end of names -/

theorem toString_injective {m n : Nat} (h : toString m = toString n) : m = n := by
  rw [Nat.toString_eq_ofList_toDigits, Nat.toString_eq_ofList_toDigits, String.ofList_inj] at h
  rw [← Nat.ofDigitChars_ten_toDigits (n := m), h, Nat.ofDigitChars_ten_toDigits]

theorem toString_ne_empty (n : Nat) : toString n ≠ "" := by
  intro h
  have hl := congrArg String.toList h
  rw [Nat.toString_eq_ofList_toDigits, String.toList_ofList, String.toList_empty] at hl
  exact Nat.toDigits_ne_nil hl

/-- What follows the last occurrence of a character is determined. -/
theorem append_cons_right_injective {a : Char} {ys zs ds es : List Char} (hd : a ∉ ds)
    (he : a ∉ es) (h : ys ++ a :: ds = zs ++ a :: es) : ds = es := by
  rcases List.append_eq_append_iff.mp h with ⟨bs, -, h⟩ | ⟨bs, -, h⟩
  · cases bs with
    | nil => exact (List.cons.inj h).2
    | cons b bs =>
      rw [List.cons_append, List.cons.injEq] at h
      exact absurd (h.2 ▸ List.mem_append_right bs List.mem_cons_self) hd
  · cases bs with
    | nil => exact (List.cons.inj h).2.symm
    | cons b bs =>
      rw [List.cons_append, List.cons.injEq] at h
      exact absurd (h.2 ▸ List.mem_append_right bs List.mem_cons_self) he

/-- **The number of a clause can be read off the names of its variables.** -/
theorem numbered_injective {y z : String} {m n : Nat}
    (h : y ++ ("_" ++ toString m) = z ++ ("_" ++ toString n)) : m = n := by
  have hm : ∀ k : Nat, '_' ∉ (toString k).toList := by
    intro k
    rw [Nat.toString_eq_ofList_toDigits, String.toList_ofList]
    exact Nat.underscore_not_in_toDigits
  have hl := congrArg String.toList h
  simp only [String.toList_append] at hl
  exact toString_injective (String.toList_inj.mp (append_cons_right_injective (hm m) (hm n) hl))

/-! ## 2. Fresh names -/

/-- The names that `freshName` tries are distinct. -/
theorem nodup_candidates (base : String) (n : Nat) :
    (base :: (List.range n).map fun k => base ++ toString (k + 1)).Nodup := by
  rw [List.nodup_cons]
  constructor
  · intro h
    obtain ⟨k, -, hk⟩ := List.mem_map.mp h
    have hk : base ++ toString (k + 1) = base ++ "" := by rw [hk, String.append_empty]
    exact toString_ne_empty _ ((String.append_right_inj base).mp hk)
  · refine List.Nodup.map (fun k k' h => ?_) List.nodup_range
    have := toString_injective ((String.append_right_inj base).mp h)
    omega

/-- **There is always a name that is not taken.**  The names tried are one more than those taken,
and distinct, so they are not all among them. -/
theorem find?_candidates (base : String) (taken : List String) :
    (base :: (List.range taken.length).map fun n => base ++ toString (n + 1)).find?
      (fun candidate => !taken.contains candidate) = some (freshName base taken) := by
  simp only [freshName]
  cases hf : (base :: (List.range taken.length).map fun n => base ++ toString (n + 1)).find?
      fun candidate => !taken.contains candidate with
  | some name => rfl
  | none =>
    have hsub : (base :: (List.range taken.length).map fun n => base ++ toString (n + 1)) ⊆
        taken := by
      intro name hname
      simpa using List.find?_eq_none.mp hf name hname
    have hlen := (List.subperm_of_subset (nodup_candidates base taken.length) hsub).length_le
    rw [List.length_cons, List.length_map, List.length_range] at hlen
    omega

theorem freshName_not_mem (base : String) (taken : List String) : freshName base taken ∉ taken := by
  simpa using List.find?_some (find?_candidates base taken)

/-- A fresh name is the base, or the base with a number. -/
theorem freshName_cases (base : String) (taken : List String) :
    freshName base taken = base ∨ ∃ n : Nat, freshName base taken = base ++ toString (n + 1) := by
  rcases List.mem_cons.mp (List.mem_of_find?_eq_some (find?_candidates base taken)) with h | h
  · exact Or.inl h
  · obtain ⟨n, -, hn⟩ := List.mem_map.mp h
    exact Or.inr ⟨n, hn.symm⟩

theorem map_fst_freshNames (suffix : String) : ∀ xs taken : List String,
    (freshNames suffix xs taken).map Prod.fst = xs
  | [], _ => rfl
  | x :: xs, taken => by
    simp only [freshNames, List.map_cons, map_fst_freshNames suffix xs]

/-- A fresh name is one that was not taken, with the suffix. -/
theorem mem_freshNames {suffix : String} : ∀ {xs taken : List String} {p : String × String},
    p ∈ freshNames suffix xs taken → ∃ name, name ∉ taken ∧ p.2 = name ++ suffix
  | x :: xs, taken, p, h => by
    simp only [freshNames, List.mem_cons] at h
    rcases h with rfl | h
    · exact ⟨_, freshName_not_mem _ _, rfl⟩
    · obtain ⟨name, hname, hp⟩ := mem_freshNames h
      exact ⟨name, fun hm => hname (List.mem_cons_of_mem _ hm), hp⟩

theorem nodup_map_snd_freshNames (suffix : String) : ∀ xs taken : List String,
    ((freshNames suffix xs taken).map Prod.snd).Nodup
  | [], _ => List.nodup_nil
  | x :: xs, taken => by
    simp only [freshNames, List.map_cons, List.nodup_cons]
    refine ⟨?_, nodup_map_snd_freshNames suffix xs _⟩
    intro h
    obtain ⟨p, hp, hpe⟩ := List.mem_map.mp h
    obtain ⟨name, hname, hpn⟩ := mem_freshNames hp
    have : name = freshName (baseName x) taken :=
      (String.append_left_inj suffix).mp (hpn.symm.trans hpe)
    exact hname (this ▸ List.mem_cons_self)

/-! ## 3. Standardising apart -/

/-- A variable that a renaming gives a new name has that name as its image. -/
theorem Renaming.mem_pairs_image {ρ : Renaming} {x : String} (h : x ∈ ρ.pairs.map Prod.fst) :
    (x, ρ.image x) ∈ ρ.pairs := by
  unfold image
  cases hl : ρ.pairs.lookup x with
  | some y =>
    obtain ⟨_, _, hp, -⟩ := List.lookup_eq_some_iff.mp hl
    rw [hp]
    exact List.mem_append_right _ List.mem_cons_self
  | none =>
    obtain ⟨p, hp, rfl⟩ := List.mem_map.mp h
    have := List.lookup_eq_none_iff.mp hl p hp
    simp at this

namespace Clause

variable {c d : Clause} {suffix x y : String}

theorem mem_pairs_apartRenaming (h : x ∈ c.vars) :
    (x, (c.apartRenaming suffix).image x) ∈ freshNames suffix c.vars.eraseDups [] := by
  refine Renaming.mem_pairs_image (ρ := c.apartRenaming suffix) ?_
  rw [apartRenaming, map_fst_freshNames]
  exact List.mem_eraseDups.mpr h

/-- **A clause is a variant of what it is stored as.** -/
theorem variant_apart (suffix : String) (c : Clause) : Variant c (c.apart suffix) := by
  refine ⟨(c.apartRenaming suffix).image, ?_, rfl⟩
  intro x hx y hy he
  have := List.inj_on_of_nodup_map (nodup_map_snd_freshNames suffix c.vars.eraseDups [])
    (mem_pairs_apartRenaming hx) (mem_pairs_apartRenaming hy) he
  exact congrArg Prod.fst this

/-- Every variable of a clause that was standardised apart ends in the suffix. -/
theorem mem_vars_apart (h : y ∈ (c.apart suffix).vars) : ∃ name, y = name ++ suffix := by
  rw [apart, rename_eq_subst] at h
  obtain ⟨x, hx, hy⟩ := mem_vars_subst.mp h
  rw [Term.vars_var, List.mem_singleton] at hy
  have hp : (x, (c.apartRenaming suffix).image x) ∈ freshNames suffix c.vars.eraseDups [] :=
    mem_pairs_apartRenaming hx
  obtain ⟨name, -, hname⟩ := mem_freshNames hp
  exact ⟨name, hy.trans hname⟩

end Clause

/-! ## 4. Keys -/

namespace Literal

theorem mem_keyInsert {l k : Literal} : ∀ {ms : List Literal},
    k ∈ keyInsert l ms ↔ k = l ∨ k ∈ ms
  | [] => by simp [keyInsert]
  | m :: ms => by
    unfold keyInsert
    split
    · simp
    · simp only [List.mem_cons, mem_keyInsert]
      exact or_left_comm

theorem mem_keySort {k : Literal} : ∀ {ls : List Literal}, k ∈ keySort ls ↔ k ∈ ls
  | [] => Iff.rfl
  | l :: ls => by
    rw [keySort, List.foldr_cons, mem_keyInsert, List.mem_cons]
    exact or_congr_right mem_keySort

end Literal

namespace Clause

variable {c d : Clause} {x : String}

theorem mem_keyVariables : x ∈ c.keyVariables ↔ x ∈ c.vars := by
  simp only [keyVariables, List.mem_eraseDups, List.mem_flatMap, Literal.mem_keySort, vars]

theorem variant_key (c : Clause) : Variant c c.key := by
  refine ⟨fun x => "_" ++ toString (c.keyVariables.idxOf x), ?_, rfl⟩
  intro x hx y _ he
  have hidx := toString_injective ((String.append_right_inj "_").mp he)
  exact (List.idxOf_inj (mem_keyVariables.mpr hx)).mp hidx

/-- **Clauses with equal keys are variants of each other.** -/
theorem Variant.of_key_eq (h : c.key = d.key) : Variant c d :=
  (variant_key c).trans (h ▸ (variant_key d).symm)

end Clause

end Clausal

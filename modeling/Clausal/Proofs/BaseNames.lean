/-
# Standardising apart again

What stands before the number of a clause can be read off a name: `baseName` takes off an underscore
and the digits behind it, once (`baseName_append_number`).  So nothing of a name is lost that was
given with the number of a clause, even if what stands before it ends in a number or a line end
itself.

Where all variables of a clause have the same number behind them, their bases are distinct.  No name is
taken then when it is looked for, and to standardise such a clause apart is to put another suffix in
the place of the number, whatever the order in which its variables are met (`image_of_indexed`).
Every clause that was standardised apart with a number is of this kind.  So to standardise it apart
again only changes the suffix.
-/
import Clausal.Proofs.RenamingWalk
import Clausal.Proofs.StandardizedApart

namespace Clausal

/-! ## 1. The base of a name with a number -/

theorem Text.isDigit_of_isDigit {c : Char} (h : c.isDigit = true) : isDigit c = true := by
  have hrange : (decide ('0'.val ≤ c.val) && decide (c.val ≤ '9'.val)) = true := h
  have hval : c.val.toNat = c.toNat := rfl
  simp only [UInt32.le_iff_toNat_le, Bool.and_eq_true, decide_eq_true_eq, hval, Char.reduceVal,
    UInt32.reduceToNat] at hrange
  have hzero : (decide (0x0030 ≤ c.toNat) && decide (c.toNat < 0x0030 + 10)) = true := by
    simp only [Bool.and_eq_true, decide_eq_true_eq]
    omega
  rw [isDigit, digitValue?, decimalZeros, List.find?_cons, hzero]
  rfl

/-- An underscore and the digits behind it are taken off. -/
theorem dropNumber?_append {digits rest : List Char} (hne : digits ≠ [])
    (hdigits : ∀ c ∈ digits, Text.isDigit c = true) :
    dropNumber? (digits ++ '_' :: rest) = some rest := by
  have hunderscore : Text.isDigit '_' = false := by decide
  obtain ⟨d, ds, rfl⟩ := List.exists_cons_of_ne_nil hne
  rw [dropNumber?, List.takeWhile_append_of_pos hdigits, List.dropWhile_append_of_pos hdigits,
    List.dropWhile_cons_of_neg (by simp [hunderscore])]
  rfl

/-- **The base of a name with a number is what stands before the number.** -/
theorem baseName_append_number {digits : String} (hne : digits ≠ "")
    (hdigits : ∀ c ∈ digits.toList, c.isDigit = true) (name : String) :
    baseName (name ++ ("_" ++ digits)) = name := by
  have hne' : digits.toList.reverse ≠ [] := by simpa using hne
  have hdigits' : ∀ c ∈ digits.toList.reverse, c.isDigit = true := fun c hc =>
    hdigits c (List.mem_reverse.mp hc)
  have hchars : (name ++ ("_" ++ digits)).toList.reverse =
      digits.toList.reverse ++ '_' :: name.toList.reverse := by
    simp
  have hdrop : dropNumber? (digits.toList.reverse ++ '_' :: name.toList.reverse) =
      some name.toList.reverse :=
    dropNumber?_append hne' fun c hc => Text.isDigit_of_isDigit (hdigits' c hc)
  rw [baseName, hchars]
  split
  · -- The last character is a digit and no line end.
    rename_i reversed hnewline
    obtain ⟨d, ds, hd⟩ := List.exists_cons_of_ne_nil hne'
    rw [hd, List.cons_append, List.cons.injEq] at hnewline
    have hdigit := hdigits' d (hd ▸ List.mem_cons_self)
    rw [hnewline.1] at hdigit
    exact absurd hdigit (by decide)
  · rw [hdrop]
    simp

theorem baseName_append_indexSuffix (name : String) (i : Nat) :
    baseName (name ++ indexSuffix i) = name :=
  baseName_append_number (toString_ne_empty i) (fun _ => isDigit_of_mem_toString) name

/-! ## 2. Names for distinct bases -/

theorem freshName_of_not_mem {base : String} {taken : List String} (h : base ∉ taken) :
    freshName base taken = base := by
  simp [freshName, h]

/-- Where bases are distinct, each of them is the name that is found. -/
theorem freshNames_of_nodup (suffix : String) : ∀ {xs taken : List String},
    (xs.map baseName).Nodup → (∀ x ∈ xs, baseName x ∉ taken) →
      freshNames suffix xs taken = xs.map fun x => (x, baseName x ++ suffix)
  | [], _, _, _ => rfl
  | x :: xs, taken, hnodup, htaken => by
    rw [List.map_cons, List.nodup_cons] at hnodup
    have hx : freshName (baseName x) taken = baseName x :=
      freshName_of_not_mem (htaken x List.mem_cons_self)
    rw [freshNames, hx, freshNames_of_nodup suffix hnodup.2, List.map_cons]
    intro y hy
    rw [List.mem_cons, not_or]
    refine ⟨fun he => hnodup.1 ?_, htaken y (List.mem_cons_of_mem _ hy)⟩
    rw [← he]
    exact List.mem_map_of_mem hy

/-- Where bases are distinct, the suffix is put behind the base. -/
theorem image_of_nodup {xs : List String} (hbases : (xs.map baseName).Nodup) (suffix : String)
    {x : String} (hx : x ∈ xs) :
    Renaming.image ⟨freshNames suffix xs []⟩ x = baseName x ++ suffix := by
  have hpair := Renaming.mem_pairs_image (ρ := ⟨freshNames suffix xs []⟩) (x := x)
    (by rwa [map_fst_freshNames])
  rw [freshNames_of_nodup suffix hbases fun y _ => List.not_mem_nil] at hpair ⊢
  obtain ⟨y, -, hy⟩ := List.mem_map.mp hpair
  rw [Prod.mk.injEq] at hy
  rw [← hy.2, hy.1]

/-- The suffix is put behind names that do not depend on it. -/
theorem freshNames_eq_map (suffix : String) : ∀ xs taken : List String,
    freshNames suffix xs taken = (freshNames "" xs taken).map fun p => (p.1, p.2 ++ suffix)
  | [], _ => rfl
  | x :: xs, taken => by
    rw [freshNames, freshNames, freshNames_eq_map suffix xs, List.map_cons, String.append_empty]

theorem lookup_map_snd {x : String} (f : String → String) : ∀ pairs : List (String × String),
    (pairs.map fun p => (p.1, f p.2)).lookup x = (pairs.lookup x).map f
  | [] => rfl
  | p :: pairs => by
    rw [List.map_cons, List.lookup_cons, List.lookup_cons, lookup_map_snd f pairs]
    cases x == p.1 <;> rfl

/-- The new name of a variable is a name that does not depend on the suffix, with the suffix. -/
theorem image_freshNames {xs : List String} {x : String} (suffix : String) (hx : x ∈ xs) :
    Renaming.image ⟨freshNames suffix xs []⟩ x =
      Renaming.image ⟨freshNames "" xs []⟩ x ++ suffix := by
  have hmem : x ∈ (freshNames "" xs []).map Prod.fst := by rwa [map_fst_freshNames]
  obtain ⟨p, hp, rfl⟩ := List.mem_map.mp hmem
  cases hl : (freshNames "" xs []).lookup p.1 with
  | none => simpa using List.lookup_eq_none_iff.mp hl p hp
  | some y =>
    rw [Renaming.image, Renaming.image, freshNames_eq_map, lookup_map_snd (· ++ suffix), hl]
    rfl

/-! ## 3. Variables with one number behind them -/

/-- Whether all names in a list have the number `i` behind them. -/
def Indexed (i : Nat) (xs : List String) : Prop :=
  ∀ x ∈ xs, ∃ name, x = name ++ indexSuffix i

variable {i : Nat} {xs : List String}

theorem Indexed.baseName_append (h : Indexed i xs) {x : String} (hx : x ∈ xs) :
    baseName x ++ indexSuffix i = x := by
  obtain ⟨name, rfl⟩ := h x hx
  rw [baseName_append_indexSuffix]

/-- **Another suffix takes the place of the number**, whatever the order of the variables. -/
theorem image_of_indexed (h : Indexed i xs) (hnodup : xs.Nodup) (suffix : String) {x : String}
    (hx : x ∈ xs) : Renaming.image ⟨freshNames suffix xs []⟩ x = baseName x ++ suffix := by
  refine image_of_nodup (List.Nodup.map_on (fun y hy z hz he => ?_) hnodup) suffix hx
  rw [← h.baseName_append hy, he, h.baseName_append hz]

namespace Enumeration

open Clause

variable {ls ms : List Literal}

/-- The variables of an enumeration in the order in which they are met. -/
def varsMet (ls : List Literal) : List String :=
  ((Literal.textSort ls).flatMap Literal.vars).eraseDups

theorem mem_varsMet {x : String} : x ∈ varsMet ls ↔ x ∈ (ofList ls).vars := by
  simp only [varsMet, List.mem_eraseDups, List.mem_flatMap, Literal.mem_textSort, mem_vars,
    mem_ofList]

/-- To standardise an enumeration apart is to rename the clause that it enumerates. -/
theorem ofList_apart_eq_rename (suffix : String) (ls : List Literal) :
    ofList (apart suffix ls) =
      (ofList ls).rename (Renaming.image ⟨freshNames suffix (varsMet ls) []⟩) := by
  refine ofList_congr fun l => ?_
  simp only [apart, varsMet, List.mem_map, Literal.mem_textSort, mem_literals_ofList]

/-- A clause is kept in the order of what is written. -/
theorem textSort_literals (c : Clause) : Literal.textSort c.literals = c.literals := by
  refine List.Pairwise.insertionSort_eq (c.ascending.imp fun {l m} hlt => ?_)
  rw [Literal.cmp, compareLex, Ordering.then_eq_lt] at hlt
  rcases hlt with hlt | ⟨heq, -⟩
  · rw [hlt]
    rfl
  · rw [heq]
    rfl

theorem ofList_apart_literals (suffix : String) (c : Clause) :
    ofList (apart suffix c.literals) = c.apart suffix := by
  rw [ofList_apart_eq_rename, ofList_literals, varsMet, textSort_literals]
  rfl

/-- What was standardised apart with a number has this number behind all variables. -/
theorem indexed_apart (h : ∀ l, l ∈ ms ↔ l ∈ apart (indexSuffix i) ls) : Indexed i (varsMet ms) := by
  intro y hy
  rw [mem_varsMet, ofList_congr h, ofList_apart_eq_rename, rename_eq_subst] at hy
  obtain ⟨x, hx, hy⟩ := mem_vars_subst.mp hy
  rw [Term.vars_var, List.mem_singleton] at hy
  exact ⟨_, hy.trans (image_freshNames _ (mem_varsMet.mpr hx))⟩

/-- **To standardise apart again changes the suffix only**, in whatever order the literals are walked
the second time. -/
theorem ofList_apart_apart {j : Nat} (h : ∀ l, l ∈ ms ↔ l ∈ apart (indexSuffix i) ls) :
    ofList (apart (indexSuffix j) ms) = ofList (apart (indexSuffix j) ls) := by
  have hsecond : ofList (apart (indexSuffix j) ms) =
      (ofList ms).rename fun y => baseName y ++ indexSuffix j := by
    rw [ofList_apart_eq_rename]
    exact rename_congr fun y hy =>
      image_of_indexed (indexed_apart h) (nodup_eraseDups _) _ (mem_varsMet.mpr hy)
  rw [hsecond, ofList_congr h, ofList_apart_eq_rename, ofList_apart_eq_rename, rename_rename]
  refine rename_congr fun x hx => ?_
  have hx : x ∈ varsMet ls := mem_varsMet.mpr hx
  rw [image_freshNames _ hx, image_freshNames (indexSuffix j) hx, baseName_append_indexSuffix]

end Enumeration

open Clause

/-- **To standardise apart again only changes the suffix.**  Whatever the names of its variables, a
clause that is standardised apart with one number and then with another is what it is if it is
standardised apart with the second number alone; so with the same number nothing changes.  This also
holds where the literals of a set are walked in an order of its own each time. -/
theorem standardising_again_changes_the_suffix (i j : Nat) :
    (∀ c : Clause, (c.apart (indexSuffix i)).apart (indexSuffix j) = c.apart (indexSuffix j)) ∧
    ∀ ls ms : List Literal, (∀ l, l ∈ ms ↔ l ∈ Enumeration.apart (indexSuffix i) ls) →
      ofList (Enumeration.apart (indexSuffix j) ms) =
        ofList (Enumeration.apart (indexSuffix j) ls) := by
  refine ⟨fun c => ?_, fun ls ms => Enumeration.ofList_apart_apart⟩
  have hmem : ∀ l, l ∈ (c.apart (indexSuffix i)).literals ↔
      l ∈ Enumeration.apart (indexSuffix i) c.literals := by
    intro l
    rw [← Enumeration.ofList_apart_literals, mem_literals_ofList]
  rw [← Enumeration.ofList_apart_literals (indexSuffix j), Enumeration.ofList_apart_apart hmem,
    Enumeration.ofList_apart_literals]

/-- Names of which the first two have their base in common, and which sort differently once a number
stands behind them. -/
def reorderedNames : Clause :=
  .ofList [⟨false, "P", [.var "x_3"]⟩, ⟨false, "P", [.var "x"]⟩, ⟨false, "P", [.var "x^"]⟩,
    ⟨false, "P", [.var "x_3\n"]⟩, ⟨false, "P", [.var "x_1_2"]⟩]

/-- The second time the variables are met in another order, and with the same outcome, from whichever
end the literals are walked. -/
theorem reorderedNames_change_the_suffix :
    (reorderedNames.apart (indexSuffix 10)).vars = ["x\n_10", "x1_10", "x^_10", "x_10", "x_1_10"] ∧
    reorderedNames.vars = ["x", "x^", "x_1_2", "x_3\n", "x_3"] ∧
    (reorderedNames.apart (indexSuffix 10)).apart (indexSuffix 2) =
      reorderedNames.apart (indexSuffix 2) ∧
    let backwards := reorderedNames.literals.reverse
    ofList (Enumeration.apart (indexSuffix 2)
      (Enumeration.apart (indexSuffix 10) backwards).reverse) =
        ofList (Enumeration.apart (indexSuffix 2) backwards) := by
  obtain ⟨hclause, hany⟩ := standardising_again_changes_the_suffix 10 2
  exact ⟨by decide +kernel, by decide +kernel, hclause reorderedNames,
    hany _ _ fun _ => List.mem_reverse⟩

end Clausal

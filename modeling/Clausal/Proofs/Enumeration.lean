/-
# Enumerations of literals

A clause is a set of literals, and is kept in one order.  A set that is kept in a table is walked in
an order that is not known, and the list that it was built from may have repetitions.  The
operations of this module work on such *enumerations*.  Each of them sorts the literals by what is
written first, and leaves literals that are written alike in the order in which they came.

No two literals with plain names are written alike.  So neither the order of an enumeration nor its
repetitions make a difference: each operation gives what its counterpart gives for the clause of the
enumerated literals (`ofList_apart`, `ofList_key`, `map_ofList_factors`, `map_ofList_resolvents`).
Pairs of literals are formed in walks of sets only, which have no repetitions.

The operations give plain literals for plain literals (`plain_apart`, `plain_factors`,
`plain_resolvents`), so this also holds of what is derived.
-/
import Clausal.Proofs.Copies
import Clausal.Proofs.PlainNames

namespace Clausal

/-! ## 1. First occurrences -/

section EraseDups

variable {α β : Type} [DecidableEq α] [DecidableEq β]

theorem eraseDups_sublist : ∀ l : List α, l.eraseDups.Sublist l
  | [] => List.Sublist.slnil
  | a :: l => by
    rw [List.eraseDups_cons]
    exact ((eraseDups_sublist _).trans List.filter_sublist).cons_cons a
termination_by l => l.length
decreasing_by exact Nat.lt_succ_of_le (List.length_filter_le _ _)

theorem eraseDups_filter (p : α → Bool) : ∀ l : List α,
    (l.filter p).eraseDups = l.eraseDups.filter p
  | [] => rfl
  | a :: l => by
    rw [List.eraseDups_cons, List.filter_cons, List.filter_cons, ← eraseDups_filter p]
    split
    · rw [List.eraseDups_cons, List.filter_filter, List.filter_filter]
      simp only [Bool.and_comm]
    · rename_i hp
      -- The members that are left out for being equal to `a` do not satisfy `p` either.
      rw [List.filter_filter]
      congr 1
      refine List.filter_congr fun b _ => ?_
      by_cases hb : b = a
      · simpa [hb] using hp
      · simp [hb]
termination_by l => l.length
decreasing_by exact Nat.lt_succ_of_le (List.length_filter_le _ _)

/-- What a function gives for `a` can be left out where it gives nothing new. -/
theorem filter_flatMap_filter_ne (f : α → List β) (a : α) (l : List α) :
    ((l.filter fun b => !b == a).flatMap f).filter (fun y => !(f a).contains y) =
      (l.flatMap f).filter fun y => !(f a).contains y := by
  induction l with
  | nil => rfl
  | cons b l ih =>
    rw [List.flatMap_cons, List.filter_append, ← ih, List.filter_cons]
    split
    · rw [List.flatMap_cons, List.filter_append]
    · rename_i hb
      have hnone : (f b).filter (fun y => !(f a).contains y) = [] := by
        rw [List.filter_eq_nil_iff]
        intro y hy
        have hba : b = a := by simpa using hb
        simpa [hba] using hba ▸ hy
      rw [hnone, List.nil_append]

/-- Repetitions do not change the order of first occurrences. -/
theorem eraseDups_flatMap_eraseDups (f : α → List β) : ∀ l : List α,
    (l.eraseDups.flatMap f).eraseDups = (l.flatMap f).eraseDups
  | [] => rfl
  | a :: l => by
    rw [List.eraseDups_cons, List.flatMap_cons, List.flatMap_cons, List.eraseDups_append,
      List.eraseDups_append, List.removeAll, List.removeAll, eraseDups_filter,
      eraseDups_flatMap_eraseDups f, ← eraseDups_filter, filter_flatMap_filter_ne]
termination_by l => l.length
decreasing_by exact Nat.lt_succ_of_le (List.length_filter_le _ _)

end EraseDups

/-! ## 2. Sorting by what is written -/

namespace Literal

variable {l m : Literal} {ls ms : List Literal}

/-- The literals in the order of their written forms.  Those that are written alike stay in the
order in which they came. -/
def textSort (ls : List Literal) : List Literal :=
  ls.insertionSort fun l m => (compareOn text l m).isLE = true

theorem mem_textSort : l ∈ textSort ls ↔ l ∈ ls :=
  List.mem_insertionSort _

theorem pairwise_textSort (ls : List Literal) :
    (textSort ls).Pairwise fun l m => (compareOn text l m).isLE = true :=
  pairwise_insertionSort_isLE ls

theorem nodup_textSort (h : ls.Nodup) : (textSort ls).Nodup :=
  (List.perm_insertionSort _ ls).nodup_iff.mpr h

theorem eq_of_compareOn_text (hl : l.Plain) (hm : m.Plain) (h : compareOn text l m = .eq) : l = m :=
  text_injective hl hm (Std.LawfulEqOrd.eq_of_compare h)

theorem eq_of_keyCmp (hl : l.Plain) (hm : m.Plain) (h : keyCmp l m = .eq) : l = m := by
  simp only [keyCmp, compareLex, Ordering.then_eq_eq] at h
  exact eq_of_compareOn_text hl hm h.2.2

/-- The literals of a plain clause are in the order of their written forms alone. -/
theorem pairwise_text_literals {c : Clause} (h : ∀ l ∈ c, l.Plain) :
    c.literals.Pairwise fun l m => compareOn text l m = .lt := by
  refine c.ascending.imp_of_mem fun {l m} hl hm hlt => ?_
  rw [cmp, compareLex, Ordering.then_eq_lt] at hlt
  rcases hlt with hlt | ⟨heq, hcode⟩
  · exact hlt
  · -- Literals that are written alike are equal, so their codes do not differ either.
    rw [eq_of_compareOn_text (h l hl) (h m hm) heq] at hcode
    simp [compareOn] at hcode

/-- A sorted enumeration of plain literals is strictly ascending once repetitions are left out. -/
theorem pairwise_lt_eraseDups {cmp : Literal → Literal → Ordering}
    (hcmp : ∀ {l m : Literal}, l.Plain → m.Plain → cmp l m = .eq → l = m)
    (hle : ls.Pairwise fun l m => (cmp l m).isLE = true) (h : ∀ l ∈ ls, l.Plain) :
    ls.eraseDups.Pairwise fun l m => cmp l m = .lt :=
  pairwise_lt_of_isLE (hle.sublist (eraseDups_sublist ls)) (nodup_eraseDups ls) fun l hl m hm =>
    hcmp (h l (List.mem_eraseDups.mp hl)) (h m (List.mem_eraseDups.mp hm))

end Literal

namespace Clause

variable {ls ms : List Literal}

/-- Enumerations of the same literals give the same clause. -/
theorem ofList_congr (h : ∀ l, l ∈ ls ↔ l ∈ ms) : ofList ls = ofList ms :=
  ext fun l => by rw [mem_ofList, mem_ofList, h]

theorem ofList_eq_iff : ofList ls = ofList ms ↔ ∀ l, l ∈ ls ↔ l ∈ ms :=
  ⟨fun h l => by rw [← mem_ofList, h, mem_ofList], ofList_congr⟩

theorem mem_literals_ofList {l : Literal} : l ∈ (ofList ls).literals ↔ l ∈ ls :=
  mem_ofList

theorem ofList_literals (c : Clause) : ofList c.literals = c :=
  ext fun _ => mem_ofList

theorem isEmpty_ofList (ls : List Literal) : (ofList ls).isEmpty = ls.isEmpty := by
  rw [Bool.eq_iff_iff, isEmpty_iff, List.isEmpty_iff, List.eq_nil_iff_forall_not_mem]
  constructor
  · intro h l hl
    exact not_mem_empty l (h ▸ mem_ofList.mpr hl)
  · intro h
    exact ext fun l => by simp [h l]

end Clause

namespace Enumeration

open Clause

variable {ls ms : List Literal}

/-- **A walk of a set, sorted, is the list that the clause is kept as.** -/
theorem textSort_eq_literals (h : ∀ l ∈ ls, l.Plain) (hnodup : ls.Nodup) :
    Literal.textSort ls = (ofList ls).literals := by
  have hsorted := pairwise_lt_of_isLE (Literal.pairwise_textSort ls)
    (Literal.nodup_textSort hnodup) fun l hl m hm => Literal.eq_of_compareOn_text
      (h l (Literal.mem_textSort.mp hl)) (h m (Literal.mem_textSort.mp hm))
  have hliterals := Literal.pairwise_text_literals fun l hl => h l (mem_ofList.mp hl)
  exact eq_of_pairwise_lt hsorted hliterals fun l => by
    rw [Literal.mem_textSort, mem_literals_ofList]

-- A predicate whose name begins with an exclamation mark is not plain, and then the order matters.
example : Literal.textSort [⟨true, "P", []⟩, ⟨false, "!P", []⟩] ≠
    Literal.textSort [⟨false, "!P", []⟩, ⟨true, "P", []⟩] := by
  decide

/-- The variables first occur in the same order as in the clause. -/
theorem eraseDups_vars_textSort (h : ∀ l ∈ ls, l.Plain) :
    ((Literal.textSort ls).flatMap Literal.vars).eraseDups = (ofList ls).vars.eraseDups := by
  have hsorted := Literal.pairwise_lt_eraseDups Literal.eq_of_compareOn_text
    (Literal.pairwise_textSort ls) fun l hl => h l (Literal.mem_textSort.mp hl)
  have hliterals := Literal.pairwise_text_literals fun l hl => h l (mem_ofList.mp hl)
  have hwalk : (Literal.textSort ls).eraseDups = (ofList ls).literals :=
    eq_of_pairwise_lt hsorted hliterals fun l => by
      rw [List.mem_eraseDups, Literal.mem_textSort, mem_literals_ofList]
  rw [← eraseDups_flatMap_eraseDups, hwalk]
  rfl

/-- The same holds of the walk by sign and shape. -/
theorem eraseDups_vars_keySort (h : ∀ l ∈ ls, l.Plain) :
    ((Literal.keySort ls).flatMap Literal.vars).eraseDups = (ofList ls).keyVariables := by
  have hsorted : ∀ {ks : List Literal}, (∀ l ∈ ks, l.Plain) →
      (Literal.keySort ks).eraseDups.Pairwise fun l m => Literal.keyCmp l m = .lt := fun hks =>
    Literal.pairwise_lt_eraseDups Literal.eq_of_keyCmp (Literal.pairwise_keySort _)
      fun l hl => hks l (Literal.mem_keySort.mp hl)
  have hwalk : (Literal.keySort ls).eraseDups = (Literal.keySort (ofList ls).literals).eraseDups :=
    eq_of_pairwise_lt (hsorted h) (hsorted fun l hl => h l (mem_literals_ofList.mp hl)) fun l => by
      simp only [List.mem_eraseDups, Literal.mem_keySort, mem_literals_ofList]
  rw [keyVariables, ← eraseDups_flatMap_eraseDups, hwalk, eraseDups_flatMap_eraseDups]

/-! ## 3. The two renamings -/

/-- The enumerated literals with a name with the suffix for every variable. -/
def apart (suffix : String) (ls : List Literal) : List Literal :=
  let sorted := Literal.textSort ls
  let names := freshNames suffix (sorted.flatMap Literal.vars).eraseDups []
  sorted.map (Literal.rename (Renaming.image ⟨names⟩))

/-- The enumerated literals with their variables numbered in the order in which they first occur,
when the literals are walked by sign and shape. -/
def key (ls : List Literal) : List Literal :=
  let sorted := Literal.keySort ls
  let vars := (sorted.flatMap Literal.vars).eraseDups
  sorted.map (Literal.rename fun x => "_" ++ toString (vars.idxOf x))

/-- **To standardise apart does not depend on the enumeration.** -/
theorem ofList_apart (suffix : String) (h : ∀ l ∈ ls, l.Plain) :
    ofList (apart suffix ls) = (ofList ls).apart suffix := by
  rw [Clause.apart, rename, apartRenaming, apart, eraseDups_vars_textSort h]
  refine ofList_congr fun l => ?_
  simp only [List.mem_map, Literal.mem_textSort, mem_literals_ofList]

/-- **The key does not depend on the enumeration.** -/
theorem ofList_key (h : ∀ l ∈ ls, l.Plain) : ofList (key ls) = (ofList ls).key := by
  rw [Clause.key, rename, key, eraseDups_vars_keySort h]
  refine ofList_congr fun l => ?_
  simp only [List.mem_map, Literal.mem_keySort, mem_literals_ofList]

theorem plain_apart {suffix : String} (hsuffix : IsPlain suffix) (h : ∀ l ∈ ls, l.Plain) :
    ∀ l ∈ apart suffix ls, l.Plain := by
  intro l hl
  obtain ⟨k, hk, rfl⟩ := List.mem_map.mp hl
  have hplain : ∀ k ∈ Literal.textSort ls, k.Plain := fun k hk => h k (Literal.mem_textSort.mp hk)
  have hvars : ∀ x ∈ ((Literal.textSort ls).flatMap Literal.vars).eraseDups, IsPlain x := by
    intro x hx
    obtain ⟨k, hk, hx⟩ := List.mem_flatMap.mp (List.mem_eraseDups.mp hx)
    exact (hplain k hk).isPlain hx
  refine (hplain k hk).rename fun x hx => ?_
  have hmem : x ∈ ((Literal.textSort ls).flatMap Literal.vars).eraseDups :=
    List.mem_eraseDups.mpr (List.mem_flatMap.mpr ⟨k, hk, hx⟩)
  have hpair := Renaming.mem_pairs_image
    (ρ := ⟨freshNames suffix ((Literal.textSort ls).flatMap Literal.vars).eraseDups []⟩)
    (by rwa [map_fst_freshNames])
  exact (isPlain_of_mem_freshNames hsuffix hvars hpair :)

/-! ## 4. The rules of inference -/

/-- The literals of all clauses that one step of factoring derives from a walk of a set. -/
def factors (ls : List Literal) : List (List Literal) :=
  (pairs (Literal.textSort ls)).filterMap fun p =>
    if p.1.negated = p.2.negated then
      (p.1.unify? p.2).map fun σ => (ls.filter (· ≠ p.2)).map (Literal.apply σ)
    else none

/-- The literals of all clauses that one step of resolution derives from walks of two sets. -/
def resolvents (ls ms : List Literal) : List (List Literal) :=
  (Literal.textSort ls).flatMap fun l => (Literal.textSort ms).filterMap fun m =>
    if l.negated = m.negated then none
    else (l.unify? m).map fun σ => (ls.filter (· ≠ l) ++ ms.filter (· ≠ m)).map (Literal.apply σ)

/-- All literals but one are those of the clause. -/
theorem mem_filter_ne {l m : Literal} : l ∈ ls.filter (· ≠ m) ↔ l ∈ (ofList ls).others m := by
  rw [mem_others, mem_ofList, List.mem_filter, decide_eq_true_eq]

/-- **Factoring does not depend on the walk**, and gives the factors in the same order. -/
theorem map_ofList_factors (h : ∀ l ∈ ls, l.Plain) (hnodup : ls.Nodup) :
    (factors ls).map ofList = (ofList ls).factors := by
  rw [factors, Clause.factors, textSort_eq_literals h hnodup, List.map_filterMap]
  refine List.filterMap_congr fun p _ => ?_
  rw [factorOn?]
  split
  · rw [Option.map_map]
    congr 1
    funext σ
    refine ofList_congr fun l => ?_
    simp only [List.mem_map, mem_filter_ne]
  · rfl

/-- **Resolution does not depend on the walks**, and gives the resolvents in the same order. -/
theorem map_ofList_resolvents (hl : ∀ l ∈ ls, l.Plain) (hlnodup : ls.Nodup)
    (hm : ∀ l ∈ ms, l.Plain) (hmnodup : ms.Nodup) :
    (resolvents ls ms).map ofList = (ofList ls).resolvents (ofList ms) := by
  rw [resolvents, Clause.resolvents, textSort_eq_literals hl hlnodup,
    textSort_eq_literals hm hmnodup, List.map_flatMap]
  refine List.flatMap_congr fun l _ => ?_
  rw [List.map_filterMap]
  refine List.filterMap_congr fun m _ => ?_
  rw [resolventOn?]
  split
  · rfl
  · rw [Option.map_map]
    congr 1
    funext σ
    refine ofList_congr fun k => ?_
    simp only [List.mem_map, List.mem_append, mem_filter_ne]

theorem plain_factors (h : ∀ l ∈ ls, l.Plain) : ∀ r ∈ factors ls, ∀ l ∈ r, l.Plain := by
  intro r hr l hl
  obtain ⟨p, hp, hr⟩ := List.mem_filterMap.mp hr
  split at hr
  · obtain ⟨σ, hσ, rfl⟩ := Option.map_eq_some_iff.mp hr
    obtain ⟨k, hk, rfl⟩ := List.mem_map.mp hl
    have hmem := mem_of_mem_pairs hp
    exact (h k (List.mem_filter.mp hk).1).apply (h _ (Literal.mem_textSort.mp hmem.1))
      (h _ (Literal.mem_textSort.mp hmem.2)) hσ
  · simp at hr

theorem plain_resolvents (hl : ∀ l ∈ ls, l.Plain) (hm : ∀ m ∈ ms, m.Plain) :
    ∀ r ∈ resolvents ls ms, ∀ l ∈ r, l.Plain := by
  intro r hr k hk
  obtain ⟨l, hlmem, hr⟩ := List.mem_flatMap.mp hr
  obtain ⟨m, hmmem, hr⟩ := List.mem_filterMap.mp hr
  split at hr
  · simp at hr
  · obtain ⟨σ, hσ, rfl⟩ := Option.map_eq_some_iff.mp hr
    obtain ⟨k', hk', rfl⟩ := List.mem_map.mp hk
    have hplain : k'.Plain := by
      rcases List.mem_append.mp hk' with hk' | hk'
      · exact hl k' (List.mem_filter.mp hk').1
      · exact hm k' (List.mem_filter.mp hk').1
    exact hplain.apply (hl l (Literal.mem_textSort.mp hlmem)) (hm m (Literal.mem_textSort.mp hmmem))
      hσ

end Enumeration

end Clausal

/-
# Renamed copies

The key of a clause numbers its variables in the order in which they first occur, when the literals
are walked by sign and shape.  Sign and shape do not depend on the names of variables, so a renaming
does not change that walk, unless two literals have the same sign and shape and are told apart by
their texts.  Where no two literals of a clause do (`Clause.ShapesDistinct`), the key is the same
for all variants of the clause (`Variant.key_eq`).

So no variant of such a clause is stored beside it.  Of any other clause two variants may be stored,
but never under the same names: stored clauses have no variable in common, and a clause without
variables has one variant only (`Reachable.nodup_clauses`).

Literals of one sign and shape that are also written alike are walked in the order of their codes.
Nothing here depends on that order: the first result is about clauses that have no such literals, and
the second one rests on clauses without variables, which are their own keys in whatever order they
are walked.
-/
import Clausal.Proofs.Duplicates
import Mathlib.Data.List.Sort

namespace Clausal

/-! ## 1. Numbering under an injective map -/

section Injective

variable {α β : Type} [DecidableEq α] [DecidableEq β] {f : α → β}

theorem eraseDups_map_of_injective (hf : Function.Injective f) :
    ∀ l : List α, (l.map f).eraseDups = l.eraseDups.map f
  | [] => rfl
  | a :: l => by
    have hfilter : (l.map f).filter (fun b => !b == f a) = (l.filter fun b => !b == a).map f := by
      rw [List.filter_map]
      congr 1
      refine List.filter_congr fun b _ => ?_
      simp [hf.eq_iff]
    rw [List.map_cons, List.eraseDups_cons, List.eraseDups_cons, hfilter,
      eraseDups_map_of_injective hf, List.map_cons]
termination_by l => l.length
decreasing_by exact Nat.lt_succ_of_le (List.length_filter_le _ _)

theorem idxOf_map_of_injective (hf : Function.Injective f) (a : α) :
    ∀ l : List α, (l.map f).idxOf (f a) = l.idxOf a
  | [] => rfl
  | b :: l => by
    have hbeq : (f b == f a) = (b == a) := by
      rw [beq_eq_decide, beq_eq_decide]
      exact decide_eq_decide.mpr hf.eq_iff
    rw [List.map_cons, List.idxOf_cons, List.idxOf_cons, idxOf_map_of_injective hf a l, hbeq]

end Injective

/-! ## 2. Sorting by a comparison -/

section Comparison

variable {α : Type} {cmp : α → α → Ordering} [Std.TransCmp cmp] {as bs : List α}

/-- Strictly ascending lists with the same members are equal. -/
theorem eq_of_pairwise_lt (ha : as.Pairwise fun a b => cmp a b = .lt)
    (hb : bs.Pairwise fun a b => cmp a b = .lt) (h : ∀ a, a ∈ as ↔ a ∈ bs) : as = bs := by
  have hnodup : ∀ {cs : List α}, (cs.Pairwise fun a b => cmp a b = .lt) → cs.Nodup := by
    intro cs hcs
    refine hcs.imp fun {a b} hlt => ?_
    rintro rfl
    rw [@Std.ReflCmp.compare_self _ cmp _ a] at hlt
    exact absurd hlt (by decide)
  refine List.Perm.eq_of_pairwise (fun a b _ _ hab hba => ?_) ha hb
    ((List.perm_ext_iff_of_nodup (hnodup ha) (hnodup hb)).mpr h)
  rw [Std.OrientedCmp.gt_iff_lt.mpr hba] at hab
  exact absurd hab (by decide)

theorem pairwise_insertionSort_isLE (as : List α) :
    (as.insertionSort fun a b => (cmp a b).isLE = true).Pairwise
      fun a b => (cmp a b).isLE = true := by
  have : Std.Total fun a b : α => (cmp a b).isLE = true := ⟨fun a b => by
    cases hc : cmp a b with
    | lt => exact Or.inl rfl
    | eq => exact Or.inl rfl
    | gt => exact Or.inr (by rw [Std.OrientedCmp.gt_iff_lt.mp hc]; rfl)⟩
  have : IsTrans α fun a b : α => (cmp a b).isLE = true :=
    ⟨fun _ _ _ => Std.TransCmp.isLE_trans⟩
  exact List.pairwise_insertionSort _ as

omit [Std.TransCmp cmp] in
/-- An ascending list without repetitions is strictly ascending, if no two of its members are equal
in the comparison. -/
theorem pairwise_lt_of_isLE (h : as.Pairwise fun a b => (cmp a b).isLE = true) (hnodup : as.Nodup)
    (hinj : ∀ a ∈ as, ∀ b ∈ as, cmp a b = .eq → a = b) :
    as.Pairwise fun a b => cmp a b = .lt := by
  refine (h.and hnodup).imp_of_mem ?_
  rintro a b ha hb ⟨hle, hne⟩
  cases hc : cmp a b with
  | lt => rfl
  | eq => exact absurd (hinj a ha b hb hc) hne
  | gt =>
    rw [hc] at hle
    exact absurd hle (by decide)

end Comparison

/-! ## 3. What a renaming keeps -/

theorem Term.shape_rename (ρ : String → String) (t : Term) : (t.rename ρ).shape = t.shape := by
  induction t with
  | var x => rfl
  | app f ts ih =>
    have hargs : (ts.map (rename ρ)).map shape = ts.map shape := by
      rw [List.map_map]
      exact List.map_congr_left ih
    rw [rename_app, shape_app, shape_app, hargs]

theorem Term.vars_rename (ρ : String → String) (t : Term) : (t.rename ρ).vars = t.vars.map ρ := by
  induction t with
  | var x => rfl
  | app f ts ih =>
    rw [rename_app, vars_app, vars_app, List.flatMap_map, List.map_flatMap]
    exact List.flatMap_congr ih

namespace Literal

variable {l m : Literal}

theorem shape_rename (ρ : String → String) (l : Literal) : (l.rename ρ).shape = l.shape := by
  rw [shape, shape, rename_eq_subst, atom_subst]
  exact Term.shape_rename ρ l.atom

theorem vars_rename (ρ : String → String) (l : Literal) : (l.rename ρ).vars = l.vars.map ρ := by
  rw [vars_eq_vars_atom, vars_eq_vars_atom, rename_eq_subst, atom_subst]
  exact Term.vars_rename ρ l.atom

/-! ## 4. The order by sign and shape -/

instance : Std.TransCmp keyCmp :=
  inferInstanceAs (Std.TransCmp
    (compareLex (compareOn negated) (compareLex (compareOn shape) (compareOn text))))

/-- Literals that do not have both sign and shape in common are compared by these. -/
theorem keyCmp_rename (h : ¬ (l.negated = m.negated ∧ l.shape = m.shape)) (ρ : String → String) :
    keyCmp (l.rename ρ) (m.rename ρ) = keyCmp l m := by
  have hsign : ∀ k : Literal, (k.rename ρ).negated = k.negated := fun _ => rfl
  simp only [keyCmp, compareLex, compareOn, hsign, shape_rename]
  by_cases hs : l.negated = m.negated
  · -- The signs are equal, so the shapes differ and decide.
    have hshape : compare l.shape m.shape ≠ .eq := fun he =>
      h ⟨hs, Std.LawfulEqOrd.eq_of_compare he⟩
    cases hc : compare l.shape m.shape <;> simp_all
  · have hsigns : compare l.negated m.negated ≠ .eq := fun he =>
      hs (Std.LawfulEqOrd.eq_of_compare he)
    cases hc : compare l.negated m.negated <;> simp_all

theorem negated_shape_of_keyCmp (h : keyCmp l m = .eq) :
    l.negated = m.negated ∧ l.shape = m.shape := by
  simp only [keyCmp, compareLex, compareOn, Ordering.then_eq_eq, Std.compare_eq_iff_eq] at h
  exact ⟨h.1, h.2.1⟩

/-- To sort by sign, shape and text is insertion sort. -/
theorem keySort_eq_insertionSort (ls : List Literal) :
    keySort ls = ls.insertionSort fun l m => (keyCmp l m).isLE = true := by
  have hinsert : ∀ (l : Literal) (ms : List Literal),
      keyInsert l ms = ms.orderedInsert (fun l m => (keyCmp l m).isLE = true) l := by
    intro l ms
    induction ms with
    | nil => rfl
    | cons m ms ih => rw [keyInsert, List.orderedInsert_cons, ih]
  induction ls with
  | nil => rfl
  | cons l ls ih =>
    rw [keySort, List.foldr_cons, List.insertionSort_cons, ← ih, hinsert]
    rfl

theorem keySort_perm (ls : List Literal) : (keySort ls).Perm ls := by
  rw [keySort_eq_insertionSort]
  exact List.perm_insertionSort _ ls

theorem pairwise_keySort (ls : List Literal) :
    (keySort ls).Pairwise fun l m => (keyCmp l m).isLE = true := by
  rw [keySort_eq_insertionSort]
  exact pairwise_insertionSort_isLE ls

end Literal

/-! ## 5. Clauses without two literals of one sign and shape -/

namespace Clause

variable {c d : Clause}

/-- Whether no two literals have both sign and shape in common. -/
def ShapesDistinct (c : Clause) : Prop :=
  ∀ l ∈ c, ∀ m ∈ c, l.negated = m.negated → l.shape = m.shape → l = m

instance (c : Clause) : Decidable c.ShapesDistinct :=
  inferInstanceAs (Decidable (∀ l ∈ c.literals, ∀ m ∈ c.literals,
    l.negated = m.negated → l.shape = m.shape → l = m))

theorem mem_rename {ρ : String → String} {k : Literal} :
    k ∈ c.rename ρ ↔ ∃ l ∈ c, l.rename ρ = k :=
  mem_subst

theorem ShapesDistinct.rename (h : c.ShapesDistinct) (ρ : String → String) :
    (c.rename ρ).ShapesDistinct := by
  intro k hk k' hk' hs hshape
  obtain ⟨l, hl, rfl⟩ := mem_rename.mp hk
  obtain ⟨m, hm, rfl⟩ := mem_rename.mp hk'
  rw [Literal.shape_rename, Literal.shape_rename] at hshape
  rw [h l hl m hm hs hshape]

theorem ShapesDistinct.variant (h : c.ShapesDistinct) (hvar : Variant c d) : d.ShapesDistinct := by
  obtain ⟨ρ, -, rfl⟩ := hvar
  exact h.rename ρ

theorem nodup_literals (c : Clause) : c.literals.Nodup := by
  refine c.ascending.imp fun {l m} hlt => ?_
  rintro rfl
  rw [Literal.cmp_self] at hlt
  exact absurd hlt (by decide)

theorem nodup_keySort (c : Clause) : (Literal.keySort c.literals).Nodup :=
  (Literal.keySort_perm c.literals).nodup_iff.mpr c.nodup_literals

/-- **A renaming that keeps the order by sign, shape and text does not change the walk**, if only equal
literals are equal in this order. -/
theorem keySort_rename {ρ : String → String}
    (heq : ∀ l ∈ c, ∀ m ∈ c, Literal.keyCmp l m = .eq → l = m)
    (hcmp : ∀ l ∈ c, ∀ m ∈ c,
      Literal.keyCmp (l.rename ρ) (m.rename ρ) = Literal.keyCmp l m) :
    Literal.keySort (c.rename ρ).literals =
      (Literal.keySort c.literals).map (Literal.rename ρ) := by
  have hstrict : ∀ {d : Clause}, (∀ l ∈ d, ∀ m ∈ d, Literal.keyCmp l m = .eq → l = m) →
      (Literal.keySort d.literals).Pairwise fun l m => Literal.keyCmp l m = .lt := fun {d} hd =>
    pairwise_lt_of_isLE (Literal.pairwise_keySort d.literals) d.nodup_keySort fun l hl m hm =>
      hd l (Literal.mem_keySort.mp hl) m (Literal.mem_keySort.mp hm)
  have hmap : ((Literal.keySort c.literals).map (Literal.rename ρ)).Pairwise
      fun l m => Literal.keyCmp l m = .lt := by
    rw [List.pairwise_map]
    refine (hstrict heq).imp_of_mem fun {l m} hl hm hlt => ?_
    rw [hcmp l (Literal.mem_keySort.mp hl) m (Literal.mem_keySort.mp hm), hlt]
  have hrename : ∀ k ∈ c.rename ρ, ∀ k' ∈ c.rename ρ, Literal.keyCmp k k' = .eq → k = k' := by
    intro k hk k' hk' he
    obtain ⟨l, hl, rfl⟩ := mem_rename.mp hk
    obtain ⟨m, hm, rfl⟩ := mem_rename.mp hk'
    rw [hcmp l hl m hm] at he
    rw [heq l hl m hm he]
  refine eq_of_pairwise_lt (hstrict hrename) hmap fun k => ?_
  simp only [Literal.mem_keySort, List.mem_map]
  exact mem_rename

/-- A bijection of names that does not change the walk does not change the key. -/
theorem key_rename {π : Equiv.Perm String} (h : Literal.keySort (c.rename π).literals =
    (Literal.keySort c.literals).map (Literal.rename π)) : (c.rename π).key = c.key := by
  have hvars : (c.rename π).keyVariables = c.keyVariables.map π := by
    rw [keyVariables, h, List.flatMap_map, keyVariables,
      ← eraseDups_map_of_injective π.injective, List.map_flatMap]
    simp only [Literal.vars_rename]
  have hkey : (c.rename π).key =
      c.rename fun x => "_" ++ toString ((c.rename π).keyVariables.idxOf (π x)) :=
    rename_rename _ _ c
  rw [hkey, hvars]
  simp only [idxOf_map_of_injective π.injective]
  rfl

/-- **Variants have the same key**, if no two literals have sign and shape in common. -/
theorem Variant.key_eq (hvar : Variant c d) (h : c.ShapesDistinct) : c.key = d.key := by
  obtain ⟨π, rfl⟩ := hvar.exists_perm
  refine (key_rename (keySort_rename (fun l hl m hm he => ?_) fun l hl m hm => ?_)).symm
  · obtain ⟨hs, hshape⟩ := Literal.negated_shape_of_keyCmp he
    exact h l hl m hm hs hshape
  · by_cases hlm : l = m
    · have hself : ∀ k, Literal.keyCmp k k = .eq := fun _ => Std.ReflCmp.compare_self
      rw [hlm, hself, hself]
    · exact Literal.keyCmp_rename (fun hboth => hlm (h l hl m hm hboth.1 hboth.2)) π

end Clause

/-! ## 6. What is stored twice -/

namespace Session

open Clause KnowledgeBase

variable {offers : Prop} {s : Session} {i j : Nat} {d e : Entry}

/-- **Clauses with the same key are not stored twice.** -/
theorem Reachable.index_eq_of_key (h : Reachable offers s) {c c' : Clause}
    (hc : s.kb.signatures[i]? = some (c.key, i)) (hc' : s.kb.signatures[j]? = some (c'.key, j))
    (hkey : c.key = c'.key) : i = j := by
  have hi : i < (s.kb.signatures.map Prod.fst).length := by
    rw [List.length_map]
    exact (List.getElem?_eq_some_iff.mp hc).1
  refine (List.getElem?_inj hi h.nodup_keys).mp ?_
  rw [List.getElem?_map, List.getElem?_map, hc, hc', Option.map_some, Option.map_some, hkey]

/-- A clause without two literals of one sign and shape has no variant at another index. -/
theorem Reachable.index_eq_of_variant (h : Reachable offers s) (hd : s.kb.clauses[i]? = some d)
    (he : s.kb.clauses[j]? = some e) (hvar : Variant d.clause e.clause)
    (hshapes : d.clause.ShapesDistinct) : i = j := by
  obtain ⟨originals, hfiled⟩ := h.filed
  obtain ⟨c, hc, hcd⟩ := hfiled.getElem?_signatures hd
  obtain ⟨c', hc', hce⟩ := hfiled.getElem?_signatures he
  have hcc' : Variant c c' := (hcd.trans hvar).trans hce.symm
  exact h.index_eq_of_key hc hc' (hcc'.key_eq (hshapes.variant hcd.symm))

/-- **No two stored clauses are equal.**  They would have no variables, since clauses at different
indices share none; and such a clause is stored as it came in, so that the two have the same key. -/
theorem Reachable.nodup_clauses (h : Reachable offers s) :
    (s.kb.clauses.map fun e => e.clause).Nodup := by
  obtain ⟨originals, hfiled⟩ := h.filed
  rw [List.nodup_iff_getElem?_ne_getElem?]
  intro i j hij hj heq
  rw [List.length_map] at hj
  obtain ⟨d, hd⟩ : ∃ d, s.kb.clauses[i]? = some d :=
    ⟨_, List.getElem?_eq_getElem (Nat.lt_trans hij hj)⟩
  obtain ⟨e, he⟩ : ∃ e, s.kb.clauses[j]? = some e := ⟨_, List.getElem?_eq_getElem hj⟩
  rw [List.getElem?_map, List.getElem?_map, hd, he, Option.map_some, Option.map_some,
    Option.some.injEq] at heq
  have hground : d.clause.vars = [] := List.eq_nil_iff_forall_not_mem.mpr fun x hx =>
    hfiled.disjoint (Nat.ne_of_lt hij) hd he x hx (heq ▸ hx)
  obtain ⟨c, hc, hcd⟩ := hfiled.getElem?_signatures hd
  obtain ⟨c', hc', hce⟩ := hfiled.getElem?_signatures he
  have hcc' : c = c' := by
    rw [hcd.symm.eq_of_ground hground, hce.symm.eq_of_ground (heq ▸ hground), heq]
  exact Nat.ne_of_lt hij (h.index_eq_of_key hc hc' (by rw [hcc']))

end Session

open Clause

/-- **Renamed copies.**  Variants have the same key if no two literals of one of them have both sign
and shape in common.  After any sequence of calls no two stored clauses are equal; and no stored
clause is a variant of one that has no two literals with sign and shape in common. -/
theorem no_renamed_copies :
    (∀ c d : Clause, Variant c d → c.ShapesDistinct → c.key = d.key) ∧
    ∀ (calls : List Call) (i j : Nat) (d e : Entry), i ≠ j →
      (Session.ofCalls calls).kb.clauses[i]? = some d →
      (Session.ofCalls calls).kb.clauses[j]? = some e →
        d.clause ≠ e.clause ∧ (d.clause.ShapesDistinct → ¬ Variant d.clause e.clause) := by
  refine ⟨fun c d hvar => hvar.key_eq, ?_⟩
  intro calls i j d e hij hd he
  have hreach : Session.Reachable True (Session.ofCalls calls) :=
    Session.reachable_ofCalls fun _ _ _ => trivial
  constructor
  · intro heq
    have hi : i < ((Session.ofCalls calls).kb.clauses.map fun e => e.clause).length := by
      rw [List.length_map]
      exact (List.getElem?_eq_some_iff.mp hd).1
    refine hij ((List.getElem?_inj hi hreach.nodup_clauses).mp ?_)
    rw [List.getElem?_map, List.getElem?_map, hd, he, Option.map_some, Option.map_some, heq]
  · exact fun hshapes hvar => hij (hreach.index_eq_of_variant hd he hvar hshapes)

/-- A clause with literals of different shapes, and its instance on the diagonal. -/
def offDiagonal : List Call := [
  .ingest [.text "P([x], [y])", .text "!P([x], [y])", .text "P([y])"] "",
  .ingest [.text "P([x], [x])", .text "!P([x], [x])", .text "P([x])"] ""]

/-- The first clause of `offDiagonal` has the key that it had before it was standardised apart, and
the second one is no copy of it. -/
theorem offDiagonal_is_no_copy :
    ∃ d e, (Session.ofCalls offDiagonal).kb.clauses = [d, e] ∧ d.clause.ShapesDistinct ∧
      d.clause.key = (d.clause.apart "_7").key ∧ ¬ Variant d.clause e.clause := by
  have hshapes : (Session.ofCalls offDiagonal).kb.clauses.map
      (fun e => decide e.clause.ShapesDistinct) = [true, true] := by decide +kernel
  obtain ⟨d, rest, hkb, hd, hrest⟩ := List.map_eq_cons_iff.mp hshapes
  obtain ⟨e, rest, rfl, -, hnil⟩ := List.map_eq_cons_iff.mp hrest
  obtain rfl := List.map_eq_nil_iff.mp hnil
  have hdistinct : d.clause.ShapesDistinct := of_decide_eq_true hd
  obtain ⟨hkey, hcopies⟩ := no_renamed_copies
  have hde := hcopies offDiagonal 0 1 d e (by decide) (by rw [hkb]; rfl) (by rw [hkb]; rfl)
  exact ⟨d, e, hkb, hdistinct, hkey _ _ (variant_apart _ _) hdistinct, hde.2 hdistinct⟩

/-- Two literals of one sign and shape: here a renaming swaps them, and both variants are stored. -/
example : (Session.ofCalls [
    .ingest [.text "P([x], [y])", .text "P([y], [z])"] "",
    .ingest [.text "P([b], [a])", .text "P([a], [c])"] ""]).kb.clauses.length = 2 := by
  decide +kernel

end Clausal

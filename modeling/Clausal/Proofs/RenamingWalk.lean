/-
# Standardising apart, one occurrence after the other

`Clause.apart` gives names to the list of variables of a clause, and looks for each name among finitely
many.  Here the clause is walked instead, from one occurrence of a variable to the next.  A variable
that is met for the first time is given a name, and every later occurrence the same one; the search
for a name goes through `x`, `x1`, `x2`, ... without a bound (`Seeks`, `Renames`).

The search always ends, because only finitely many names are taken, and it ends with `freshName`
(`seeks_iff`).  So the walk ends too, with one result only, and the names that it gives are those of
`freshNames` for the variables in the order in which they were first met (`renamesAll_iff`).

Hence to standardise apart is to rename injectively, whatever the names were before and in whatever
order the literals are walked.  Two variables may have the same base, and a number behind one base
may give another base; but what is taken once is not given again.
-/
import Clausal.Proofs.Enumeration

namespace Clausal

/-! ## 1. The search for a name -/

/-- The search for a name that is not taken, without a bound.  It looks at `name`; if that is taken,
it goes on to the base with the number `n`, and then to the next number. -/
inductive Seeks (base : String) (taken : List String) : (name : String) → (n : Nat) → String → Prop
    where
  | free {name : String} {n : Nat} (h : name ∉ taken) : Seeks base taken name n name
  | next {name found : String} {n : Nat} (h : name ∈ taken)
      (rest : Seeks base taken (base ++ toString n) (n + 1) found) : Seeks base taken name n found

namespace Seeks

variable {base name found found' : String} {taken : List String} {n : Nat}

/-- The search has one result at most. -/
theorem unique (h : Seeks base taken name n found) (h' : Seeks base taken name n found') :
    found = found' := by
  induction h with
  | free hfree =>
    cases h' with
    | free _ => rfl
    | next htaken _ => exact absurd htaken hfree
  | next htaken _ ih =>
    cases h' with
    | free hfree => exact absurd htaken hfree
    | next _ rest => exact ih rest

/-- What is found among the first names that are tried is what the search finds. -/
theorem of_find? {k : Nat}
    (h : (name :: (List.range k).map fun i => base ++ toString (i + n)).find?
      (fun candidate => !taken.contains candidate) = some found) :
    Seeks base taken name n found := by
  induction k generalizing name n with
  | zero =>
    simp only [List.range_zero, List.map_nil, List.find?_cons, List.find?_nil] at h
    split at h
    · rename_i hfree
      obtain rfl := Option.some.inj h
      exact .free (by simpa using hfree)
    · simp at h
  | succ k ih =>
    rw [List.find?_cons] at h
    split at h
    · rename_i hfree
      obtain rfl := Option.some.inj h
      exact .free (by simpa using hfree)
    · rename_i htaken
      refine .next (by simpa using htaken) (ih ?_)
      rw [List.range_succ_eq_map, List.map_cons, List.map_map, Nat.zero_add] at h
      rw [← h]
      congr 3
      funext i
      rw [Function.comp_apply, Nat.succ_add_eq_add_succ]

end Seeks

/-- **The search ends**, and finds the fresh name. -/
theorem seeks_iff {base found : String} {taken : List String} :
    Seeks base taken base 1 found ↔ found = freshName base taken := by
  have hfresh : Seeks base taken base 1 (freshName base taken) := .of_find? (find?_candidates _ _)
  constructor
  · exact fun h => h.unique hfresh
  · rintro rfl
    exact hfresh

/-! ## 2. The walk -/

/-- The names that were given so far. -/
structure Given where
  /-- The new name of every variable that was met, with the old name first. -/
  pairs : List (String × String)
  /-- What stands before the suffix in these names. -/
  taken : List String

/-- No variable has been met. -/
def Given.start : Given := ⟨[], []⟩

/-- The walk through a list of terms, and through the arguments of each of them before the next one.
It starts and ends with some names given, and `us` are the terms under their new names. -/
inductive Renames (suffix : String) : Given → List Term → Given → List Term → Prop where
  | nil (g : Given) : Renames suffix g [] g []
  /-- A variable that was met before. -/
  | known {g g' : Given} {x y : String} {ts us : List Term} (h : g.pairs.lookup x = some y)
      (rest : Renames suffix g ts g' us) : Renames suffix g (.var x :: ts) g' (.var y :: us)
  /-- A variable that is met for the first time. -/
  | new {g g' : Given} {x name : String} {ts us : List Term} (h : g.pairs.lookup x = .none)
      (search : Seeks (baseName x) g.taken (baseName x) 1 name)
      (rest : Renames suffix ⟨g.pairs ++ [(x, name ++ suffix)], name :: g.taken⟩ ts g' us) :
      Renames suffix g (.var x :: ts) g' (.var (name ++ suffix) :: us)
  | app {g g' g'' : Given} {f : String} {args args' ts us : List Term}
      (inner : Renames suffix g args g' args') (rest : Renames suffix g' ts g'' us) :
      Renames suffix g (.app f args :: ts) g'' (.app f args' :: us)

/-- The walk through a list of literals, which keeps their signs. -/
def RenamesAll (suffix : String) (ls ms : List Literal) : Prop :=
  (∃ g, Renames suffix .start (ls.map Literal.atom) g (ms.map Literal.atom)) ∧
    ms.map Literal.negated = ls.map Literal.negated

/-- **The walk ends**, since every search does. -/
theorem exists_renames (suffix : String) : ∀ (ts : List Term) (g : Given),
    ∃ g' us, Renames suffix g ts g' us
  | [], g => ⟨g, [], .nil g⟩
  | .var x :: ts, g => by
    cases hx : g.pairs.lookup x with
    | some y =>
      obtain ⟨g', us, hrest⟩ := exists_renames suffix ts g
      exact ⟨g', _, .known hx hrest⟩
    | none =>
      obtain ⟨g', us, hrest⟩ := exists_renames suffix ts _
      exact ⟨g', _, .new hx (seeks_iff.mpr rfl) hrest⟩
  | .app f args :: ts, g => by
    obtain ⟨g', args', hinner⟩ := exists_renames suffix args g
    obtain ⟨g'', us, hrest⟩ := exists_renames suffix ts g'
    exact ⟨g'', _, .app hinner hrest⟩
termination_by ts => Term.sizeList ts
decreasing_by
  all_goals
    simp only [Term.sizeList_cons, Term.size_var, Term.size_app]
    omega

/-! ## 3. What the walk comes to -/

namespace Given

variable {suffix x y : String} {xs : List String} {g : Given}

/-- The names after a variable has been met. -/
def meet (suffix : String) (g : Given) (x : String) : Given :=
  match g.pairs.lookup x with
  | some _ => g
  | .none =>
    let name := freshName (baseName x) g.taken
    ⟨g.pairs ++ [(x, name ++ suffix)], name :: g.taken⟩

/-- The names after variables have been met one after the other. -/
def meetAll (suffix : String) (g : Given) (xs : List String) : Given :=
  xs.foldl (meet suffix) g

theorem meet_of_known (h : g.pairs.lookup x = some y) : g.meet suffix x = g := by
  rw [meet, h]

theorem meet_of_new (h : g.pairs.lookup x = .none) :
    g.meet suffix x = ⟨g.pairs ++ [(x, freshName (baseName x) g.taken ++ suffix)],
      freshName (baseName x) g.taken :: g.taken⟩ := by
  rw [meet, h]

theorem meetAll_cons (g : Given) (x : String) (xs : List String) :
    g.meetAll suffix (x :: xs) = (g.meet suffix x).meetAll suffix xs := rfl

theorem meetAll_append (g : Given) (xs ys : List String) :
    g.meetAll suffix (xs ++ ys) = (g.meetAll suffix xs).meetAll suffix ys :=
  List.foldl_append

/-- A variable keeps the name that it was given. -/
theorem lookup_meetAll (h : g.pairs.lookup x = some y) :
    (g.meetAll suffix xs).pairs.lookup x = some y := by
  induction xs generalizing g with
  | nil => exact h
  | cons z zs ih =>
    refine ih ?_
    cases hz : g.pairs.lookup z with
    | some _ => rwa [meet_of_known hz]
    | none => rw [meet_of_new hz, List.lookup_append, h, Option.some_or]

/-- A variable that was met has a name. -/
theorem exists_lookup_meetAll (hx : x ∈ xs) :
    ∃ y, (g.meetAll suffix xs).pairs.lookup x = some y := by
  induction xs generalizing g with
  | nil => exact absurd hx List.not_mem_nil
  | cons z zs ih =>
    rw [meetAll_cons]
    rcases List.mem_cons.mp hx with rfl | hx
    · cases hl : g.pairs.lookup x with
      | some y => exact ⟨y, lookup_meetAll (by rwa [meet_of_known hl])⟩
      | none =>
        refine ⟨_, lookup_meetAll (y := freshName (baseName x) g.taken ++ suffix) ?_⟩
        rw [meet_of_new hl, List.lookup_append, hl, Option.none_or, List.lookup_cons_self]
    · exact ih hx

/-- The names given to variables that had none are those of `freshNames`. -/
theorem pairs_meetAll (suffix : String) : ∀ (xs : List String) (g : Given),
    (g.meetAll suffix xs).pairs =
      g.pairs ++ freshNames suffix (xs.eraseDups.filter fun x => (g.pairs.lookup x).isNone) g.taken
  | [], g => by simp [meetAll, freshNames]
  | x :: xs, g => by
    rw [meetAll_cons, pairs_meetAll suffix xs, List.eraseDups_cons, eraseDups_filter,
      List.filter_cons, List.filter_filter]
    cases hx : g.pairs.lookup x with
    | some y =>
      -- `x` itself is not among the variables without a name.
      rw [meet_of_known hx, if_neg (by simp)]
      congr 2
      refine List.filter_congr fun z _ => ?_
      by_cases hz : z = x
      · simp [hz, hx]
      · simp [hz]
    | none =>
      rw [meet_of_new hx, if_pos (by simp), freshNames, List.append_assoc, List.singleton_append]
      congr 3
      refine List.filter_congr fun z _ => ?_
      by_cases hz : z = x
      · simp [hz, List.lookup_append]
      · have hbeq : (z == x) = false := beq_eq_false_iff_ne.mpr hz
        simp [hbeq, List.lookup_append, List.lookup_cons]

end Given

/-- **What the walk comes to**: the variables are given names as they are met, and the terms are
renamed by all names that are given in the end. -/
theorem Renames.spec {suffix : String} {g g' : Given} {ts us : List Term}
    (h : Renames suffix g ts g' us) :
    g' = g.meetAll suffix (ts.flatMap Term.vars) ∧
      us = ts.map (Term.rename (Renaming.image ⟨g'.pairs⟩)) := by
  induction h with
  | nil g => exact ⟨rfl, rfl⟩
  | known hx _ ih =>
    obtain ⟨rfl, rfl⟩ := ih
    rw [List.flatMap_cons, Term.vars_var, List.singleton_append, Given.meetAll_cons,
      Given.meet_of_known hx]
    refine ⟨rfl, ?_⟩
    rw [List.map_cons, Term.rename_var, Renaming.image, Given.lookup_meetAll hx, Option.getD_some]
  | @new g g' x name ts us hx hsearch _ ih =>
    obtain ⟨hg, rfl⟩ := ih
    obtain rfl := seeks_iff.mp hsearch
    rw [List.flatMap_cons, Term.vars_var, List.singleton_append, Given.meetAll_cons,
      Given.meet_of_new hx]
    refine ⟨hg, ?_⟩
    have hname : g'.pairs.lookup x = some (freshName (baseName x) g.taken ++ suffix) := by
      rw [hg]
      refine Given.lookup_meetAll ?_
      rw [List.lookup_append, hx, Option.none_or, List.lookup_cons_self]
    rw [List.map_cons, Term.rename_var, Renaming.image, hname, Option.getD_some]
  | @app g g' g'' f args args' ts us _ _ ihinner ihrest =>
    obtain ⟨hg', rfl⟩ := ihinner
    obtain ⟨hg'', rfl⟩ := ihrest
    rw [List.flatMap_cons, Term.vars_app, Given.meetAll_append, ← hg']
    refine ⟨hg'', ?_⟩
    -- All variables of the arguments have names when the arguments have been walked.
    have hargs : ∀ t ∈ args, t.rename (Renaming.image ⟨g'.pairs⟩) =
        t.rename (Renaming.image ⟨g''.pairs⟩) := by
      intro t ht
      refine Term.subst_congr fun x hx => ?_
      have hmem : x ∈ args.flatMap Term.vars := List.mem_flatMap.mpr ⟨t, ht, hx⟩
      obtain ⟨y, hy⟩ : ∃ y, (g.meetAll suffix (args.flatMap Term.vars)).pairs.lookup x = some y :=
        Given.exists_lookup_meetAll hmem
      rw [← hg'] at hy
      rw [Renaming.image, Renaming.image, hy, hg'', Given.lookup_meetAll hy]
    rw [List.map_cons, Term.rename_app, List.map_congr_left hargs]

theorem Literal.eq_of_map_atom : ∀ {ls ms : List Literal}, ls.map atom = ms.map atom →
    ls.map negated = ms.map negated → ls = ms
  | [], [], _, _ => rfl
  | [], _ :: _, h, _ => by simp at h
  | _ :: _, [], h, _ => by simp at h
  | l :: ls, m :: ms, ha, hs => by
    rw [List.map_cons, List.map_cons, List.cons.injEq] at ha hs
    rw [ext_atom hs.1 ha.1, eq_of_map_atom ha.2 hs.2]

/-- **A walk through literals** ends, with the literals renamed by fresh names for their variables, and
with nothing else. -/
theorem renamesAll_iff {suffix : String} {ls ms : List Literal} :
    RenamesAll suffix ls ms ↔
      ms = ls.map (Literal.rename
        (Renaming.image ⟨freshNames suffix (ls.flatMap Literal.vars).eraseDups []⟩)) := by
  have hspec : ∀ {g us}, Renames suffix .start (ls.map Literal.atom) g us →
      us = (ls.map (Literal.rename (Renaming.image
        ⟨freshNames suffix (ls.flatMap Literal.vars).eraseDups []⟩))).map Literal.atom := by
    intro g us h
    obtain ⟨hg, rfl⟩ := h.spec
    have hvars : (ls.map Literal.atom).flatMap Term.vars = ls.flatMap Literal.vars := by
      rw [List.flatMap_map]
      exact List.flatMap_congr fun l _ => (Literal.vars_eq_vars_atom l).symm
    have hpairs : g.pairs = freshNames suffix (ls.flatMap Literal.vars).eraseDups [] := by
      rw [hg, Given.pairs_meetAll, hvars]
      simp [Given.start]
    rw [hpairs, List.map_map, List.map_map]
    exact List.map_congr_left fun l _ => (Literal.atom_subst _ l).symm
  constructor
  · rintro ⟨⟨g, hg⟩, hsigns⟩
    refine Literal.eq_of_map_atom (hspec hg) (hsigns.trans ?_)
    rw [List.map_map]
    rfl
  · rintro rfl
    obtain ⟨g, us, hwalk⟩ := exists_renames suffix (ls.map Literal.atom) .start
    refine ⟨⟨g, hspec hwalk ▸ hwalk⟩, ?_⟩
    rw [List.map_map]
    rfl

/-! ## 4. Injective renamings -/

namespace Clause

variable {suffix : String} {ρ : String → String} {c d : Clause}

/-- `d` is `c` under a renaming `ρ` that keeps variables apart and puts the suffix behind all names. -/
structure RenamedApart (suffix : String) (ρ : String → String) (c d : Clause) : Prop where
  image : d = c.rename ρ
  injective : ∀ x ∈ c.vars, ∀ y ∈ c.vars, ρ x = ρ y → x = y
  /-- Before the suffix stands the base of the old name, or the base and a number. -/
  suffixed : ∀ x ∈ c.vars, ∃ name, ρ x = name ++ suffix ∧
    (name = baseName x ∨ ∃ n : Nat, name = baseName x ++ toString (n + 1))
  /-- Where the names of variables are left out, each literal is what it was. -/
  names_only : ∀ l ∈ c, (l.rename ρ).rename (fun _ => "") = l.rename fun _ => ""
  size_eq : d.size = c.size
  /-- The old names can be put back. -/
  undone : ∃ τ : String → String, (∀ x ∈ c.vars, τ (ρ x) = x) ∧ d.rename τ = c

/-- A renaming that keeps variables apart merges no literals, and can be undone. -/
theorem renamedApart_of_injective (hinj : ∀ x ∈ c.vars, ∀ y ∈ c.vars, ρ x = ρ y → x = y)
    (hsuffix : ∀ x ∈ c.vars, ∃ name, ρ x = name ++ suffix ∧
      (name = baseName x ∨ ∃ n : Nat, name = baseName x ++ toString (n + 1))) :
    RenamedApart suffix ρ c (c.rename ρ) := by
  obtain ⟨τ, hτ⟩ := exists_inverse hinj
  have hback := rename_inverse hτ
  refine ⟨rfl, hinj, hsuffix, fun l _ => Literal.rename_rename _ _ l, ?_, τ, hτ, hback⟩
  refine Nat.le_antisymm (size_rename_le ρ c) ?_
  calc c.size = ((c.rename ρ).rename τ).size := by rw [hback]
    _ ≤ (c.rename ρ).size := size_rename_le τ _

end Clause

/-- What `freshNames` puts before the suffix. -/
theorem mem_freshNames_base {suffix : String} : ∀ {xs taken : List String} {p : String × String},
    p ∈ freshNames suffix xs taken → ∃ name, p.2 = name ++ suffix ∧
      (name = baseName p.1 ∨ ∃ n : Nat, name = baseName p.1 ++ toString (n + 1))
  | x :: xs, taken, p, h => by
    rcases List.mem_cons.mp h with rfl | h
    · exact ⟨_, rfl, freshName_cases _ _⟩
    · exact mem_freshNames_base h

open Clause

/-- Fresh names for the variables of a clause, in whatever order, rename it apart. -/
theorem renamedApart_freshNames {suffix : String} {xs : List String} {c : Clause}
    (h : ∀ x ∈ c.vars, x ∈ xs) :
    RenamedApart suffix (Renaming.image ⟨freshNames suffix xs []⟩) c
      (c.rename (Renaming.image ⟨freshNames suffix xs []⟩)) := by
  have hpair : ∀ x ∈ c.vars, (x, Renaming.image ⟨freshNames suffix xs []⟩ x) ∈
      freshNames suffix xs [] := fun x hx =>
    Renaming.mem_pairs_image (ρ := ⟨freshNames suffix xs []⟩)
      (by rw [map_fst_freshNames]; exact h x hx)
  refine renamedApart_of_injective ?_ fun x hx => mem_freshNames_base (hpair x hx)
  intro x hx y hy he
  exact congrArg Prod.fst (List.inj_on_of_nodup_map (nodup_map_snd_freshNames suffix xs [])
    (hpair x hx) (hpair y hy) he)

/-- **To standardise apart is to rename injectively.**  Whatever the names of its variables and whatever
the suffix, the walk through a clause ends, with one result only: the image of the clause under a
renaming that keeps its variables apart, gives each of them a name that ends in the suffix, and
changes nothing but names; so no literals merge, and the old names can be put back.  This holds of the
order in which a clause is kept, where the result is the clause standardised apart, and of any other
order in which its literals may be walked. -/
theorem standardising_apart_is_injective (suffix : String) (c : Clause) :
    (∃ ρ, (∀ ms, RenamesAll suffix c.literals ms ↔ ms = c.literals.map (Literal.rename ρ)) ∧
      RenamedApart suffix ρ c (c.apart suffix)) ∧
    ∀ ls : List Literal, (∀ l, l ∈ ls ↔ l ∈ c) →
      ∃ ρ, (∀ ms, RenamesAll suffix ls ms ↔ ms = ls.map (Literal.rename ρ)) ∧
        RenamedApart suffix ρ c (ofList (ls.map (Literal.rename ρ))) := by
  constructor
  · exact ⟨_, fun ms => renamesAll_iff, renamedApart_freshNames fun x hx =>
      List.mem_eraseDups.mpr hx⟩
  · intro ls hls
    refine ⟨_, fun ms => renamesAll_iff, ?_⟩
    have himage : ∀ ρ : String → String, ofList (ls.map (Literal.rename ρ)) = c.rename ρ := by
      intro ρ
      refine ofList_congr fun l => ?_
      simp only [List.mem_map, hls]
      rfl
    rw [himage]
    refine renamedApart_freshNames fun x hx => ?_
    obtain ⟨l, hl, hx⟩ := mem_vars.mp hx
    exact List.mem_eraseDups.mpr (List.mem_flatMap.mpr ⟨l, (hls l).mpr hl, hx⟩)

/-- Variables that have their base in common, or get it in common by a number. -/
def competingNames : Clause :=
  .ofList [⟨false, "P", [.var "x_0", .var "x_3", .app "f" [.var "x1_2"], .var "x_0", .var "x11"]⟩,
    ⟨true, "Q", [.var "_5", .var "x_3\n"]⟩]

/-- The clause becomes `!Q([_7], [x\n_7]) | P([x_7], [x1_7], f([x11_7]), [x_7], [x111_7])`.  It is also
renamed apart where its literals are walked from the last one to the first. -/
theorem competingNames_are_kept_apart :
    (competingNames.apart "_7").vars = ["_7", "x\n_7", "x_7", "x1_7", "x11_7", "x_7", "x111_7"] ∧
    (∃ ρ, RenamesAll "_7" competingNames.literals (competingNames.literals.map (Literal.rename ρ)) ∧
      RenamedApart "_7" ρ competingNames (competingNames.apart "_7")) ∧
    ∃ ρ, RenamedApart "_7" ρ competingNames
      (ofList (competingNames.literals.reverse.map (Literal.rename ρ))) := by
  obtain ⟨⟨ρ, hwalk, hapart⟩, hany⟩ := standardising_apart_is_injective "_7" competingNames
  obtain ⟨τ, -, hback⟩ := hany competingNames.literals.reverse fun _ => List.mem_reverse
  exact ⟨by decide +kernel, ⟨ρ, (hwalk _).mpr rfl, hapart⟩, τ, hback⟩

end Clausal

/-
# Plain names

A name is *plain* if it is made of ASCII letters, digits and underscores; it may be empty.  None of
these characters is a bracket, a comma, a blank or an exclamation mark, so a plain name ends where
the first of those stands.  Hence a term with plain names, and what is written after it, can be read
off the text (`Term.text_append_injective`), and literals with plain names are equal as soon as they
are written alike (`Literal.text_injective`).

The names that inference and renaming bring in are made of names that were there before, of digits
and of underscores.  So plain names stay plain under the unifier of plain terms
(`Term.plain_of_unify?`) and under the renaming with which a clause is stored
(`isPlain_of_mem_freshNames`).
-/
import Clausal.Proofs.Grammar
import Clausal.Proofs.Renaming
import Clausal.Proofs.Unification

namespace Clausal

/-! ## 1. Characters and names -/

/-- Whether a character may stand in a plain name. -/
def isPlainChar (c : Char) : Bool :=
  Token.isNameChar c || c == '_'

/-- Whether a name has ASCII letters, digits and underscores only. -/
def IsPlain (s : String) : Prop :=
  ∀ c ∈ s.toList, isPlainChar c = true

instance (s : String) : Decidable (IsPlain s) :=
  decidable_of_iff (s.toList.all isPlainChar = true) List.all_eq_true

theorem IsName.isPlain {s : String} (h : IsName s) : IsPlain s := by
  intro c hc
  rw [isPlainChar, h.2 c hc, Bool.true_or]

theorem IsPlain.append {s t : String} (hs : IsPlain s) (ht : IsPlain t) : IsPlain (s ++ t) := by
  intro c hc
  rw [String.toList_append] at hc
  exact (List.mem_append.mp hc).elim (hs c) (ht c)

theorem isDigit_of_mem_toString {n : Nat} {c : Char} (h : c ∈ (toString n).toList) :
    c.isDigit = true := by
  rw [Nat.toString_eq_ofList_toDigits, String.toList_ofList] at h
  exact Nat.isDigit_of_mem_toDigits (by decide) (by decide) h

theorem isPlain_toString (n : Nat) : IsPlain (toString n) := by
  intro c hc
  simp [isPlainChar, Token.isNameChar, Char.isAlphanum, isDigit_of_mem_toString hc]

/-- The suffix with the number of a clause is plain. -/
theorem isPlain_suffix (n : Nat) : IsPlain ("_" ++ toString n) :=
  IsPlain.append (by decide) (isPlain_toString n)

/-- Two runs of plain characters that end at the same place of a text are equal. -/
theorem append_cons_injective_of_plain {a b : Char} (ha : isPlainChar a = false)
    (hb : isPlainChar b = false) : ∀ {u v r r' : List Char},
    (∀ c ∈ u, isPlainChar c = true) → (∀ c ∈ v, isPlainChar c = true) →
    u ++ a :: r = v ++ b :: r' → u = v ∧ a = b ∧ r = r'
  | [], [], _, _, _, _, h => by simpa using h
  | [], y :: ys, _, _, _, hy, h => by
    rw [List.nil_append, List.cons_append, List.cons.injEq] at h
    rw [h.1, hy y List.mem_cons_self] at ha
    exact absurd ha (by decide)
  | x :: xs, [], _, _, hx, _, h => by
    rw [List.nil_append, List.cons_append, List.cons.injEq] at h
    rw [← h.1, hx x List.mem_cons_self] at hb
    exact absurd hb (by decide)
  | x :: xs, y :: ys, _, _, hx, hy, h => by
    rw [List.cons_append, List.cons_append, List.cons.injEq] at h
    obtain ⟨rfl, hab⟩ := append_cons_injective_of_plain ha hb
      (fun c hc => hx c (List.mem_cons_of_mem _ hc))
      (fun c hc => hy c (List.mem_cons_of_mem _ hc)) h.2
    exact ⟨by rw [h.1], hab⟩

/-! ## 2. Names made from plain names -/

theorem mem_of_dropNumber? {reversed rest : List Char} (h : dropNumber? reversed = some rest)
    {c : Char} (hc : c ∈ rest) : c ∈ reversed := by
  unfold dropNumber? at h
  split at h
  · rename_i hdrop
    obtain rfl := Option.some.inj h
    refine (List.dropWhile_suffix Text.isDigit).subset ?_
    rw [hdrop]
    exact List.mem_cons_of_mem _ hc
  · simp at h

/-- The base of a name has no character that the name has not. -/
theorem mem_of_mem_baseName {name : String} {c : Char} (hc : c ∈ (baseName name).toList) :
    c ∈ name.toList := by
  unfold baseName at hc
  split at hc
  · rename_i reversed hrev
    split at hc
    · rename_i rest hdrop
      rw [String.toList_ofList, List.mem_reverse, List.mem_cons] at hc
      rw [← List.mem_reverse, hrev, List.mem_cons]
      exact hc.imp_right (mem_of_dropNumber? hdrop)
    · exact hc
  · split at hc
    · rename_i rest hdrop
      rw [String.toList_ofList, List.mem_reverse] at hc
      exact List.mem_reverse.mp (mem_of_dropNumber? hdrop hc)
    · exact hc

theorem IsPlain.freshName {base : String} (h : IsPlain base) (taken : List String) :
    IsPlain (freshName base taken) := by
  rcases freshName_cases base taken with he | ⟨n, he⟩
  · rwa [he]
  · rw [he]
    exact h.append (isPlain_toString _)

/-- **New names are plain** where the old names and the suffix are. -/
theorem isPlain_of_mem_freshNames {suffix : String} (hs : IsPlain suffix) :
    ∀ {xs taken : List String}, (∀ x ∈ xs, IsPlain x) → ∀ {p : String × String},
    p ∈ freshNames suffix xs taken → IsPlain p.2
  | x :: xs, taken, hx, p, h => by
    simp only [freshNames, List.mem_cons] at h
    rcases h with rfl | h
    · have hbase : IsPlain (baseName x) := fun c hc =>
        hx x List.mem_cons_self c (mem_of_mem_baseName hc)
      exact (hbase.freshName taken).append hs
    · exact isPlain_of_mem_freshNames hs (fun y hy => hx y (List.mem_cons_of_mem _ hy)) h

/-! ## 3. Terms with plain names -/

namespace Term

variable {s t u : Term} {θ : String → Term} {x : String}

/-- Whether all names of a term are plain. -/
def Plain (t : Term) : Prop :=
  ∀ n ∈ t.names, IsPlain n

instance (t : Term) : Decidable t.Plain :=
  inferInstanceAs (Decidable (∀ n ∈ t.names, IsPlain n))

@[simp] theorem plain_var : (var x).Plain ↔ IsPlain x := by
  simp [Plain]

@[simp] theorem plain_app {f : String} {ts : List Term} :
    (app f ts).Plain ↔ IsPlain f ∧ ∀ t ∈ ts, t.Plain := by
  rw [Plain, names_app, List.forall_mem_cons, List.forall_mem_flatMap]
  rfl

theorem WellNamed.plain (h : t.WellNamed) : t.Plain :=
  fun n hn => (h n hn).isPlain

/-- The variables of a plain term have plain names. -/
theorem Plain.isPlain (h : t.Plain) (hx : x ∈ t.vars) : IsPlain x := by
  induction t with
  | var y =>
    rw [List.mem_singleton.mp hx]
    exact plain_var.mp h
  | app f ts ih =>
    rw [vars_app] at hx
    obtain ⟨t, ht, hx⟩ := List.mem_flatMap.mp hx
    exact ih t ht ((plain_app.mp h).2 t ht) hx

theorem Plain.subst (h : t.Plain) (hθ : ∀ x ∈ t.vars, (θ x).Plain) : (t.subst θ).Plain := by
  induction t with
  | var x => exact hθ x List.mem_cons_self
  | app f ts ih =>
    rw [plain_app] at h
    rw [subst_app, plain_app]
    refine ⟨h.1, fun u hu => ?_⟩
    obtain ⟨t, ht, rfl⟩ := List.mem_map.mp hu
    exact ih t ht (h.2 t ht) fun x hx =>
      hθ x (vars_app f ts ▸ List.mem_flatMap.mpr ⟨t, ht, hx⟩)

theorem Plain.replace (h : t.Plain) (x : String) (hu : u.Plain) : (t.replace x u).Plain := by
  refine h.subst fun y hy => ?_
  split
  · exact hu
  · exact plain_var.mpr (h.isPlain hy)

end Term

/-! ## 4. Unifiers of plain terms -/

namespace Equation

variable {queue : List Equation} {made σ : Substitution}

/-- Whether both sides have plain names. -/
def Plain (e : Equation) : Prop :=
  e.lhs.Plain ∧ e.rhs.Plain

theorem Plain.split {e : Equation} {eqs : List Equation} (h : e.Plain)
    (hred : e.reduce = .split eqs) : ∀ e' ∈ eqs, e'.Plain := by
  rcases reduce_eq_split hred with ⟨-, rfl⟩ | ⟨f, ss, ts, rfl, -, rfl⟩
  · exact fun _ he' => absurd he' List.not_mem_nil
  · intro e' he'
    rw [← List.map_uncurry_zip_eq_zipWith] at he'
    obtain ⟨p, hp, rfl⟩ := List.mem_map.mp he'
    exact ⟨(Term.plain_app.mp h.1).2 _ (List.of_mem_zip hp).1,
      (Term.plain_app.mp h.2).2 _ (List.of_mem_zip hp).2⟩

theorem Plain.bind {e : Equation} {x : String} {t : Term} (h : e.Plain)
    (hred : e.reduce = .bind x t) : t.Plain := by
  rcases (reduce_eq_bind hred).1 with rfl | rfl
  · exact h.2
  · exact h.1

/-- A queue of plain equations gives plain images, if the bindings made so far do. -/
theorem plain_image_of_solve (hqueue : ∀ e ∈ queue, e.Plain)
    (hmade : ∀ x, IsPlain x → (made.image x).Plain) (h : solve queue made = some σ) :
    ∀ x, IsPlain x → (σ.image x).Plain := by
  fun_induction solve queue made with
  | case1 made =>
    obtain rfl := Option.some.inj h
    exact hmade
  | case2 => simp at h
  | case3 made e rest eqs hred ih =>
    rw [List.forall_mem_cons] at hqueue
    exact ih (List.forall_mem_append.mpr ⟨hqueue.2, hqueue.1.split hred⟩) hmade h
  | case4 made e rest x t hred ih =>
    rw [List.forall_mem_cons] at hqueue
    have ht : t.Plain := hqueue.1.bind hred
    refine ih (fun e' he' => ?_) (fun y hy => ?_) h
    · obtain ⟨e, he, rfl⟩ := List.mem_map.mp he'
      exact ⟨(hqueue.2 e he).1.replace x ht, (hqueue.2 e he).2.replace x ht⟩
    · rw [Substitution.image_record]
      exact (hmade y hy).replace x ht

end Equation

/-- **The unifier of plain terms has plain images.** -/
theorem Term.plain_of_unify? {s t : Term} {σ : Substitution} (hs : s.Plain) (ht : t.Plain)
    (h : s.unify? t = some σ) {x : String} (hx : IsPlain x) : (σ.image x).Plain := by
  refine Equation.plain_image_of_solve (fun e he => ?_) (fun y hy => ?_) h x hx
  · rw [List.mem_singleton.mp he]
    exact ⟨hs, ht⟩
  · exact plain_var.mpr hy

/-! ## 5. Reading a term off its text -/

namespace Term

variable {t : Term}

theorem text_var_append (x : String) (r : List Char) :
    (var x).text.toList ++ r = '[' :: (x.toList ++ ']' :: r) := by
  simp

/-- The characters of an application: each argument but the first follows a comma and a blank. -/
theorem text_app_append (f : String) (ts : List Term) (r : List Char) :
    (app f ts).text.toList ++ r =
      f.toList ++ '(' :: ([',', ' '].intercalate (ts.map fun t => t.text.toList) ++ ')' :: r) := by
  simp [String.toList_intercalate, Function.comp_def]

/-- No plain term is written with an exclamation mark or a closing bracket in front. -/
theorem Plain.text_append_ne (h : t.Plain) {c : Char} (hc : isPlainChar c = false) (hv : c ≠ '[')
    (hp : c ≠ '(') (r r' : List Char) : t.text.toList ++ r ≠ c :: r' := by
  intro he
  cases t with
  | var x =>
    rw [text_var_append, List.cons.injEq] at he
    exact hv he.1.symm
  | app f ts =>
    rw [text_app_append] at he
    -- The name of the functor ends at the parenthesis, and not at the other character.
    obtain ⟨-, hchar, -⟩ := append_cons_injective_of_plain (a := '(') (b := c) (v := [])
      (by decide) hc (plain_app.mp h).1 (by simp) he
    exact hp hchar.symm

/-- Argument lists can be told apart by what is written after the first argument. -/
theorem flatMap_text_injective : ∀ {ss ts : List Term} {r r' : List Char},
    (∀ s ∈ ss, ∀ t q q', t.Plain → s.text.toList ++ q = t.text.toList ++ q' → s = t ∧ q = q') →
    (∀ t ∈ ts, t.Plain) →
    ss.flatMap (fun t => [',', ' '] ++ t.text.toList) ++ ')' :: r =
      ts.flatMap (fun t => [',', ' '] ++ t.text.toList) ++ ')' :: r' → ss = ts ∧ r = r'
  | [], [], _, _, _, _, h => by simpa using h
  | [], t :: ts, _, _, _, _, h => by simp at h
  | s :: ss, [], _, _, _, _, h => by simp at h
  | s :: ss, t :: ts, _, _, ih, ht, h => by
    simp only [List.flatMap_cons, List.cons_append, List.nil_append, List.append_assoc,
      List.cons.injEq, true_and] at h
    obtain ⟨rfl, hrest⟩ := ih s List.mem_cons_self t _ _ (ht t List.mem_cons_self) h
    obtain ⟨rfl, hr⟩ := flatMap_text_injective (fun u hu => ih u (List.mem_cons_of_mem _ hu))
      (fun u hu => ht u (List.mem_cons_of_mem _ hu)) hrest
    exact ⟨rfl, hr⟩

/-- Argument lists can be told apart by their texts, if their members can. -/
theorem intercalate_text_injective {ss ts : List Term} {r r' : List Char}
    (ih : ∀ s ∈ ss, ∀ t q q', t.Plain → s.text.toList ++ q = t.text.toList ++ q' →
      s = t ∧ q = q')
    (hs : ∀ s ∈ ss, s.Plain) (ht : ∀ t ∈ ts, t.Plain)
    (h : [',', ' '].intercalate (ss.map fun t => t.text.toList) ++ ')' :: r =
      [',', ' '].intercalate (ts.map fun t => t.text.toList) ++ ')' :: r') : ss = ts ∧ r = r' := by
  cases ss with
  | nil =>
    cases ts with
    | nil => simpa using h
    | cons t ts =>
      rw [List.map_cons, intercalate_cons, List.append_assoc] at h
      exact absurd h.symm ((ht t List.mem_cons_self).text_append_ne (by decide) (by decide)
        (by decide) _ _)
  | cons s ss =>
    cases ts with
    | nil =>
      rw [List.map_cons, intercalate_cons, List.append_assoc] at h
      exact absurd h ((hs s List.mem_cons_self).text_append_ne (by decide) (by decide)
        (by decide) _ _)
    | cons t ts =>
      simp only [List.map_cons, intercalate_cons, List.append_assoc, List.flatMap_map] at h
      obtain ⟨rfl, hrest⟩ := ih s List.mem_cons_self t _ _ (ht t List.mem_cons_self) h
      obtain ⟨rfl, hr⟩ := flatMap_text_injective (fun u hu => ih u (List.mem_cons_of_mem _ hu))
        (fun u hu => ht u (List.mem_cons_of_mem _ hu)) hrest
      exact ⟨rfl, hr⟩

/-- **A plain term and what follows it can be read off the text.** -/
theorem text_append_injective (s : Term) : s.Plain → ∀ (t : Term) (r r' : List Char), t.Plain →
    s.text.toList ++ r = t.text.toList ++ r' → s = t ∧ r = r' := by
  induction s with
  | var x =>
    intro hs t r r' ht h
    rw [text_var_append] at h
    cases t with
    | var y =>
      rw [text_var_append, List.cons.injEq] at h
      obtain ⟨hxy, -, hr⟩ := append_cons_injective_of_plain (a := ']') (b := ']') (by decide)
        (by decide) (plain_var.mp hs) (plain_var.mp ht) h.2
      exact ⟨by rw [String.toList_inj.mp hxy], hr⟩
    | app g ts =>
      rw [text_app_append] at h
      -- A bracket ends the empty name on the left, and a parenthesis a name on the right.
      obtain ⟨-, hchar, -⟩ := append_cons_injective_of_plain (a := '[') (b := '(') (u := [])
        (by decide) (by decide) (by simp) (plain_app.mp ht).1 h
      exact absurd hchar (by decide)
  | app f ss ih =>
    intro hs t r r' ht h
    rw [plain_app] at hs
    rw [text_app_append] at h
    cases t with
    | var y =>
      rw [text_var_append] at h
      obtain ⟨-, hchar, -⟩ := append_cons_injective_of_plain (a := '(') (b := '[') (v := [])
        (by decide) (by decide) hs.1 (by simp) h
      exact absurd hchar (by decide)
    | app g ts =>
      rw [plain_app] at ht
      rw [text_app_append] at h
      obtain ⟨hfg, -, hargs⟩ := append_cons_injective_of_plain (a := '(') (b := '(') (by decide)
        (by decide) hs.1 ht.1 h
      obtain ⟨rfl, hr⟩ := intercalate_text_injective (fun s hss => ih s hss (hs.2 s hss)) hs.2 ht.2
        hargs
      exact ⟨by rw [String.toList_inj.mp hfg], hr⟩

end Term

/-! ## 6. Literals with plain names -/

namespace Literal

variable {l m : Literal} {θ : String → Term}

/-- Whether all names of a literal are plain. -/
def Plain (l : Literal) : Prop :=
  l.atom.Plain

instance (l : Literal) : Decidable l.Plain :=
  inferInstanceAs (Decidable l.atom.Plain)

theorem WellNamed.plain (h : l.WellNamed) : l.Plain :=
  Term.WellNamed.plain h

theorem Plain.isPlain (h : l.Plain) {x : String} (hx : x ∈ l.vars) : IsPlain x :=
  Term.Plain.isPlain h (vars_eq_vars_atom l ▸ hx)

theorem Plain.subst (h : l.Plain) (hθ : ∀ x ∈ l.vars, (θ x).Plain) : (l.subst θ).Plain := by
  rw [Plain, atom_subst]
  exact Term.Plain.subst h fun x hx => hθ x (vars_eq_vars_atom l ▸ hx)

theorem Plain.rename (h : l.Plain) {ρ : String → String} (hρ : ∀ x ∈ l.vars, IsPlain (ρ x)) :
    (l.rename ρ).Plain :=
  Plain.subst h fun x hx => Term.plain_var.mpr (hρ x hx)

/-- The unifier of two plain literals keeps plain literals plain. -/
theorem Plain.apply {k : Literal} {σ : Substitution} (hk : k.Plain) (hl : l.Plain) (hm : m.Plain)
    (h : l.unify? m = some σ) : (k.apply σ).Plain :=
  hk.subst fun _ hx => Term.plain_of_unify? hl hm h (hk.isPlain hx)

/-- **Plain literals that are written alike are equal.** -/
theorem text_injective (hl : l.Plain) (hm : m.Plain) (h : l.text = m.text) : l = m := by
  have hbang : ∀ {k : Literal}, k.Plain → ∀ r, k.atom.text.toList ≠ '!' :: r := fun hk r => by
    simpa using Term.Plain.text_append_ne hk (c := '!') (by decide) (by decide) (by decide) [] r
  have hatom : l.atom.text = m.atom.text → l.atom = m.atom := fun he =>
    (Term.text_append_injective l.atom hl m.atom [] [] hm (by rw [he])).1
  have hchars := congrArg String.toList h
  rw [text, text, String.toList_append, String.toList_append] at hchars
  cases hln : l.negated <;> cases hmn : m.negated <;>
    simp only [hln, hmn, if_true, Bool.false_eq_true, if_false, String.toList_empty,
      List.nil_append] at hchars
  · exact ext_atom (hln.trans hmn.symm) (hatom (String.toList_inj.mp hchars))
  · exact absurd hchars (hbang hl _)
  · exact absurd hchars.symm (hbang hm _)
  · exact ext_atom (hln.trans hmn.symm)
      (hatom (String.toList_inj.mp (List.append_cancel_left hchars)))

end Literal

end Clausal

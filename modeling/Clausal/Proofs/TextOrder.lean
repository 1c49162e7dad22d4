/-
# The order of texts under a renaming

Literals of equal sign and shape are told apart by their texts, and a renaming changes the texts.  Such
literals differ in variables only, so what decides is the first variable in which they differ
(`Term.alike_of_frame`).  Two different names are compared at the first character in which they
differ, unless one of them begins with the other one.  Then what stands behind the shorter one is
compared with a character of the longer one: the closing bracket of a variable, or the underscore
before a number.

The bracket and the underscore both come after the digits and the capital letters and before the small
letters (`samePlace_of_between`).  So names of letters and digits have the same order whether
a number stands behind them or not, and whatever the number is (`compare_append_mark`).
-/
import Clausal.Proofs.Copies
import Clausal.Proofs.PlainNames

namespace Clausal

/-! ## 1. Texts as lists of characters -/

theorem lt_iff_compare : ∀ {as bs : List Char}, as < bs ↔ compare as bs = .lt
  | [], [] => by simp
  | [], b :: bs => by simp
  | a :: as, [] => by simp
  | a :: as, b :: bs => by
    have hlt : compare a b = .lt ↔ a < b := compareOfLessAndEq_eq_lt
    rw [List.cons_lt_cons_iff, lt_iff_compare, List.compare_eq_compareLex,
      List.compareLex_cons_cons, Ordering.then_eq_lt, hlt, Std.compare_eq_iff_eq]

/-- Texts are compared character by character. -/
theorem compare_toList (s t : String) : compare s t = compare s.toList t.toList := by
  have hlt : s < t ↔ compare s.toList t.toList = .lt := String.lt_iff.trans lt_iff_compare
  have heq : s = t ↔ compare s.toList t.toList = .eq := by
    rw [Std.compare_eq_iff_eq, String.toList_inj]
  have hcompare : compare s t = if s < t then .lt else if s = t then .eq else .gt := rfl
  simp only [hcompare, hlt, heq]
  cases compare s.toList t.toList <;> rfl

theorem compare_cons_self (a : Char) (r r' : List Char) :
    compare (a :: r) (a :: r') = compare r r' := by
  rw [List.compare_eq_compareLex, List.compareLex_cons_cons, Std.ReflOrd.compare_self]
  rfl

theorem compare_cons_of_ne {a b : Char} (h : compare a b ≠ .eq) (r r' : List Char) :
    compare (a :: r) (b :: r') = compare a b := by
  rw [List.compare_eq_compareLex, List.compareLex_cons_cons]
  cases hc : compare a b with
  | eq => exact absurd hc h
  | lt => rfl
  | gt => rfl

/-- What two texts begin with in common does not matter. -/
theorem compare_append_left (u r r' : List Char) : compare (u ++ r) (u ++ r') = compare r r' := by
  induction u with
  | nil => rfl
  | cons a u ih => rw [List.cons_append, List.cons_append, compare_cons_self, ih]

/-! ## 2. Names with a mark behind them -/

/-- Whether two characters have the same place among the letters and digits, and are none of them. -/
def SamePlace (a b : Char) : Prop :=
  ∀ c, Token.isNameChar c = true → compare c a ≠ .eq ∧ compare c a = compare c b

theorem compare_toNat (a b : Char) : compare a b = compare a.toNat b.toNat := by
  have hchar : compare a b = if a < b then .lt else if a = b then .eq else .gt := rfl
  have hlt : a < b ↔ a.toNat < b.toNat := Iff.rfl
  simp only [hchar, hlt, ← Char.toNat_inj]
  rfl

/-- Marks that stand between the capital and the small letters, as the bracket and the underscore do,
have the same place. -/
theorem samePlace_of_between {a b : Char} (ha : 90 < a.toNat ∧ a.toNat < 97)
    (hb : 90 < b.toNat ∧ b.toNat < 97) : SamePlace a b := by
  intro c hc
  have hrange := Token.toNat_of_isNameChar hc
  rw [compare_toNat, compare_toNat]
  rcases Nat.lt_or_ge c.toNat 97 with hlt | hge
  · have ha' : compare c.toNat a.toNat = .lt := Nat.compare_eq_lt.mpr (by omega)
    have hb' : compare c.toNat b.toNat = .lt := Nat.compare_eq_lt.mpr (by omega)
    rw [ha', hb']
    exact ⟨by decide, rfl⟩
  · have ha' : compare c.toNat a.toNat = .gt := Nat.compare_eq_gt.mpr (by omega)
    have hb' : compare c.toNat b.toNat = .gt := Nat.compare_eq_gt.mpr (by omega)
    rw [ha', hb']
    exact ⟨by decide, rfl⟩

/-- **Names are told apart before what follows them**, and the mark behind them may be replaced by one
that has the same place. -/
theorem compare_append_mark {a b : Char} (h : SamePlace a b) : ∀ {u v : List Char},
    (∀ c ∈ u, Token.isNameChar c = true) → (∀ c ∈ v, Token.isNameChar c = true) → u ≠ v →
    ∀ r r' q q', compare (u ++ a :: r) (v ++ a :: r') = compare (u ++ b :: q) (v ++ b :: q')
  | [], [], _, _, hne, _, _, _, _ => absurd rfl hne
  | [], y :: v, _, hv, _, r, r', q, q' => by
    obtain ⟨hne, heq⟩ := h y (hv y List.mem_cons_self)
    have hswap : ∀ e, compare e y = (compare y e).swap := fun _ => Std.OrientedCmp.eq_swap
    have hne' : ∀ e, compare y e ≠ .eq → compare e y ≠ .eq := fun e he => by
      rwa [hswap, ne_eq, Ordering.swap_eq_eq]
    simp only [List.nil_append, List.cons_append]
    rw [compare_cons_of_ne (hne' a hne), compare_cons_of_ne (hne' b (heq ▸ hne)), hswap a, hswap b,
      heq]
  | x :: u, [], hu, _, _, r, r', q, q' => by
    obtain ⟨hne, heq⟩ := h x (hu x List.mem_cons_self)
    simp only [List.nil_append, List.cons_append]
    rw [compare_cons_of_ne hne, compare_cons_of_ne (heq ▸ hne), heq]
  | x :: u, y :: v, hu, hv, hne, r, r', q, q' => by
    simp only [List.cons_append]
    by_cases hxy : x = y
    · subst hxy
      rw [compare_cons_self, compare_cons_self]
      exact compare_append_mark h (fun c hc => hu c (List.mem_cons_of_mem _ hc))
        (fun c hc => hv c (List.mem_cons_of_mem _ hc)) (fun he => hne (by rw [he])) r r' q q'
    · have hxy' : compare x y ≠ .eq := fun he => hxy (Std.LawfulEqOrd.eq_of_compare he)
      rw [compare_cons_of_ne hxy', compare_cons_of_ne hxy']

/-! ## 3. Terms of the same shape -/

/-- Whether different variables are told apart in the same way under two renamings, whatever is
written behind them. -/
def SameOrder (ρ τ : String → String) (xs : List String) : Prop :=
  ∀ x ∈ xs, ∀ y ∈ xs, x ≠ y → ∀ r r' q q',
    compare ((ρ x).toList ++ ']' :: r) ((ρ y).toList ++ ']' :: r') =
      compare ((τ x).toList ++ ']' :: q) ((τ y).toList ++ ']' :: q')

theorem forall₂_of_map_eq {α β γ : Type} {f : α → γ} {g : β → γ} {R : α → β → Prop} :
    ∀ {as : List α} {bs : List β}, (∀ a ∈ as, ∀ b ∈ bs, f a = g b → R a b) →
      as.map f = bs.map g → List.Forall₂ R as bs
  | [], [], _, _ => .nil
  | [], _ :: _, _, h => by simp at h
  | _ :: _, [], _, h => by simp at h
  | a :: as, b :: bs, hR, h => by
    rw [List.map_cons, List.map_cons, List.cons.injEq] at h
    exact .cons (hR a List.mem_cons_self b List.mem_cons_self h.1) (forall₂_of_map_eq
      (fun x hx y hy => hR x (List.mem_cons_of_mem _ hx) y (List.mem_cons_of_mem _ hy)) h.2)

namespace Term

variable {ρ τ : String → String} {xs : List String} {s t : Term}

/-- The term without the names of its variables. -/
def frame (t : Term) : Term :=
  t.rename fun _ => ""

/-- Whether two terms are compared alike under two renamings, if what follows them is. -/
def Alike (ρ τ : String → String) (s t : Term) : Prop :=
  ∀ {r r' q q' : List Char}, compare r r' = compare q q' →
    compare ((s.rename ρ).text.toList ++ r) ((t.rename ρ).text.toList ++ r') =
      compare ((s.rename τ).text.toList ++ q) ((t.rename τ).text.toList ++ q')

/-- The characters of renamed arguments that follow another argument. -/
def textBehind (ρ : String → String) (ts : List Term) : List Char :=
  ts.flatMap fun t => [',', ' '] ++ (t.rename ρ).text.toList

theorem compare_textBehind {ss ts : List Term} (h : List.Forall₂ (Alike ρ τ) ss ts)
    {r r' q q' : List Char} (hrest : compare r r' = compare q q') :
    compare (textBehind ρ ss ++ r) (textBehind ρ ts ++ r') =
      compare (textBehind τ ss ++ q) (textBehind τ ts ++ q') := by
  induction h with
  | nil => exact hrest
  | cons hst _ ih =>
    simp only [textBehind, List.flatMap_cons, List.append_assoc, compare_append_left] at ih ⊢
    exact hst ih

theorem text_rename_app_append (ρ : String → String) (f : String) (t : Term) (ts : List Term)
    (r : List Char) : ((app f (t :: ts)).rename ρ).text.toList ++ r =
      f.toList ++ ['('] ++ ((t.rename ρ).text.toList ++ (textBehind ρ ts ++ ')' :: r)) := by
  rw [rename_app, text_app_append, List.map_cons, List.map_cons, intercalate_cons, textBehind,
    List.map_map, List.flatMap_map]
  simp

/-- **Terms that differ in variables only** are compared alike under renamings that tell variables
apart in the same way. -/
theorem alike_of_frame (h : SameOrder ρ τ xs) (s : Term) : ∀ t : Term, s.frame = t.frame →
    (∀ x ∈ s.vars, x ∈ xs) → (∀ x ∈ t.vars, x ∈ xs) → Alike ρ τ s t := by
  induction s with
  | var x =>
    intro t hframe hs ht r r' q q' hrest
    cases t with
    | app g ts => exact absurd hframe (by simp [frame])
    | var y =>
      simp only [rename_var, text_var_append, compare_cons_self]
      by_cases hxy : x = y
      · rw [hxy, compare_append_left, compare_append_left, compare_cons_self, compare_cons_self]
        exact hrest
      · exact h x (hs x List.mem_cons_self) y (ht y List.mem_cons_self) hxy r r' q q'
  | app f ss ih =>
    intro t hframe hs ht r r' q q' hrest
    cases t with
    | var y => exact absurd hframe (by simp [frame])
    | app g ts =>
      simp only [frame, rename_app, app.injEq] at hframe
      obtain ⟨rfl, hargs⟩ := hframe
      have halike : List.Forall₂ (Alike ρ τ) ss ts :=
        forall₂_of_map_eq (fun s hs' t ht' he => ih s hs' t he
          (fun x hx => hs x (vars_app f ss ▸ List.mem_flatMap.mpr ⟨s, hs', hx⟩))
          (fun x hx => ht x (vars_app f ts ▸ List.mem_flatMap.mpr ⟨t, ht', hx⟩))) hargs
      cases halike with
      | nil =>
        simp only [rename_app, List.map_nil, compare_append_left]
        exact hrest
      | cons hst hrest' =>
        simp only [text_rename_app_append, compare_append_left]
        refine hst (compare_textBehind hrest' ?_)
        rw [compare_cons_self, compare_cons_self, hrest]

/-! ## 4. What the shape tells -/

/-- What is written in a text without names for a character of the shape. -/
def spread (c : Char) : List Char :=
  if c = '?' then ['[', ']'] else if c = ',' then [',', ' '] else [c]

theorem flatMap_spread_of_plain {f : String} (h : IsPlain f) : f.toList.flatMap spread = f.toList := by
  have hchar : ∀ c ∈ f.toList, spread c = [c] := by
    intro c hc
    have hne : ∀ d, isPlainChar d = false → c ≠ d := by
      rintro d hd rfl
      rw [h c hc] at hd
      exact absurd hd (by decide)
    rw [spread, if_neg (hne '?' (by decide)), if_neg (hne ',' (by decide))]
  rw [List.flatMap_congr hchar]
  exact List.flatMap_singleton' _

theorem flatMap_intercalate {α β : Type} (g : α → List β) (sep : List α) (xss : List (List α)) :
    (sep.intercalate xss).flatMap g = (sep.flatMap g).intercalate (xss.map (·.flatMap g)) := by
  cases xss with
  | nil => rfl
  | cons xs xss =>
    rw [List.map_cons, intercalate_cons, intercalate_cons, List.flatMap_append, List.flatMap_assoc,
      List.flatMap_map]
    simp only [List.flatMap_append]

/-- The text of a term without names can be read off its shape. -/
theorem text_frame (h : t.Plain) : t.frame.text.toList = t.shape.toList.flatMap spread := by
  induction t with
  | var x => simp [frame, spread]
  | app f ts ih =>
    rw [plain_app] at h
    have hargs : (ts.map frame).map (fun t => t.text.toList) =
        (ts.map fun t => t.shape.toList).map (·.flatMap spread) := by
      rw [List.map_map, List.map_map]
      exact List.map_congr_left fun t ht => ih t ht (h.2 t ht)
    have hshape : (app f ts).shape.toList =
        f.toList ++ '(' :: ([','].intercalate (ts.map fun t => t.shape.toList) ++ [')']) := by
      simp [String.toList_intercalate, Function.comp_def]
    have htext := text_app_append f (ts.map frame) []
    rw [List.append_nil, hargs] at htext
    rw [hshape, List.flatMap_append, flatMap_spread_of_plain h.1, List.flatMap_cons,
      List.flatMap_append, flatMap_intercalate, frame, rename_app]
    exact htext

/-- **Plain terms of the same shape differ in variables only.** -/
theorem frame_eq_of_shape (hs : s.Plain) (ht : t.Plain) (h : s.shape = t.shape) :
    s.frame = t.frame := by
  have hplain : ∀ {u : Term}, u.Plain → u.frame.Plain := fun hu =>
    hu.subst fun _ _ => plain_var.mpr (fun _ hc => absurd hc List.not_mem_nil)
  refine (text_append_injective s.frame (hplain hs) t.frame [] [] (hplain ht) ?_).1
  rw [text_frame hs, text_frame ht, h]

end Term

/-! ## 5. Literals -/

namespace Literal

variable {ρ τ : String → String} {xs : List String} {l m : Literal}

theorem text_toList (l : Literal) :
    l.text.toList = (if l.negated then "!" else "").toList ++ l.atom.text.toList := by
  rw [text, String.toList_append]

/-- **The order by sign, shape and text** is the same under renamings that tell variables apart in the
same way. -/
theorem keyCmp_rename_congr (h : SameOrder ρ τ xs) (hl : l.Plain) (hm : m.Plain)
    (hlx : ∀ x ∈ l.vars, x ∈ xs) (hmx : ∀ x ∈ m.vars, x ∈ xs) :
    keyCmp (l.rename ρ) (m.rename ρ) = keyCmp (l.rename τ) (m.rename τ) := by
  by_cases hboth : l.negated = m.negated ∧ l.shape = m.shape
  · have halike : Term.Alike ρ τ l.atom m.atom :=
      Term.alike_of_frame h l.atom m.atom (Term.frame_eq_of_shape hl hm hboth.2)
        (fun x hx => hlx x (vars_eq_vars_atom l ▸ hx)) (fun x hx => hmx x (vars_eq_vars_atom m ▸ hx))
    have hatom : ∀ (σ : String → String) (k : Literal), (k.rename σ).atom = k.atom.rename σ :=
      fun σ k => atom_subst _ k
    have hsign : ∀ (σ : String → String) (k : Literal), (k.rename σ).negated = k.negated :=
      fun _ _ => rfl
    have htext : compare (l.rename ρ).text (m.rename ρ).text =
        compare (l.rename τ).text (m.rename τ).text := by
      have hnil := @halike [] [] [] [] rfl
      simp only [List.append_nil] at hnil
      simp only [compare_toList, text_toList, hatom, hsign, hboth.1, compare_append_left, hnil]
    simp only [keyCmp, compareLex, compareOn, shape_rename, hsign, htext]
  · rw [keyCmp_rename hboth, keyCmp_rename hboth]

end Literal

end Clausal

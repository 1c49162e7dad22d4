/-
# Keys are stable under storage

A clause is found by the key that it had when it came in, and it is stored under other names.  The
key of a clause depends on the order of its literals by sign, shape and text, so it may depend on
the names.  But names of letters and digits keep their order when a number is put behind them
(`Clause.sameOrder_of_marks`), and renamings that tell variables apart in the same way give the same
key (`Clause.key_rename_congr`).  So the number does not matter for the key, nor does it matter
whether there is one (`Regular.key_apart_congr`, `Regular.key_apart`).

A number that is there from the start is another thing: it is taken off, and what remains may be the
base of another variable as well, and then get a new place among the names.

What has been read from a text has names of letters and digits, without numbers behind them.  Hence
a clause that was taken in as text has the key with which it is stored, and to take in the stored
clause is to find it.  This stays so when the store grows, since keys are only added
(`Session.keeps_stored`).
-/
import Clausal.Proofs.BaseNames
import Clausal.Proofs.Reproducible
import Clausal.Proofs.Runs
import Clausal.Proofs.TextOrder

namespace Clausal

/-! ## 1. Names with and without a number -/

/-- Whether a text is a name, an underscore and digits. -/
def IsNumbered (x : String) : Prop :=
  ∃ name digits : String, x = name ++ ("_" ++ digits) ∧ IsName name ∧ digits ≠ "" ∧
    ∀ c ∈ digits.toList, c.isDigit = true

theorem isNameChar_of_isDigit {c : Char} (h : c.isDigit = true) : Token.isNameChar c = true := by
  simp [Token.isNameChar, Char.isAlphanum, h]

theorem IsName.append_toString {s : String} (h : IsName s) (n : Nat) : IsName (s ++ toString n) := by
  refine ⟨fun he => h.1 (String.append_eq_empty_iff.mp he).1, fun c hc => ?_⟩
  rw [String.toList_append] at hc
  exact (List.mem_append.mp hc).elim (h.2 c) fun hc =>
    isNameChar_of_isDigit (isDigit_of_mem_toString hc)

theorem IsName.underscore_not_mem {s : String} (h : IsName s) : '_' ∉ s.toList := fun hc =>
  absurd (h.2 _ hc) (by decide)

theorem IsName.not_isNumbered {s : String} (h : IsName s) : ¬ IsNumbered s := by
  rintro ⟨name, digits, rfl, -⟩
  exact h.underscore_not_mem (by simp)

theorem dropNumber?_of_not_mem {reversed : List Char} (h : '_' ∉ reversed) :
    dropNumber? reversed = none := by
  unfold dropNumber?
  split
  · rename_i hrest
    have hmem : '_' ∈ reversed.dropWhile Text.isDigit := hrest ▸ List.mem_cons_self
    exact absurd ((List.dropWhile_suffix _).subset hmem) h
  · rfl

/-- A name is its own base. -/
theorem IsName.baseName_eq {x : String} (h : IsName x) : baseName x = x := by
  have hmem : '_' ∉ x.toList.reverse := fun hc => h.underscore_not_mem (List.mem_reverse.mp hc)
  unfold baseName
  split
  · rename_i hchars
    rw [dropNumber?_of_not_mem fun hc => hmem (hchars ▸ List.mem_cons_of_mem _ hc)]
  · rw [dropNumber?_of_not_mem hmem]

theorem isName_baseName {x : String} (h : IsName x ∨ IsNumbered x) : IsName (baseName x) := by
  rcases h with h | ⟨name, digits, rfl, hname, hne, hdigits⟩
  · rwa [h.baseName_eq]
  · rwa [baseName_append_number hne hdigits]

theorem IsNumbered.isPlain {x : String} (h : IsNumbered x) : IsPlain x := by
  obtain ⟨name, digits, rfl, hname, -, hdigits⟩ := h
  have hunderscore : IsPlain "_" := by decide
  refine hname.isPlain.append (hunderscore.append fun c hc => ?_)
  rw [isPlainChar, isNameChar_of_isDigit (hdigits c hc), Bool.true_or]

/-- The functors of a term, from left to right. -/
def Term.functors : Term → List String :=
  fold (fun _ => []) fun f ts => f :: ts.flatten

@[simp] theorem Term.functors_var (x : String) : (var x).functors = [] := rfl

@[simp] theorem Term.functors_app (f : String) (ts : List Term) :
    (app f ts).functors = f :: ts.flatMap functors := by
  simp [functors, List.flatMap]

theorem Term.mem_names {n : String} {t : Term} : n ∈ t.names ↔ n ∈ t.functors ∨ n ∈ t.vars := by
  induction t with
  | var x => simp
  | app f ts ih =>
    simp only [names_app, functors_app, vars_app, List.mem_cons, List.mem_flatMap, or_assoc,
      ← exists_or, ← and_or_left]
    refine or_congr_right (exists_congr fun t => and_congr_right fun ht => ih t ht)

/-- The predicate and the functors of a literal. -/
def Literal.functors (l : Literal) : List String :=
  l.atom.functors

namespace Clause

variable {c : Clause} {ρ τ : String → String}

/-- Whether functors are names, and variables are names with or without a number. -/
structure Regular (c : Clause) : Prop where
  functors : ∀ l ∈ c, ∀ f ∈ l.functors, IsName f
  vars : ∀ x ∈ c.vars, IsName x ∨ IsNumbered x

theorem Regular.plain (h : c.Regular) : ∀ l ∈ c, l.Plain := by
  intro l hl n hn
  rcases Term.mem_names.mp hn with hn | hn
  · exact (h.functors l hl n hn).isPlain
  · have hx : n ∈ c.vars := mem_vars.mpr ⟨l, hl, Literal.vars_eq_vars_atom l ▸ hn⟩
    exact (h.vars n hx).elim IsName.isPlain IsNumbered.isPlain

/-! ## 2. Renamings with the same key -/

/-- **Renamings that tell variables apart in the same way give the same key.** -/
theorem key_rename_congr (hplain : ∀ l ∈ c, l.Plain)
    (hρ : ∀ x ∈ c.vars, ∀ y ∈ c.vars, ρ x = ρ y → x = y)
    (hτ : ∀ x ∈ c.vars, ∀ y ∈ c.vars, τ x = τ y → x = y)
    (hnames : ∀ x ∈ c.vars, IsPlain (ρ x)) (horder : SameOrder ρ τ c.vars) :
    (c.rename ρ).key = (c.rename τ).key := by
  -- The two images differ by a bijection of names, which keeps the order of the literals.
  obtain ⟨π, hπ⟩ := exists_perm_of_injective hρ hτ
  have hvars : ∀ l ∈ c, ∀ x ∈ l.vars, x ∈ c.vars := fun l hl x hx => mem_vars.mpr ⟨l, hl, hx⟩
  have hliteral : ∀ l ∈ c, (l.rename ρ).rename π = l.rename τ := by
    intro l hl
    refine (Literal.rename_rename ρ π l).trans (Literal.subst_congr fun x hx => ?_)
    exact congrArg Term.var (hπ x (hvars l hl x hx))
  have hclause : (c.rename ρ).rename π = c.rename τ :=
    (rename_rename ρ π c).trans (rename_congr hπ)
  have hrenamed : ∀ k ∈ c.rename ρ, k.Plain := by
    intro k hk
    obtain ⟨l, hl, rfl⟩ := mem_rename.mp hk
    exact (hplain l hl).rename fun x hx => hnames x (hvars l hl x hx)
  rw [← hclause]
  refine (key_rename (keySort_rename (fun k hk k' hk' he => ?_) fun k hk k' hk' => ?_)).symm
  · exact Literal.eq_of_keyCmp (hrenamed k hk) (hrenamed k' hk') he
  · obtain ⟨l, hl, rfl⟩ := mem_rename.mp hk
    obtain ⟨m, hm, rfl⟩ := mem_rename.mp hk'
    rw [hliteral l hl, hliteral m hm]
    exact (Literal.keyCmp_rename_congr horder (hplain l hl) (hplain m hm) (hvars l hl)
      (hvars m hm)).symm

/-- Names keep their order when marks are put behind them that have the same place. -/
theorem sameOrder_of_marks {xs : List String} {name : String → String} {a b : Char}
    (hplace : SamePlace a b) (hname : ∀ x ∈ xs, IsName (name x))
    (hinj : ∀ x ∈ xs, ∀ y ∈ xs, name x = name y → x = y)
    (hρ : ∀ x ∈ xs, ∀ r, ∃ r', (ρ x).toList ++ ']' :: r = (name x).toList ++ a :: r')
    (hτ : ∀ x ∈ xs, ∀ q, ∃ q', (τ x).toList ++ ']' :: q = (name x).toList ++ b :: q') :
    SameOrder ρ τ xs := by
  intro x hx y hy hxy r r' q q'
  obtain ⟨_, hxr⟩ := hρ x hx r
  obtain ⟨_, hyr⟩ := hρ y hy r'
  obtain ⟨_, hxq⟩ := hτ x hx q
  obtain ⟨_, hyq⟩ := hτ y hy q'
  rw [hxr, hyr, hxq, hyq]
  refine compare_append_mark hplace (hname x hx).2 (hname y hy).2 (fun he => hxy ?_) _ _ _ _
  exact hinj x hx y hy (String.toList_inj.mp he)

/-! ## 3. Keys of clauses that are standardised apart -/

/-- The name that a variable gets before the number of the clause. -/
def nameApart (c : Clause) : String → String :=
  (c.apartRenaming "").image

theorem image_apartRenaming (n : Nat) {x : String} (hx : x ∈ c.vars) :
    (c.apartRenaming (indexSuffix n)).image x = c.nameApart x ++ indexSuffix n :=
  image_freshNames _ (List.mem_eraseDups.mpr hx)

theorem renamedApart_apart (suffix : String) (c : Clause) :
    RenamedApart suffix (c.apartRenaming suffix).image c (c.apart suffix) :=
  renamedApart_freshNames fun _ hx => List.mem_eraseDups.mpr hx

theorem Regular.isName_nameApart (h : c.Regular) {x : String} (hx : x ∈ c.vars) :
    IsName (c.nameApart x) := by
  obtain ⟨name, hname, hcases⟩ := (renamedApart_apart "" c).suffixed x hx
  rw [String.append_empty] at hname
  rw [nameApart, hname]
  have hbase := isName_baseName (h.vars x hx)
  rcases hcases with rfl | ⟨n, rfl⟩
  · exact hbase
  · exact hbase.append_toString _

theorem Regular.isPlain_image (h : c.Regular) (n : Nat) {x : String} (hx : x ∈ c.vars) :
    IsPlain ((c.apartRenaming (indexSuffix n)).image x) := by
  rw [image_apartRenaming n hx]
  exact (h.isName_nameApart hx).isPlain.append (isPlain_suffix n)

theorem mark_image (n : Nat) {x : String} (hx : x ∈ c.vars) (r : List Char) :
    ∃ r', ((c.apartRenaming (indexSuffix n)).image x).toList ++ ']' :: r =
      (c.nameApart x).toList ++ '_' :: r' := by
  refine ⟨(toString n).toList ++ ']' :: r, ?_⟩
  rw [image_apartRenaming n hx]
  simp [indexSuffix]

/-- **The number of a clause does not matter for its key.** -/
theorem Regular.key_apart_congr (h : c.Regular) (m n : Nat) :
    (c.apart (indexSuffix m)).key = (c.apart (indexSuffix n)).key := by
  refine key_rename_congr h.plain (renamedApart_apart _ c).injective
    (renamedApart_apart _ c).injective (fun x hx => h.isPlain_image m hx) ?_
  exact sameOrder_of_marks (samePlace_of_between (by decide) (by decide))
    (fun x hx => h.isName_nameApart hx) (renamedApart_apart "" c).injective
    (fun x hx => mark_image m hx) fun x hx => mark_image n hx

/-- **Where variables have no number, the key is that of the clause itself.** -/
theorem Regular.key_apart (h : c.Regular) (hvars : ∀ x ∈ c.vars, ¬ IsNumbered x) (n : Nat) :
    (c.apart (indexSuffix n)).key = c.key := by
  have hname : ∀ x ∈ c.vars, IsName x := fun x hx => (h.vars x hx).resolve_right (hvars x hx)
  have hbases : (c.vars.eraseDups.map baseName).Nodup := by
    have hmap : c.vars.eraseDups.map baseName = c.vars.eraseDups.map id :=
      List.map_congr_left fun x hx => (hname x (List.mem_eraseDups.mp hx)).baseName_eq
    rw [hmap, List.map_id]
    exact nodup_eraseDups _
  have hsame : ∀ x ∈ c.vars, c.nameApart x = x := by
    intro x hx
    have himage := image_of_nodup hbases "" (List.mem_eraseDups.mpr hx)
    rwa [(hname x hx).baseName_eq, String.append_empty] at himage
  conv_rhs => rw [← rename_id c]
  refine key_rename_congr h.plain (renamedApart_apart _ c).injective (fun _ _ _ _ he => he)
    (fun x hx => h.isPlain_image n hx) ?_
  -- What is compared with the underscore before a number is the bracket behind a variable.
  refine sameOrder_of_marks (samePlace_of_between (a := '_') (b := ']') (by decide) (by decide))
    hname (fun _ _ _ _ he => he) (fun x hx r => ?_) fun x hx q => ⟨q, rfl⟩
  have hmark := mark_image n hx r
  rwa [hsame x hx] at hmark

end Clause

/-! ## 4. The store keeps its keys -/

namespace Session

variable {s : Session} {P : List Entry → List (Clause × Nat) → Prop}

/-- What holds of the stored clauses and their keys, and is kept by storing a clause whose key is not
known, holds after a call. -/
theorem call_store_induction
    (append : ∀ (kb : KnowledgeBase) (c : Candidate), kb.find? c.clause.key = none →
      P kb.clauses kb.signatures → P (kb.append c).clauses (kb.append c).signatures)
    (h : P s.kb.clauses s.kb.signatures) (c : Call) :
    P (s.call c).kb.clauses (s.call c).kb.signatures := by
  cases hperform : c.perform s.kb with
  | error e =>
    rw [kb_call_of_error hperform]
    exact h
  | ok kb =>
    rw [kb_call_of_ok hperform]
    cases c with
    | ingest items label =>
      obtain ⟨i, hok⟩ := Call.ingest_of_perform hperform
      obtain ⟨literals, -, ⟨-, rfl⟩ | ⟨-, new, hclauses, hkeys⟩⟩ := KnowledgeBase.ingest_eq_ok hok
      · exact h
      · rw [hclauses, hkeys]
        exact append _ _ new h
    | offer es c =>
      simp only [Call.perform, KnowledgeBase.enlistAll_eq, KnowledgeBase.offer] at hperform
      split at hperform
      · exact absurd hperform (by simp [Except.map])
      · obtain rfl := Except.ok.inj hperform
        unfold KnowledgeBase.store
        split
        · exact h
        · rename_i new
          exact append _ c new h
    | round =>
      obtain rfl := Call.performRound_of_perform hperform
      exact KnowledgeBase.performRound_store_induction append h
    | run limit =>
      obtain rfl := Except.ok.inj hperform
      exact KnowledgeBase.runRounds_induction (P := fun kb => P kb.clauses kb.signatures)
        (fun kb _ hkb => KnowledgeBase.performRound_store_induction append hkb)
        (fun _ _ hkb => hkb) _ h

theorem foldl_call_store_induction
    (append : ∀ (kb : KnowledgeBase) (c : Candidate), kb.find? c.clause.key = none →
      P kb.clauses kb.signatures → P (kb.append c).clauses (kb.append c).signatures) :
    ∀ (calls : List Call) {s : Session}, P s.kb.clauses s.kb.signatures →
      P (calls.foldl call s).kb.clauses (calls.foldl call s).kb.signatures
  | [], _, h => h
  | c :: calls, _, h =>
    foldl_call_store_induction append calls (call_store_induction append h c)

/-- **A stored clause and its key stay**, whatever is called. -/
theorem keeps_stored {key : Clause} {i : Nat} {e : Entry} (he : s.kb.clauses[i]? = some e)
    (hkey : s.kb.find? key = some i) (calls : List Call) :
    (calls.foldl call s).kb.clauses[i]? = some e ∧
      (calls.foldl call s).kb.find? key = some i := by
  refine foldl_call_store_induction
    (P := fun clauses signatures => clauses[i]? = some e ∧ signatures.lookup key = some i)
    (fun kb c _ h => ⟨?_, ?_⟩) calls ⟨he, hkey⟩
  · obtain ⟨hi, -⟩ := List.getElem?_eq_some_iff.mp h.1
    exact (KnowledgeBase.getElem?_of_isPrefix (List.prefix_append kb.clauses _) hi).trans h.1
  · rw [KnowledgeBase.append, List.lookup_append, h.2, Option.some_or]

end Session

/-! ## 5. Taking in what was stored -/

open Clause

/-- Clauses that are read from texts have names without numbers. -/
theorem regular_of_texts {texts : List String} {ls : List Literal}
    (h : Item.readAll (texts.map .text) = .ok ls) :
    (ofList ls).Regular ∧ ∀ x ∈ (ofList ls).vars, ¬ IsNumbered x := by
  have hnames : ∀ l ∈ ofList ls, ∀ n, n ∈ l.functors ∨ n ∈ l.vars → IsName n := by
    intro l hl n hn
    obtain ⟨item, hitem, hread⟩ := (Item.mem_readAll h).mp (mem_ofList.mp hl)
    obtain ⟨t, -, rfl⟩ := List.mem_map.mp hitem
    rw [Literal.vars_eq_vars_atom] at hn
    exact Item.wellNamed_of_read hread n (Term.mem_names.mpr hn)
  have hvars : ∀ x ∈ (ofList ls).vars, IsName x := by
    intro x hx
    obtain ⟨l, hl, hx⟩ := mem_vars.mp hx
    exact hnames l hl x (Or.inr hx)
  exact ⟨⟨fun l hl f hf => hnames l hl f (Or.inl hf), fun x hx => Or.inl (hvars x hx)⟩,
    fun x hx => (hvars x hx).not_isNumbered⟩

namespace KnowledgeBase

variable {kb kb' : KnowledgeBase} {i : Nat} {label : String}

/-- A new clause is stored under its number, and can be found by its key. -/
theorem ingest_new {items : List Item} (h : kb.ingest items label = .ok (kb', i))
    (hnew : kb.clauses.length < kb'.clauses.length) :
    ∃ literals e, Item.readAll items = .ok literals ∧ kb'.clauses[i]? = some e ∧
      e.clause = (ofList literals).apart (indexSuffix i) ∧
      kb'.find? (ofList literals).key = some i := by
  obtain ⟨literals, hread, ⟨-, rfl⟩ | ⟨rfl, hnone, hclauses, hkeys⟩⟩ := ingest_eq_ok h
  · omega
  · have hentry : ∃ e, kb'.clauses[kb.clauses.length]? = some e ∧
        e.clause = (ofList literals).apart (indexSuffix kb.clauses.length) := by
      rw [hclauses]
      exact ⟨_, List.getElem?_concat_length, rfl⟩
    obtain ⟨e, he, hclause⟩ := hentry
    refine ⟨literals, e, hread, he, hclause, ?_⟩
    rw [find?] at hnone ⊢
    rw [hkeys, append, List.lookup_append, hnone, Option.none_or, List.lookup_cons_self]

theorem readAll_literals : ∀ ls : List Literal, Item.readAll (ls.map .literal) = .ok ls
  | [] => rfl
  | l :: ls => by
    rw [List.map_cons, Item.readAll, readAll_literals ls]
    rfl

/-- A clause whose key is known is found, and nothing is stored. -/
theorem ingest_of_find? {ls : List Literal} (hactive : kb.contradictory = false)
    (hfind : kb.find? (ofList ls).key = some i) (label : String) :
    kb.ingest (ls.map .literal) label = .ok (kb, i) := by
  simp only [ingest, hactive, readAll_literals, hfind, Bool.false_eq_true, if_false]

end KnowledgeBase

/-- **Keys are stable under storage.**  Where functors are names, and variables are names with or
without a number behind them, the key of a clause that is standardised apart does not depend on the
number; and if no variable has a number, it is the key of the clause itself.  Hence, where a clause was
taken in as text and stored as a new one, it stays at its index whatever is called afterwards, and
until the empty clause is found, to take in the literals of the stored clause, in any order, gives
this index and changes nothing. -/
theorem keys_are_stable_under_storage :
    (∀ c : Clause, (∀ l ∈ c, ∀ f ∈ l.functors, IsName f) →
      (∀ x ∈ c.vars, IsName x ∨ IsNumbered x) → ∀ m n : Nat,
        (c.apart (indexSuffix m)).key = (c.apart (indexSuffix n)).key ∧
        ((∀ x ∈ c.vars, ¬ IsNumbered x) →
          (c.apart (indexSuffix m)).key = c.key ∧ (c.apart (indexSuffix n)).key = c.key)) ∧
    ∀ (kb kb' : KnowledgeBase) (texts : List String) (label : String) (i : Nat),
      kb.ingest (texts.map .text) label = .ok (kb', i) →
      kb.clauses.length < kb'.clauses.length →
        ∃ e, kb'.clauses[i]? = some e ∧ ∀ (s : Session) (calls : List Call), s.kb = kb' →
          let later := (calls.foldl Session.call s).kb
          later.clauses[i]? = some e ∧
            (later.contradictory = false → ∀ (ls : List Literal) (label' : String),
              (∀ l, l ∈ ls ↔ l ∈ e.clause) →
                later.ingest (ls.map .literal) label' = .ok (later, i)) := by
  constructor
  · intro c hfunctors hvars m n
    have hregular : c.Regular := ⟨hfunctors, hvars⟩
    exact ⟨hregular.key_apart_congr m n, fun hnone =>
      ⟨hregular.key_apart hnone m, hregular.key_apart hnone n⟩⟩
  · intro kb kb' texts label i hok hnew
    obtain ⟨literals, e, hread, he, hclause, hfind⟩ := KnowledgeBase.ingest_new hok hnew
    obtain ⟨hregular, hnone⟩ := regular_of_texts hread
    refine ⟨e, he, fun s calls hs => ?_⟩
    subst hs
    obtain ⟨hstays, hkey⟩ := Session.keeps_stored he hfind calls
    refine ⟨hstays, fun hactive ls label' hls => KnowledgeBase.ingest_of_find? hactive ?_ label'⟩
    have hsame : ofList ls = e.clause := by rw [ofList_congr hls, ofList_literals]
    rw [hsame, hclause, hregular.key_apart hnone, hkey]

/-- Names that begin with each other, one of them with a number behind it. -/
def crowdedNames : Clause :=
  .ofList [⟨false, "P", [.var "x"]⟩, ⟨false, "P", [.var "x1"]⟩, ⟨false, "P", [.var "xA"]⟩,
    ⟨false, "P", [.var "xa"]⟩, ⟨false, "P", [.var "x_3"]⟩, ⟨true, "Q", [.var "x", .var "x_3"]⟩]

/-- Some of the names, without a number. -/
def crowdedTexts : List String :=
  ["P([x], [xa])", "P([x1], [x])"]

/-- The clause of `crowdedTexts`. -/
def unnumberedNames : Clause :=
  .ofList [⟨false, "P", [.var "x", .var "xa"]⟩, ⟨false, "P", [.var "x1", .var "x"]⟩]

/-- What is called after `crowdedTexts` were taken in. -/
def callsAfter : List Call := [.ingest [.text "!P([y], [y])"] "", .round]

/-- The key of `crowdedNames` under a number is not the key of the clause itself, for `x_3` gets
another place among the names; but it does not depend on the number.  Where no name has a number, the
key stays, and the stored clause is found, even if others are stored after it. -/
theorem crowdedNames_have_stable_keys :
    ((crowdedNames.apart (indexSuffix 9)).key = (crowdedNames.apart (indexSuffix 10)).key ∧
      (crowdedNames.apart (indexSuffix 9)).key ≠ crowdedNames.key) ∧
    (unnumberedNames.apart (indexSuffix 9)).key = unnumberedNames.key ∧
    ∃ kb e, KnowledgeBase.empty.ingest (crowdedTexts.map .text) "" = .ok (kb, 0) ∧
      kb.clauses[0]? = some e ∧
      let later := (callsAfter.foldl Session.call ⟨kb, [], []⟩).kb
      later.clauses.length = 4 ∧
        later.ingest (e.clause.literals.map .literal) "" = .ok (later, 0) := by
  obtain ⟨hkeys, hstored⟩ := keys_are_stable_under_storage
  refine ⟨⟨?_, by decide +kernel⟩, ?_, ?_⟩
  · have hfunctors : ∀ l ∈ crowdedNames.literals, ∀ f ∈ l.functors, IsName f := by decide +kernel
    have hvars : ∀ x ∈ crowdedNames.vars, IsName x ∨ x = "x_3" := by decide +kernel
    have hthree : IsNumbered "x_3" :=
      ⟨"x", toString 3, rfl, by decide, toString_ne_empty 3, fun _ => isDigit_of_mem_toString⟩
    refine (hkeys crowdedNames hfunctors (fun x hx => ?_) 9 10).1
    exact (hvars x hx).imp_right fun he => by rw [he]; exact hthree
  · have hfunctors : ∀ l ∈ unnumberedNames.literals, ∀ f ∈ l.functors, IsName f := by
      decide +kernel
    have hvars : ∀ x ∈ unnumberedNames.vars, IsName x := by decide +kernel
    exact ((hkeys unnumberedNames hfunctors (fun x hx => Or.inl (hvars x hx)) 9 10).2
      fun x hx => (hvars x hx).not_isNumbered).1
  · have hrun : ((KnowledgeBase.empty.ingest (crowdedTexts.map .text) "").toOption.map fun p =>
        let later := (callsAfter.foldl Session.call ⟨p.1, [], []⟩).kb
        (p.2, p.1.clauses.length, later.clauses.length, later.contradictory)) =
        some (0, 1, 4, false) := by decide +kernel
    cases hok : KnowledgeBase.empty.ingest (crowdedTexts.map .text) "" with
    | error e =>
      rw [hok] at hrun
      exact absurd hrun (by simp [Except.toOption])
    | ok p =>
      obtain ⟨kb, i⟩ := p
      rw [hok] at hrun
      simp only [Except.toOption, Option.map_some, Option.some.injEq, Prod.mk.injEq] at hrun
      obtain ⟨rfl, hlength, hlater, hactive⟩ := hrun
      have hnew : KnowledgeBase.empty.clauses.length < kb.clauses.length := by
        rw [hlength]
        exact Nat.zero_lt_one
      obtain ⟨e, he, hagain⟩ := hstored _ kb crowdedTexts "" 0 hok hnew
      obtain ⟨-, hfound⟩ := hagain ⟨kb, [], []⟩ callsAfter rfl
      exact ⟨kb, e, rfl, he, hlater, hfound hactive _ "" fun _ => Iff.rfl⟩

end Clausal

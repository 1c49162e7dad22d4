/-
# Texts that spell tokens

A text *spells* a list of tokens when it has their characters in order, with any number of blanks
before, between and after them (`Token.Spells`).  `Token.tokenize` finds the tokens that a text
spells:

* where it gives tokens, the text spells them, and their names are proper (`tokenize_eq_ok`);
* a text that spells proper tokens, no two adjacent ones of which are names, is accepted and gives
  just these (`exists_tokenize`).

Two names in a row could be read as one longer name, unless a blank stands between them; no term has
two names in a row, so that this case does not arise.
-/
import Clausal.Token
import Mathlib.Data.List.Chain

namespace Clausal

/-! ## 1. Names and spellings -/

/-- Whether a text can stand as a name: it is not empty, and has ASCII letters and digits only. -/
def IsName (s : String) : Prop :=
  s ≠ "" ∧ ∀ c ∈ s.toList, Token.isNameChar c = true

instance (s : String) : Decidable (IsName s) :=
  decidable_of_iff (s ≠ "" ∧ s.toList.all Token.isNameChar = true)
    (and_congr Iff.rfl List.all_eq_true)

namespace Token

variable {ts : List Token} {cs : List Char} {c : Char}

/-- Whether a token is a name. -/
def isName : Token → Bool
  | name _ => true
  | mark _ => false

/-- Whether a token can stand in a text. -/
def Proper : Token → Prop
  | name s => IsName s
  | mark _ => True

/-- Whether no name comes directly after a name. -/
def Apart : List Token → Prop :=
  List.IsChain fun t u => t.isName = true → u.isName = false

theorem Apart.mark {ts : List Token} (h : Apart ts) (m : Mark) : Apart (.mark m :: ts) :=
  List.isChain_cons.mpr ⟨fun _ _ hm => absurd hm (by simp [isName]), h⟩

theorem Apart.name_mark {ts : List Token} (h : Apart ts) (s : String) (m : Mark) :
    Apart (.name s :: .mark m :: ts) :=
  (h.mark m).cons_cons fun _ => rfl

/-- The characters are those of the tokens in order, with blanks before, between and after them. -/
inductive Spells : List Token → List Char → Prop where
  | nil : Spells [] []
  | blank {c : Char} {ts : List Token} {cs : List Char} (h : Text.isBlank c = true)
      (rest : Spells ts cs) : Spells ts (c :: cs)
  | token (t : Token) {ts : List Token} {cs : List Char} (rest : Spells ts cs) :
      Spells (t :: ts) (t.text.toList ++ cs)

/-! ## 2. Kinds of characters -/

theorem ofChar?_char (m : Mark) : Mark.ofChar? m.char = some m := by
  cases m <;> rfl

theorem ofChar?_eq_some {m : Mark} (h : Mark.ofChar? c = some m) : m.char = c := by
  simpa using List.find?_some h

theorem isNameChar_char (m : Mark) : isNameChar m.char = false := by
  cases m <;> decide

/-- The code points of ASCII digits and letters. -/
theorem toNat_of_isNameChar (h : isNameChar c = true) :
    48 ≤ c.toNat ∧ c.toNat ≤ 57 ∨ 65 ≤ c.toNat ∧ c.toNat ≤ 90 ∨ 97 ≤ c.toNat ∧ c.toNat ≤ 122 := by
  have hval : c.val.toNat = c.toNat := rfl
  have hranges : (decide ('A'.val ≤ c.val ∧ c.val ≤ 'Z'.val) ||
      decide ('a'.val ≤ c.val) && decide (c.val ≤ 'z'.val) ||
      decide ('0'.val ≤ c.val) && decide (c.val ≤ '9'.val)) = true := h
  simp only [UInt32.le_iff_toNat_le, Bool.or_eq_true, Bool.and_eq_true, decide_eq_true_eq, hval,
    Char.reduceVal, UInt32.reduceToNat] at hranges
  omega

theorem isNameChar_of_isBlank (h : Text.isBlank c = true) : isNameChar c = false := by
  simp only [Text.isBlank, Bool.or_eq_true, Bool.and_eq_true, decide_eq_true_eq, beq_iff_eq] at h
  by_contra hname
  have hrange := toNat_of_isNameChar (by simpa using hname)
  omega

theorem ofChar?_of_isBlank (h : Text.isBlank c = true) : Mark.ofChar? c = none := by
  cases hm : Mark.ofChar? c with
  | none => rfl
  | some m =>
    rw [← ofChar?_eq_some hm] at h
    cases m <;> exact absurd h (by decide)

theorem isBlank_of_isLegal (h : isLegal c = true) (hname : isNameChar c = false)
    (hmark : Mark.ofChar? c = none) : Text.isBlank c = true := by
  simpa [isLegal, hname, hmark] using h

theorem firstIllegal?_eq_none_iff : ∀ {cs : List Char} {pos : Nat},
    firstIllegal? cs pos = none ↔ ∀ c ∈ cs, isLegal c = true
  | [], _ => by simp [firstIllegal?]
  | c :: cs, pos => by
    unfold firstIllegal?
    split
    · rename_i h
      rw [firstIllegal?_eq_none_iff]
      simp [h]
    · rename_i h
      simp [h]

/-- A text that spells proper tokens has no illegal character. -/
theorem Spells.isLegal (h : Spells ts cs) (hp : ∀ t ∈ ts, t.Proper) :
    ∀ c ∈ cs, isLegal c = true := by
  induction h with
  | nil => simp
  | blank hb _ ih =>
    rw [List.forall_mem_cons]
    exact ⟨by simp [Token.isLegal, hb], ih hp⟩
  | token t _ ih =>
    obtain ⟨ht, hts⟩ := List.forall_mem_cons.mp hp
    rw [List.forall_mem_append]
    refine ⟨?_, ih hts⟩
    cases t with
    | name s => exact fun c hc => by simp [Token.isLegal, ht.2 c hc]
    | mark m => simp [text, Token.isLegal, ofChar?_char]

/-! ## 3. What the scanner gives is spelt -/

theorem spells_nameEnding (run : List Char) (pos : Nat) (h : Spells ts cs) :
    Spells ((nameEnding run pos).map Lexeme.token ++ ts) (run.reverse ++ cs) := by
  cases run with
  | nil => exact h
  | cons c run => simpa [nameEnding, text] using h.token (name (String.ofList (c :: run).reverse))

/-- **The scanner's tokens are spelt** by the characters that it was given, those of the name that
had not ended before them. -/
theorem spells_scan : ∀ (cs : List Char) (pos : Nat) (run : List Char),
    (∀ c ∈ cs, isLegal c = true) →
      Spells ((scan cs pos run).map Lexeme.token) (run.reverse ++ cs)
  | [], pos, run, _ => by simpa [scan] using spells_nameEnding run pos .nil
  | c :: cs, pos, run, h => by
    obtain ⟨hc, hcs⟩ := List.forall_mem_cons.mp h
    unfold scan
    split
    · simpa using spells_scan cs (pos + 1) (c :: run) hcs
    · rename_i hname
      rw [Bool.not_eq_true] at hname
      have hrest := spells_scan cs (pos + 1) [] hcs
      split
      · rename_i m hm
        have hmark : Spells (mark m :: (scan cs (pos + 1) []).map Lexeme.token) (m.char :: cs) := by
          simpa [text] using hrest.token (mark m)
        rw [List.map_append, ← ofChar?_eq_some hm]
        exact spells_nameEnding run pos hmark
      · rename_i hm
        rw [List.map_append]
        exact spells_nameEnding run pos (hrest.blank (isBlank_of_isLegal hc hname hm))

theorem proper_nameEnding {run : List Char} (pos : Nat) (h : ∀ c ∈ run, isNameChar c = true) :
    ∀ l ∈ nameEnding run pos, l.token.Proper := by
  cases run with
  | nil => simp [nameEnding]
  | cons c run =>
    simp only [nameEnding, List.isEmpty_cons, Bool.false_eq_true, if_false,
      List.forall_mem_singleton]
    constructor
    · intro he
      simpa using congrArg String.toList he
    · intro d hd
      exact h d (List.mem_reverse.mp (by simpa using hd))

theorem proper_scan : ∀ (cs : List Char) (pos : Nat) (run : List Char),
    (∀ c ∈ run, isNameChar c = true) → ∀ l ∈ scan cs pos run, l.token.Proper
  | [], pos, run, h => proper_nameEnding pos h
  | c :: cs, pos, run, h => by
    have hrest := proper_scan cs (pos + 1) [] (by simp)
    unfold scan
    split
    · rename_i hc
      exact proper_scan cs (pos + 1) (c :: run) (List.forall_mem_cons.mpr ⟨hc, h⟩)
    · split
      · rw [List.forall_mem_append, List.forall_mem_cons]
        exact ⟨proper_nameEnding pos h, trivial, hrest⟩
      · rw [List.forall_mem_append]
        exact ⟨proper_nameEnding pos h, hrest⟩

/-! ## 4. What is spelt is what the scanner gives -/

theorem scan_append_name {word : List Char} (h : ∀ c ∈ word, isNameChar c = true) :
    ∀ (pos : Nat) (run : List Char),
      scan (word ++ cs) pos run = scan cs (pos + word.length) (word.reverse ++ run) := by
  induction word with
  | nil => exact fun _ _ => rfl
  | cons c word ih =>
    obtain ⟨hc, hword⟩ := List.forall_mem_cons.mp h
    intro pos run
    rw [List.cons_append, scan, if_pos hc, ih hword]
    simp [Nat.add_assoc, Nat.add_comm 1]

/-- A name ends before a character that cannot stand in it. -/
theorem scan_of_head (h : ∀ c ∈ cs.head?, isNameChar c = false) (pos : Nat) (run : List Char) :
    scan cs pos run = nameEnding run pos ++ scan cs pos [] := by
  cases cs with
  | nil => simp [scan, nameEnding]
  | cons c cs =>
    have hc : isNameChar c = false := h c rfl
    simp only [scan, hc, Bool.false_eq_true, if_false]
    cases Mark.ofChar? c <;> simp [nameEnding]

theorem Spells.head (h : Spells ts cs) (hts : ∀ t ∈ ts.head?, t.isName = false) :
    ∀ c ∈ cs.head?, isNameChar c = false := by
  cases h with
  | nil => simp
  | blank hb _ => simpa using isNameChar_of_isBlank hb
  | token t _ =>
    cases t with
    | name s => exact absurd (hts _ rfl) (by simp [isName])
    | mark m => simpa [text] using isNameChar_char m

/-- **A text gives the tokens that it spells**, if no two of them are names in a row. -/
theorem Spells.map_token_scan (h : Spells ts cs) (hp : ∀ t ∈ ts, t.Proper) (ha : Apart ts) :
    ∀ pos : Nat, (scan cs pos []).map Lexeme.token = ts := by
  induction h with
  | nil => exact fun _ => rfl
  | blank hb _ ih =>
    intro pos
    simp [scan, isNameChar_of_isBlank hb, ofChar?_of_isBlank hb, nameEnding, ih hp ha]
  | @token t ts cs hrest ih =>
    obtain ⟨ht, hts⟩ := List.forall_mem_cons.mp hp
    have hnext := ih hts ha.tail
    intro pos
    cases t with
    | mark m =>
      simp [text, scan, isNameChar_char, ofChar?_char, nameEnding, hnext]
    | name s =>
      -- The token after a name is none, so the name ends where its own characters do.
      have hhead : ∀ u ∈ ts.head?, u.isName = false := fun u hu => ha.rel_head? hu rfl
      have hne : s.toList ≠ [] := fun he => ht.1 (String.toList_inj.mp he)
      rw [text, scan_append_name ht.2, scan_of_head (hrest.head hhead), List.map_append, hnext]
      simp [nameEnding, hne]

/-! ## 5. Whole texts -/

variable {s : String}

theorem tokenize_eq_ok {ls : List Lexeme} (h : tokenize s = .ok ls) :
    Spells (ls.map Lexeme.token) s.toList ∧ ∀ l ∈ ls, l.token.Proper := by
  unfold tokenize at h
  split at h
  · simp at h
  · rename_i hlegal
    obtain rfl := Except.ok.inj h
    exact ⟨spells_scan _ _ [] (firstIllegal?_eq_none_iff.mp hlegal),
      proper_scan _ _ [] (by simp)⟩

theorem exists_tokenize (h : Spells ts s.toList) (hp : ∀ t ∈ ts, t.Proper) (ha : Apart ts) :
    ∃ ls, tokenize s = .ok ls ∧ ls.map Lexeme.token = ts := by
  refine ⟨scan s.toList 0 [], ?_, h.map_token_scan hp ha 0⟩
  have hlegal : firstIllegal? s.toList 0 = none := firstIllegal?_eq_none_iff.mpr (h.isLegal hp)
  simp only [tokenize, hlegal]

end Token

end Clausal

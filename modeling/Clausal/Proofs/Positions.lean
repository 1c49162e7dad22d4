/-
# Tokens stand where their characters do

`Token.Lexes` says which tokens a text has and where: blanks are passed over, a mark is a token, and a
name is a run of letters and digits that the text does not go on with.  It says where each token
begins, which `Token.Spells` does not, and leaves no choice; `Token.tokenize` gives just these tokens
(`tokenize_eq_ok_iff`).  Where a text has none, the first character that may stand in no text is
reported, with the number of characters before it (`tokenize_of_illegal`).
-/
import Clausal.Proofs.Spelling

namespace Clausal

namespace Token

variable {cs : List Char} {pos : Nat} {ls : List Lexeme}

/-! ## 1. Tokens and where they begin -/

/-- The tokens of the characters from a position on. -/
inductive Lexes : Nat → List Char → List Lexeme → Prop where
  | nil {pos : Nat} : Lexes pos [] []
  | blank {c : Char} {pos : Nat} {cs : List Char} {ls : List Lexeme} (h : Text.isBlank c = true)
      (rest : Lexes (pos + 1) cs ls) : Lexes pos (c :: cs) ls
  | mark (m : Mark) {pos : Nat} {cs : List Char} {ls : List Lexeme}
      (rest : Lexes (pos + 1) cs ls) : Lexes pos (m.char :: cs) (⟨.mark m, pos⟩ :: ls)
  | name {word : List Char} {pos : Nat} {cs : List Char} {ls : List Lexeme} (nonempty : word ≠ [])
      (chars : ∀ c ∈ word, isNameChar c = true)
      (longest : ∀ c ∈ cs.head?, isNameChar c = false)
      (rest : Lexes (pos + word.length) cs ls) :
      Lexes pos (word ++ cs) (⟨.name (String.ofList word), pos⟩ :: ls)

theorem Lexes.isLegal (h : Lexes pos cs ls) : ∀ c ∈ cs, isLegal c = true := by
  induction h with
  | nil => simp
  | blank hb _ ih => exact List.forall_mem_cons.mpr ⟨by simp [Token.isLegal, hb], ih⟩
  | mark m _ ih => exact List.forall_mem_cons.mpr ⟨by simp [Token.isLegal, ofChar?_char], ih⟩
  | name _ chars _ _ ih =>
    exact List.forall_mem_append.mpr ⟨fun c hc => by simp [Token.isLegal, chars c hc], ih⟩

/-! ## 2. The scanner gives these tokens -/

/-- A name that has not ended yet ends before a character that cannot stand in it. -/
theorem lexes_nameEnding {run : List Char} (hrun : ∀ c ∈ run, isNameChar c = true)
    (hpos : run.length ≤ pos) (longest : ∀ c ∈ cs.head?, isNameChar c = false)
    (h : Lexes pos cs ls) :
    Lexes (pos - run.length) (run.reverse ++ cs) (nameEnding run pos ++ ls) := by
  cases run with
  | nil => exact h
  | cons c run =>
    have hword : (c :: run).reverse ≠ [] := by simp
    have hchars : ∀ d ∈ (c :: run).reverse, isNameChar d = true := fun d hd =>
      hrun d (List.mem_reverse.mp hd)
    have hstart : pos - (c :: run).length + (c :: run).reverse.length = pos := by
      rw [List.length_reverse]
      exact Nat.sub_add_cancel hpos
    exact .name hword hchars longest (by rwa [hstart])

theorem lexes_scan : ∀ (cs : List Char) (pos : Nat) (run : List Char),
    (∀ c ∈ cs, isLegal c = true) → (∀ c ∈ run, isNameChar c = true) → run.length ≤ pos →
      Lexes (pos - run.length) (run.reverse ++ cs) (scan cs pos run)
  | [], pos, run, _, hrun, hpos => by
    simpa [scan] using lexes_nameEnding hrun hpos (by simp) .nil
  | c :: cs, pos, run, h, hrun, hpos => by
    obtain ⟨hc, hcs⟩ := List.forall_mem_cons.mp h
    unfold scan
    split
    · rename_i hname
      have hrest := lexes_scan cs (pos + 1) (c :: run) hcs (List.forall_mem_cons.mpr ⟨hname, hrun⟩)
        (Nat.succ_le_succ hpos)
      simpa using hrest
    · rename_i hname
      rw [Bool.not_eq_true] at hname
      have hrest := lexes_scan cs (pos + 1) [] hcs (by simp) (Nat.zero_le _)
      split
      · rename_i m hm
        rw [← ofChar?_eq_some hm] at hname ⊢
        exact lexes_nameEnding hrun hpos (by simpa using hname) (hrest.mark m)
      · rename_i hm
        exact lexes_nameEnding hrun hpos (by simpa using hname)
          (hrest.blank (isBlank_of_isLegal hc hname hm))

/-- The scanner gives no other tokens. -/
theorem Lexes.scan_eq (h : Lexes pos cs ls) : scan cs pos [] = ls := by
  induction h with
  | nil => rfl
  | blank hb _ ih => simp [scan, isNameChar_of_isBlank hb, ofChar?_of_isBlank hb, nameEnding, ih]
  | mark m _ ih => simp [scan, isNameChar_char, ofChar?_char, nameEnding, ih]
  | name nonempty chars longest _ ih =>
    rw [scan_append_name chars, scan_of_head longest, ih]
    simp [nameEnding, nonempty]

/-! ## 3. Whole texts -/

variable {s : String}

/-- **The tokens of a text** stand where their characters do. -/
theorem tokenize_eq_ok_iff : tokenize s = .ok ls ↔ Lexes 0 s.toList ls := by
  constructor
  · intro h
    unfold tokenize at h
    split at h
    · simp at h
    · rename_i hlegal
      obtain rfl := Except.ok.inj h
      exact lexes_scan s.toList 0 [] (firstIllegal?_eq_none_iff.mp hlegal) (by simp) (Nat.le_refl 0)
  · intro h
    have hlegal : firstIllegal? s.toList 0 = none := firstIllegal?_eq_none_iff.mpr h.isLegal
    simp only [tokenize, hlegal, h.scan_eq]

/-- Legal characters are passed over by the search for an illegal one. -/
theorem firstIllegal?_append : ∀ {before : List Char}, (∀ c ∈ before, isLegal c = true) →
    ∀ (cs : List Char) (pos : Nat),
      firstIllegal? (before ++ cs) pos = firstIllegal? cs (pos + before.length)
  | [], _, _, _ => rfl
  | c :: before, h, cs, pos => by
    obtain ⟨hc, hbefore⟩ := List.forall_mem_cons.mp h
    rw [List.cons_append, firstIllegal?, if_pos hc, firstIllegal?_append hbefore, List.length_cons,
      Nat.add_assoc, Nat.add_comm 1]

/-- **The first illegal character** is reported, with the number of characters before it. -/
theorem tokenize_of_illegal {before after : List Char} {c : Char}
    (hs : s.toList = before ++ c :: after) (hbefore : ∀ d ∈ before, isLegal d = true)
    (hc : isLegal c = false) : tokenize s = .error (c, before.length) := by
  have hfirst : firstIllegal? s.toList 0 = some (c, before.length) := by
    rw [hs, firstIllegal?_append hbefore]
    simp [firstIllegal?, hc]
  simp only [tokenize, hfirst]

end Token

end Clausal

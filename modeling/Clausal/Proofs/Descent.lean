/-
# Reading by recursive descent

The grammar can also be read with one routine for each of its rules, where the routines for terms
and applications call each other.  A routine is given an index into the tokens of the text, behind
which an end marker stands (`spots`); it either looks at the token at an index or reads it, and gives
the index that it has come to.  What it gives has its proof that the index has moved on
(`Stretch`), by which the routines end.  But nothing in them keeps the index from running behind the
end marker: if a routine looks there, the descent ends in `Failure.beyond`.

That does not happen.  A descent has the same result as `Reading.run` (`Follows`): where it has read a
part of the text the automaton comes to the same rest of the tokens, and where it is refused the automaton
stops at the same token and asks for the same.
-/
import Clausal.Proofs.Grammar

namespace Clausal

/-! ## 1. The routines -/

/-- A token of a text, or its end. -/
structure Spot where
  /-- The token, or nothing at the end. -/
  token : Option Token
  /-- The number of characters before it. -/
  pos : Nat

/-- The tokens of a text of the given length, and the end marker. -/
def spots (ls : List Lexeme) (length : Nat) : List Spot :=
  ls.map (fun l => ⟨some l.token, l.pos⟩) ++ [⟨none, length⟩]

/-- Whether a token, or the end, is what is wanted. -/
def Wanted.admits : Wanted → Option Token → Bool
  | name, some (.name _) => true
  | mark m, some (.mark m') => m = m'
  | ending, none => true
  | _, _ => false

theorem Wanted.admits_name {t : Token} : Wanted.name.admits (some t) = true ↔ ∃ x, t = .name x := by
  cases t <;> simp [admits]

theorem Wanted.admits_mark {m : Mark} {t : Token} :
    (Wanted.mark m).admits (some t) = true ↔ t = .mark m := by
  cases t with
  | name x => simp [admits]
  | mark m' => simp [admits, eq_comm]

namespace Descent

/-- Why a descent gives no result. -/
inductive Failure where
  /-- At this index there is not what is wanted. -/
  | refused (wanted : Wanted) (i : Nat)
  /-- The index is behind the end marker. -/
  | beyond

section Routines

variable (ss : List Spot)

/-- What is read from an index on: a value, and the index behind it. -/
structure Stretch (α : Type) (i : Nat) where
  value : α
  next : Nat
  lt : i < next
  le : next ≤ ss.length

/-- A stretch that begins earlier, and has another value. -/
def Stretch.since {ss : List Spot} {α β : Type} {i j : Nat} (r : Stretch ss α j) (h : i ≤ j)
    (b : β) : Stretch ss β i :=
  ⟨b, r.next, Nat.lt_of_le_of_lt h r.lt, r.le⟩

/-- Looks at the token at an index. -/
def peek (i : Nat) : Except Failure (Option Token) :=
  match ss[i]? with
  | some spot => .ok spot.token
  | none => .error .beyond

/-- Reads the token at an index, which must be what is wanted, and gives what is written there. -/
def expect (wanted : Wanted) (i : Nat) : Except Failure (Stretch ss String i) :=
  if h : i < ss.length then
    if wanted.admits ss[i].token then
      .ok ⟨(ss[i].token.map Token.text).getD "", i + 1, Nat.lt_succ_self i, h⟩
    else .error (.refused wanted i)
  else .error .beyond

mutual

/-- Reads an application. -/
def application (i : Nat) : Except Failure (Stretch ss OpenApplication i) := do
  let f ← expect ss .name i
  let opening ← expect ss (.mark .lparen) f.next
  have hi : i ≤ opening.next := Nat.le_of_lt (Nat.lt_trans f.lt opening.lt)
  if (← peek ss opening.next) = some (.mark .rparen) then
    let closing ← expect ss (.mark .rparen) opening.next
    return closing.since hi ⟨f.value, []⟩
  else
    let t ← term opening.next
    let a ← arguments ⟨f.value, [t.value]⟩ t.next
    return a.since (Nat.le_trans hi (Nat.le_of_lt t.lt)) a.value
termination_by 2 * (ss.length - i)
decreasing_by
  · have := f.lt
    have := opening.lt
    have := opening.le
    omega
  · have := Nat.lt_trans f.lt opening.lt
    have := t.lt
    have := t.le
    omega

/-- Reads the arguments behind those that were read, and the parenthesis. -/
def arguments (a : OpenApplication) (i : Nat) : Except Failure (Stretch ss OpenApplication i) := do
  if (← peek ss i) = some (.mark .comma) then
    let comma ← expect ss (.mark .comma) i
    let t ← term comma.next
    let a ← arguments (a.push t.value) t.next
    return a.since (Nat.le_of_lt (Nat.lt_trans comma.lt t.lt)) a.value
  else
    let closing ← expect ss (.mark .rparen) i
    return closing.since (Nat.le_refl i) a
termination_by 2 * (ss.length - i)
decreasing_by
  · have := comma.lt
    have := comma.le
    omega
  · have := Nat.lt_trans comma.lt t.lt
    have := t.le
    omega

/-- Reads a term. -/
def term (i : Nat) : Except Failure (Stretch ss Term i) := do
  if (← peek ss i) = some (.mark .lbracket) then
    let opening ← expect ss (.mark .lbracket) i
    let x ← expect ss .name opening.next
    let closing ← expect ss (.mark .rbracket) x.next
    return closing.since (Nat.le_of_lt (Nat.lt_trans opening.lt x.lt)) (.var x.value)
  else
    let a ← application i
    return a.since (Nat.le_refl i) (.app a.value.functor a.value.args)
termination_by 2 * (ss.length - i) + 1

end

/-- Reads a literal. -/
def literal (i : Nat) : Except Failure (Stretch ss Literal i) := do
  if (← peek ss i) = some (.mark .bang) then
    let bang ← expect ss (.mark .bang) i
    let a ← application ss bang.next
    return a.since (Nat.le_of_lt bang.lt) ⟨true, a.value.functor, a.value.args⟩
  else
    let a ← application ss i
    return a.since (Nat.le_refl i) ⟨false, a.value.functor, a.value.args⟩

/-- Reads a part, and the end behind it. -/
def whole {α : Type} {i : Nat} (part : Except Failure (Stretch ss α i)) :
    Except Failure (Stretch ss α i) := do
  let a ← part
  let ending ← expect ss .ending a.next
  return ending.since (Nat.le_of_lt a.lt) a.value

end Routines

/-! ## 2. Descents that stay within the tokens -/

section Ends

variable {γ δ : Type} {m : Except Failure γ} {done : γ → Prop} {stuck : Wanted → Nat → Prop}

/-- The descent does not look behind the end marker: it has a result, or it is refused. -/
def Ends (m : Except Failure γ) (done : γ → Prop) (stuck : Wanted → Nat → Prop) : Prop :=
  (∃ r, m = .ok r ∧ done r) ∨ ∃ wanted j, m = .error (.refused wanted j) ∧ stuck wanted j

/-- The next routine goes on from what the first one has read. -/
theorem Ends.bind {f : γ → Except Failure δ} {done' : δ → Prop} (h : Ends m done stuck)
    (hf : ∀ r, done r → Ends (f r) done' stuck) : Ends (m >>= f) done' stuck := by
  rcases h with ⟨r, rfl, hr⟩ | ⟨wanted, j, rfl, hw⟩
  · exact hf r hr
  · exact Or.inr ⟨wanted, j, rfl, hw⟩

theorem Ends.mono {done' : γ → Prop} {stuck' : Wanted → Nat → Prop} (h : Ends m done stuck)
    (hdone : ∀ r, done r → done' r) (hstuck : ∀ wanted j, stuck wanted j → stuck' wanted j) :
    Ends m done' stuck' := by
  rcases h with ⟨r, hm, hr⟩ | ⟨wanted, j, hm, hw⟩
  · exact Or.inl ⟨r, hm, hdone r hr⟩
  · exact Or.inr ⟨wanted, j, hm, hstuck wanted j hw⟩

end Ends

/-! ## 3. Descents that follow the automaton -/

section Follows

variable {α β ρ : Type} {ls : List Lexeme} {ss : List Spot} {n i k : Nat}
  {m : Except Failure (Stretch ss α i)} {result : Except Mismatch ρ}
  {next : α → List Lexeme → Except Mismatch ρ}

/-- There is something at every index up to that of the end marker. -/
theorem getElem?_spots (n : Nat) (h : i ≤ ls.length) :
    (spots ls n)[i]? = some ⟨ls[i]?.map Lexeme.token, (ls[i]?.map Lexeme.pos).getD n⟩ := by
  unfold spots
  rcases Nat.lt_or_eq_of_le h with hlt | rfl
  · rw [List.getElem?_append_left (by simpa using hlt), List.getElem?_map,
      List.getElem?_eq_getElem hlt]
    rfl
  · rw [List.getElem?_append_right (by simp)]
    simp

theorem peek_spots (h : i ≤ ls.length) :
    peek (spots ls n) i = .ok (ls[i]?.map Lexeme.token) := by
  rw [peek, getElem?_spots n h]

theorem expect_spots {wanted : Wanted} (h : i ≤ ls.length) :
    Ends (expect (spots ls n) wanted i)
      (fun r => wanted.admits (ls[i]?.map Lexeme.token) = true ∧ r.next = i + 1 ∧
        r.value = ((ls[i]?.map Lexeme.token).map Token.text).getD "")
      fun w j => w = wanted ∧ j = i ∧ wanted.admits (ls[i]?.map Lexeme.token) = false := by
  obtain ⟨hlt, hspot⟩ := List.getElem?_eq_some_iff.mp (getElem?_spots n h)
  unfold expect
  rw [dif_pos hlt]
  simp only [hspot]
  split
  · rename_i hadmits
    exact Or.inl ⟨_, rfl, hadmits, rfl, rfl⟩
  · rename_i hadmits
    exact Or.inr ⟨_, _, rfl, rfl, rfl, by simpa using hadmits⟩

theorem drop_of_some {l : Lexeme} (hl : ls[i]? = some l) : ls.drop i = l :: ls.drop (i + 1) := by
  obtain ⟨hlt, rfl⟩ := List.getElem?_eq_some_iff.mp hl
  exact List.drop_eq_getElem_cons hlt

theorem drop_of_none (hl : ls[i]? = none) : ls.drop i = [] :=
  List.drop_eq_nil_of_le (List.getElem?_eq_none_iff.mp hl)

/-- A routine leads to a result: what it reads leaves this result to be found from the rest of the
tokens, and where it is refused the result is this mismatch. -/
def Follows (ls : List Lexeme) (m : Except Failure (Stretch ss α i)) (result : Except Mismatch ρ)
    (next : α → List Lexeme → Except Mismatch ρ) : Prop :=
  Ends m (fun r => r.next ≤ ls.length ∧ next r.value (ls.drop r.next) = result)
    fun wanted j => j ≤ ls.length ∧ result = .error ⟨wanted, ls[j]?⟩

theorem Follows.bind {f : Stretch ss α i → Except Failure (Stretch ss β k)}
    {next' : β → List Lexeme → Except Mismatch ρ} (h : Follows ls m result next)
    (hf : ∀ r, r.next ≤ ls.length → Follows ls (f r) (next r.value (ls.drop r.next)) next') :
    Follows ls (m >>= f) result next' := by
  refine Ends.bind h fun r hr => ?_
  obtain ⟨hle, rfl⟩ := hr
  exact hf r hle

/-- What is made of a stretch goes on as the stretch does. -/
theorem Follows.since {hk : k ≤ i} {g : Stretch ss α i → β}
    {next' : β → List Lexeme → Except Mismatch ρ} (h : Follows ls m result next)
    (hnext : ∀ r, next' (g r) = next r.value) :
    Follows ls (m >>= fun r => pure (r.since hk (g r))) result next' := by
  refine Ends.bind h fun r hr => Or.inl ⟨_, rfl, hr.1, ?_⟩
  rw [← hr.2, ← hnext r]
  rfl

/-- To look at a token is allowed up to the end marker. -/
theorem Follows.peek_bind {f : Option Token → Except Failure (Stretch ss α i)} (hk : k ≤ ls.length)
    (h : Follows ls (f (ls[k]?.map Lexeme.token)) result next) :
    Follows ls (peek (spots ls n) k >>= f) result next := by
  rw [peek_spots hk]
  exact h

/-- Any token but the end may be read: the rest has to lead to the result if the token is what is
wanted, and the result has to be the mismatch if it is not. -/
theorem follows_expect {next : String → List Lexeme → Except Mismatch ρ} {wanted : Wanted}
    (hi : i ≤ ls.length) (hend : wanted.admits none = false)
    (hfit : ∀ l, ls[i]? = some l → wanted.admits (some l.token) = true →
      next l.token.text (ls.drop (i + 1)) = result)
    (hmiss : (∀ l, ls[i]? = some l → wanted.admits (some l.token) = false) →
      result = .error ⟨wanted, ls[i]?⟩) :
    Follows ls (expect (spots ls n) wanted i) result next := by
  refine (expect_spots hi).mono (fun r hr => ?_) fun w j hj => ?_
  · obtain ⟨hadmits, hnext, hvalue⟩ := hr
    cases hl : ls[i]? with
    | none => simp [hl, hend] at hadmits
    | some l =>
      rw [hl] at hadmits hvalue
      rw [hnext, hvalue]
      exact ⟨(List.getElem?_eq_some_iff.mp hl).1, hfit l hl hadmits⟩
  · obtain ⟨rfl, rfl, hnot⟩ := hj
    refine ⟨hi, hmiss fun l hl => ?_⟩
    rwa [hl] at hnot

/-- A mark that is seen to come may be read. -/
theorem follows_seen {next : List Lexeme → Except Mismatch ρ} {mk : Mark}
    (hseen : ls[i]?.map Lexeme.token = some (.mark mk))
    (hnext : ∀ l, ls[i]? = some l → l.token = .mark mk → next (ls.drop (i + 1)) = result) :
    Follows ls (expect (spots ls n) (.mark mk) i) result fun _ => next := by
  obtain ⟨l, hl, htoken⟩ := Option.map_eq_some_iff.mp hseen
  have hi : i ≤ ls.length := Nat.le_of_lt (List.getElem?_eq_some_iff.mp hl).1
  refine follows_expect hi rfl (fun l' hl' hadmits => ?_) fun hnot => ?_
  · exact hnext l' hl' (Wanted.admits_mark.mp hadmits)
  · exact absurd (Wanted.admits_mark.mpr htoken) (by simp [hnot l hl])

/-- A name may be read where the automaton takes a name and nothing else. -/
theorem follows_expect_name {start : List Lexeme → Except Mismatch ρ}
    {next : String → List Lexeme → Except Mismatch ρ} (hi : i ≤ ls.length)
    (hname : ∀ l rest x, l.token = .name x → start (l :: rest) = next x rest)
    (hmark : ∀ l rest mk, l.token = .mark mk → start (l :: rest) = .error ⟨.name, some l⟩)
    (hnil : start [] = .error ⟨.name, none⟩) :
    Follows ls (expect (spots ls n) .name i) (start (ls.drop i)) next := by
  refine follows_expect hi rfl (fun l hl hadmits => ?_) fun hnot => ?_
  · obtain ⟨x, htoken⟩ := Wanted.admits_name.mp hadmits
    rw [drop_of_some hl, hname l _ x htoken, htoken, Token.text]
  · cases hl : ls[i]? with
    | none => rw [drop_of_none hl, hnil]
    | some l =>
      rw [drop_of_some hl]
      cases htoken : l.token with
      | name x => exact absurd (Wanted.admits_name.mpr ⟨x, htoken⟩) (by simp [hnot l hl])
      | mark mk => exact hmark l _ mk htoken

/-- What is made of the result. -/
theorem Follows.map {σ : Type} (g : ρ → σ) (h : Follows ls m result next) :
    Follows ls m (result.map g) fun a rest => (next a rest).map g := by
  refine Ends.mono h (fun r hr => ?_) fun wanted j hj => ?_
  · obtain ⟨hle, rfl⟩ := hr
    exact ⟨hle, rfl⟩
  · obtain ⟨hle, rfl⟩ := hj
    exact ⟨hle, rfl⟩

end Follows

/-! ## 4. The rules of the grammar -/

section Rules

variable {ls : List Lexeme} {n i : Nat} {l : Lexeme} {inner : OpenApplication}
  {outer : List OpenApplication} {awaiting : Awaiting}

open Reading

theorem run_drop_of_step {r r' : Reading} (hl : ls[i]? = some l) (h : r.step l.token = some r') :
    r.run (ls.drop i) = r'.run (ls.drop (i + 1)) := by
  rw [drop_of_some hl, run, h]

theorem run_drop_of_none
    (h : ∀ l, ls[i]? = some l → (within inner outer awaiting).step l.token = none) :
    (within inner outer awaiting).run (ls.drop i) =
      .error ⟨(within inner outer awaiting).wanted, ls[i]?⟩ := by
  cases hl : ls[i]? with
  | none =>
    rw [drop_of_none hl]
    rfl
  | some l => rw [drop_of_some hl, run, h l hl]

/-- A reading that waits for a mark takes no other token, but for a comma between two arguments. -/
theorem step_eq_none {mk : Mark} {t : Token}
    (hwanted : (within inner outer awaiting).wanted = .mark mk) (hne : t ≠ .mark mk)
    (hcomma : awaiting = .separator → t ≠ .mark .comma) :
    (within inner outer awaiting).step t = none := by
  cases t with
  | name x => cases awaiting <;> simp_all [wanted, step]
  | mark mk' => cases awaiting <;> cases mk' <;> simp_all [wanted, step]

/-- The automaton reads a mark that is seen to come. -/
theorem follows_seen_run {r r' : Reading} {mk : Mark}
    (hseen : ls[i]?.map Lexeme.token = some (.mark mk)) (hstep : r.step (.mark mk) = some r') :
    Follows ls (expect (spots ls n) (.mark mk) i) (r.run (ls.drop i)) fun _ => r'.run :=
  follows_seen hseen fun _ hl htoken => (run_drop_of_step hl (htoken ▸ hstep)).symm

/-- The automaton reads the mark that it waits for, and stops where it does not come. -/
theorem follows_mark {mk : Mark} {r' : Reading} (hi : i ≤ ls.length)
    (hwanted : (within inner outer awaiting).wanted = .mark mk)
    (hcomma : awaiting = .separator → ls[i]?.map Lexeme.token ≠ some (.mark .comma))
    (hfit : (within inner outer awaiting).step (.mark mk) = some r') :
    Follows ls (expect (spots ls n) (.mark mk) i) ((within inner outer awaiting).run (ls.drop i))
      fun _ => r'.run := by
  refine follows_expect hi rfl (fun l hl hadmits => ?_) fun hnot => ?_
  · have htoken := Wanted.admits_mark.mp hadmits
    exact (run_drop_of_step hl (htoken ▸ hfit)).symm
  · rw [← hwanted]
    refine run_drop_of_none fun l hl => step_eq_none hwanted (fun htoken => ?_) fun hsep htoken => ?_
    · exact absurd (Wanted.admits_mark.mpr htoken) (by simp [hnot l hl])
    · exact hcomma hsep (by rw [hl, Option.map_some, htoken])

/-- The automaton at an application inside others, none of whose tokens have been read. -/
def openIn (outer : List OpenApplication) : List Lexeme → Except Mismatch (String × List Term)
  | ⟨.name f, _⟩ :: ls => (within ⟨f, []⟩ outer .arguments).run ls
  | ls => .error ⟨.name, ls.head?⟩

theorem openIn_of_name {f : String} (h : l.token = .name f) :
    openIn outer (l :: ls) = (within ⟨f, []⟩ outer .arguments).run ls := by
  obtain ⟨t, pos⟩ := l
  subst h
  rfl

theorem openIn_of_mark {mk : Mark} (h : l.token = .mark mk) :
    openIn outer (l :: ls) = .error ⟨.name, some l⟩ := by
  obtain ⟨t, pos⟩ := l
  subst h
  rfl

/-- The routine for terms follows the automaton where a term comes behind a comma. -/
def FollowsTerm (ls : List Lexeme) (n i : Nat) : Prop :=
  ∀ (inner : OpenApplication) (outer : List OpenApplication),
    Follows ls (term (spots ls n) i) ((within inner outer .argument).run (ls.drop i))
      fun t => (within (inner.push t) outer .separator).run

/-- The first argument is read as the later ones are, unless the parenthesis comes. -/
theorem run_firstArgument (h : ls[i]?.map Lexeme.token ≠ some (.mark .rparen)) :
    (within inner outer .firstArgument).run (ls.drop i) =
      (within inner outer .argument).run (ls.drop i) := by
  cases hl : ls[i]? with
  | none =>
    rw [drop_of_none hl]
    rfl
  | some l =>
    have hstep : (within inner outer .firstArgument).step l.token =
        (within inner outer .argument).step l.token := by
      rw [hl] at h
      cases htoken : l.token with
      | name f => rfl
      | mark mk => cases mk <;> simp_all [step]
    rw [drop_of_some hl]
    simp only [run, hstep, wanted]

/-- An argument is read as an application, unless a bracket comes. -/
theorem run_argument (h : ls[i]?.map Lexeme.token ≠ some (.mark .lbracket)) :
    (within inner outer .argument).run (ls.drop i) = openIn (inner :: outer) (ls.drop i) := by
  cases hl : ls[i]? with
  | none =>
    rw [drop_of_none hl]
    rfl
  | some l =>
    rw [hl] at h
    rw [drop_of_some hl]
    cases htoken : l.token with
    | name f => rw [openIn_of_name htoken, run, htoken, step, beginTerm]
    | mark mk =>
      rw [openIn_of_mark htoken, run, htoken]
      cases mk <;> simp_all [step, beginTerm, wanted]

/-- **The arguments** behind the first one: by induction on the number of tokens that are left. -/
theorem follows_arguments {i : Nat} (hi : i ≤ ls.length)
    (hterm : ∀ j, i < j → j ≤ ls.length → FollowsTerm ls n j) (a : OpenApplication)
    (outer : List OpenApplication) :
    Follows ls (arguments (spots ls n) a i) ((within a outer .separator).run (ls.drop i))
      fun a' => (close a' outer).run := by
  rw [arguments]
  refine Follows.peek_bind hi ?_
  split
  · rename_i hcomma
    refine (follows_seen_run hcomma rfl).bind fun comma hle => ?_
    refine (hterm comma.next comma.lt hle a outer).bind fun t hle' => ?_
    have hi' : i < t.next := Nat.lt_trans comma.lt t.lt
    have hrest := follows_arguments hle' (fun j hj => hterm j (Nat.lt_trans hi' hj))
      (a.push t.value) outer
    exact hrest.since fun _ => rfl
  · rename_i hcomma
    have hclose : Follows ls (expect (spots ls n) (.mark .rparen) i)
        ((within a outer .separator).run (ls.drop i)) fun _ => (close a outer).run :=
      follows_mark hi rfl (fun _ => hcomma) rfl
    exact hclose.since fun _ => rfl
termination_by ls.length - i

/-- **An application**, if terms behind its beginning are followed. -/
theorem follows_application (hi : i ≤ ls.length)
    (hterm : ∀ j, i < j → j ≤ ls.length → FollowsTerm ls n j) (outer : List OpenApplication) :
    Follows ls (application (spots ls n) i) (openIn outer (ls.drop i))
      fun a => (close a outer).run := by
  rw [application]
  have hname : Follows ls (expect (spots ls n) .name i) (openIn outer (ls.drop i))
      fun f => (within ⟨f, []⟩ outer .arguments).run :=
    follows_expect_name hi (fun _ _ _ => openIn_of_name) (fun _ _ _ => openIn_of_mark) rfl
  refine hname.bind fun f hle => ?_
  have hparen : Follows ls (expect (spots ls n) (.mark .lparen) f.next)
      ((within ⟨f.value, []⟩ outer .arguments).run (ls.drop f.next))
      fun _ => (within ⟨f.value, []⟩ outer .firstArgument).run :=
    follows_mark hle rfl (by simp) rfl
  refine hparen.bind fun opening hle' => ?_
  have hi' : i < opening.next := Nat.lt_trans f.lt opening.lt
  refine Follows.peek_bind hle' ?_
  split
  · rename_i hclose
    exact (follows_seen_run hclose rfl).since fun _ => rfl
  · rename_i hclose
    rw [run_firstArgument hclose]
    refine (hterm opening.next hi' hle' ⟨f.value, []⟩ outer).bind fun t hle'' => ?_
    have hrest := follows_arguments hle''
      (fun j hj => hterm j (Nat.lt_trans hi' (Nat.lt_trans t.lt hj))) ⟨f.value, [t.value]⟩ outer
    exact hrest.since fun _ => rfl

/-- **A term** behind a comma: by induction on the number of tokens that are left. -/
theorem follows_term {i : Nat} (hi : i ≤ ls.length) : FollowsTerm ls n i := by
  intro inner outer
  rw [term]
  refine Follows.peek_bind hi ?_
  split
  · rename_i hbracket
    refine (follows_seen_run hbracket rfl).bind fun opening hle => ?_
    have hname : Follows ls (expect (spots ls n) .name opening.next)
        ((within inner outer .variableName).run (ls.drop opening.next))
        fun x => (within inner outer (.bracket x)).run := by
      refine follows_expect_name hle (fun l rest x htoken => ?_) (fun l rest mk htoken => ?_) rfl
      · rw [run, htoken]
        rfl
      · rw [run, htoken]
        rfl
    refine hname.bind fun x hle' => ?_
    have hclose : Follows ls (expect (spots ls n) (.mark .rbracket) x.next)
        ((within inner outer (.bracket x.value)).run (ls.drop x.next))
        fun _ => (within (inner.push (.var x.value)) outer .separator).run :=
      follows_mark hle' rfl (by simp) rfl
    exact hclose.since fun _ => rfl
  · rename_i hbracket
    rw [run_argument hbracket]
    have happlication := follows_application hi (fun j hj hle => follows_term hle) (inner :: outer)
    exact happlication.since fun _ => rfl
termination_by ls.length - i

end Rules

/-! ## 5. Whole texts -/

section Whole

variable {α : Type} {ls : List Lexeme} {n : Nat}

open Lexeme Reading

/-- What is read is the result if no token comes after it. -/
def finish (a : α) : List Lexeme → Except Mismatch α
  | [] => .ok a
  | l :: _ => .error ⟨.ending, some l⟩

theorem map_run_close {g : String × List Term → α} (a : OpenApplication) (rest : List Lexeme) :
    ((close a []).run rest).map g = finish (g (a.functor, a.args)) rest := by
  cases rest <;> rfl

theorem readApplication_eq_openIn (ls : List Lexeme) : readApplication ls = openIn [] ls := rfl

/-- The routine for applications, where nothing is around them. -/
theorem follows_readApplication {i : Nat} (hi : i ≤ ls.length) (g : String × List Term → α) :
    Follows ls (application (spots ls n) i) ((readApplication (ls.drop i)).map g)
      fun a => finish (g (a.functor, a.args)) := by
  have h := (follows_application hi (fun j _ hle => follows_term (n := n) hle) []).map g
  rw [readApplication_eq_openIn]
  simpa only [map_run_close] using h

/-- **The routine for literals** follows the automaton. -/
theorem follows_readLiteral : Follows ls (literal (spots ls n) 0) (readLiteral ls) finish := by
  refine Follows.peek_bind (Nat.zero_le _) ?_
  split
  · rename_i hbang
    have hnegate : Follows ls (expect (spots ls n) (.mark .bang) 0) (readLiteral ls)
        fun _ rest => (readApplication rest).map fun r => ⟨true, r.1, r.2⟩ := by
      refine follows_seen hbang fun l hl htoken => ?_
      obtain ⟨t, pos⟩ := l
      subst htoken
      rw [← List.drop_zero (l := ls), drop_of_some hl]
      rfl
    exact hnegate.bind fun bang hle => (follows_readApplication hle _).since fun _ => rfl
  · rename_i hbang
    have hread : readLiteral ls = (readApplication ls).map fun r => ⟨false, r.1, r.2⟩ := by
      unfold readLiteral
      split
      · exact absurd rfl hbang
      · rfl
    rw [hread]
    exact (follows_readApplication (Nat.zero_le _) _).since fun _ => rfl

/-- The automaton behind the first bracket of a variable, and the name. -/
def readBracket (x : String) : List Lexeme → Except Mismatch Term
  | ⟨.mark .rbracket, _⟩ :: ls => finish (.var x) ls
  | ls => .error ⟨.mark .rbracket, ls.head?⟩

theorem readVariable_of_name {l : Lexeme} {x : String} (h : l.token = .name x) :
    readVariable (l :: ls) = readBracket x ls := by
  obtain ⟨t, pos⟩ := l
  subst h
  unfold readBracket
  split
  · rename_i ls
    cases ls <;> rfl
  · rename_i hbracket
    unfold readVariable
    split <;> simp_all

theorem readVariable_of_mark {l : Lexeme} {mk : Mark} (h : l.token = .mark mk) :
    readVariable (l :: ls) = .error ⟨.name, some l⟩ := by
  obtain ⟨t, pos⟩ := l
  subst h
  rfl

theorem readBracket_of_mark {l : Lexeme} {x : String} (h : l.token = .mark .rbracket) :
    readBracket x (l :: ls) = finish (.var x) ls := by
  obtain ⟨t, pos⟩ := l
  subst h
  rfl

/-- **The routine for terms** follows the automaton where nothing is around the term. -/
theorem follows_readTerm : Follows ls (term (spots ls n) 0) (readTerm ls) finish := by
  rw [term]
  refine Follows.peek_bind (Nat.zero_le _) ?_
  split
  · rename_i hbracket
    have hopen : Follows ls (expect (spots ls n) (.mark .lbracket) 0) (readTerm ls)
        fun _ => readVariable := by
      refine follows_seen hbracket fun l hl htoken => ?_
      obtain ⟨t, pos⟩ := l
      subst htoken
      rw [← List.drop_zero (l := ls), drop_of_some hl]
      rfl
    refine hopen.bind fun opening hle => ?_
    have hname : Follows ls (expect (spots ls n) .name opening.next)
        (readVariable (ls.drop opening.next)) readBracket :=
      follows_expect_name hle (fun _ _ _ => readVariable_of_name) (fun _ _ _ => readVariable_of_mark)
        rfl
    refine hname.bind fun x hle' => ?_
    have hclose : Follows ls (expect (spots ls n) (.mark .rbracket) x.next)
        (readBracket x.value (ls.drop x.next)) fun _ => finish (.var x.value) := by
      refine follows_expect hle' rfl (fun l hl hadmits => ?_) fun hnot => ?_
      · rw [drop_of_some hl, readBracket_of_mark (Wanted.admits_mark.mp hadmits)]
      · have hhead : (ls.drop x.next).head? = ls[x.next]? := List.head?_drop
        rw [← hhead]
        unfold readBracket
        split
        · rename_i h
          rw [h] at hhead
          exact absurd (hnot _ hhead.symm) (by simp [Wanted.admits])
        · rfl
    exact hclose.since fun _ => rfl
  · rename_i hbracket
    have hread : readTerm ls = (readApplication ls).map fun r => .app r.1 r.2 := by
      unfold readTerm
      split
      · exact absurd rfl hbracket
      · rfl
    rw [hread]
    exact (follows_readApplication (Nat.zero_le _) _).since fun _ => rfl

/-- **A whole text**: the descent reads the end marker, or it is refused at a token or the end
marker. -/
theorem ends_whole {part : Except Failure (Stretch (spots ls n) α 0)} {result : Except Mismatch α}
    (h : Follows ls part result finish) :
    Ends (whole (spots ls n) part) (fun r => r.next = ls.length + 1 ∧ result = .ok r.value)
      fun wanted j => j ≤ ls.length ∧ result = .error ⟨wanted, ls[j]?⟩ := by
  refine Ends.bind h fun a ha => ?_
  obtain ⟨hle, rfl⟩ := ha
  have hending : Ends (expect (spots ls n) .ending a.next)
      (fun r => r.next = ls.length + 1 ∧ finish a.value (ls.drop a.next) = .ok a.value)
      fun wanted j => j ≤ ls.length ∧
        finish a.value (ls.drop a.next) = .error ⟨wanted, ls[j]?⟩ := by
    refine (expect_spots hle).mono (fun r hr => ?_) fun w j hj => ?_
    · obtain ⟨hadmits, hnext, -⟩ := hr
      cases hl : ls[a.next]? with
      | none =>
        have hall : a.next = ls.length := Nat.le_antisymm hle (List.getElem?_eq_none_iff.mp hl)
        exact ⟨by rw [hnext, hall], by rw [drop_of_none hl, finish]⟩
      | some l => simp [hl, Wanted.admits] at hadmits
    · obtain ⟨rfl, rfl, hnot⟩ := hj
      cases hl : ls[a.next]? with
      | none => simp [hl, Wanted.admits] at hnot
      | some l => exact ⟨hle, by rw [drop_of_some hl, finish]⟩
  exact Ends.bind hending fun r hr => Or.inl ⟨_, rfl, hr⟩

end Whole

end Descent

end Clausal

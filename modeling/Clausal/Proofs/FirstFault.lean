/-
# Errors point at the first fault

A text goes wrong at the first token that no written form could have there: the tokens before it begin
some written form, and with it they begin none.  The end of a text counts as a token here, so a text
that breaks off goes wrong at its end (`GoesWrongAt`).  A text that is refused, and has no illegal
character, is refused at this place; an illegal character counts before all others.

That the tokens before the place begin a written form is seen from the reading that has read them:
whatever it waits for can be given to it, after which the open applications are closed
(`Reading.completes`).  That with the next token they do not is seen from the other side, since the
tokens of a written form lead through the same reading (`Reading.readAll_application`).
-/
import Clausal.Proofs.Descent
import Clausal.Proofs.Positions

namespace Clausal

/-! ## 1. Where tokens go wrong -/

/-- Tokens, and the end behind them. -/
def ended (ts : List Token) : List (Option Token) :=
  ts.map some ++ [none]

/-- Whether the tokens begin a written form, which ends where the end is among them. -/
def Begins (written : List Token → Prop) (us : List (Option Token)) : Prop :=
  ∃ ts, written ts ∧ us <+: ended ts

/-- The tokens before an index begin a written form, and with the one at the index they do not. -/
def GoesWrongAt (written : List Token → Prop) (us : List (Option Token)) (k : Nat) : Prop :=
  Begins written (us.take k) ∧ ¬ Begins written (us.take (k + 1))

section GoesWrong

variable {written written' : List Token → Prop} {ts : List Token} {us : List (Option Token)}
  {t : Token} {k : Nat}

theorem begins_map_some : Begins written (ts.map some) ↔ ∃ rest, written (ts ++ rest) := by
  constructor
  · rintro ⟨vs, hvs, hprefix⟩
    rcases List.prefix_concat_iff.mp hprefix with heq | hprefix
    · have hnone : none ∈ ts.map some := heq ▸ List.mem_append_right _ List.mem_cons_self
      simp at hnone
    · obtain ⟨rest, rfl⟩ := (List.prefix_map_iff_of_injective fun _ _ => Option.some.inj).mp hprefix
      exact ⟨rest, hvs⟩
  · rintro ⟨rest, h⟩
    exact ⟨ts ++ rest, h, by simp [ended]⟩

theorem begins_ended : Begins written (ended ts) ↔ written ts := by
  constructor
  · rintro ⟨vs, hvs, hprefix⟩
    rcases List.prefix_concat_iff.mp hprefix with heq | hprefix
    · obtain rfl := List.map_injective_iff.mpr (fun _ _ => Option.some.inj)
        (List.append_cancel_right heq)
      exact hvs
    · have hnone : none ∈ vs.map some := hprefix.mem (List.mem_append_right _ List.mem_cons_self)
      simp at hnone
  · exact fun h => ⟨ts, h, List.prefix_rfl⟩

theorem begins_cons (h : ∀ ts, written (t :: ts) ↔ written' ts) :
    Begins written (some t :: us) ↔ Begins written' us := by
  constructor
  · rintro ⟨vs, hvs, hprefix⟩
    cases vs with
    | nil => simp [ended] at hprefix
    | cons v vs =>
      obtain ⟨hv, hrest⟩ := List.cons_prefix_cons.mp hprefix
      obtain rfl := Option.some.inj hv
      exact ⟨vs, (h vs).mp hvs, hrest⟩
  · rintro ⟨vs, hvs, hprefix⟩
    exact ⟨t :: vs, (h vs).mpr hvs, List.cons_prefix_cons.mpr ⟨rfl, hprefix⟩⟩

/-- To go wrong behind a token that stands first. -/
theorem GoesWrongAt.cons (h : ∀ ts, written (t :: ts) ↔ written' ts)
    (hwrong : GoesWrongAt written' us k) : GoesWrongAt written (some t :: us) (k + 1) := by
  rw [GoesWrongAt, List.take_succ_cons, List.take_succ_cons, begins_cons h, begins_cons h]
  exact hwrong

/-- More written forms do not matter if they begin in another way. -/
theorem GoesWrongAt.mono (hsub : ∀ ts, written' ts → written ts)
    (hhead : ∀ ts, written ts → (ended ts).head? = us.head? → written' ts) (hne : us ≠ [])
    (hwrong : GoesWrongAt written' us k) : GoesWrongAt written us k := by
  obtain ⟨⟨ts, hts, hprefix⟩, hnot⟩ := hwrong
  refine ⟨⟨ts, hsub ts hts, hprefix⟩, ?_⟩
  rintro ⟨vs, hvs, hprefix⟩
  refine hnot ⟨vs, hhead vs hvs ?_, hprefix⟩
  obtain ⟨rest, hrest⟩ := hprefix
  cases us with
  | nil => exact absurd rfl hne
  | cons u us =>
    rw [← hrest]
    rfl

/-- The two sides of going wrong, in terms of the tokens without the end. -/
theorem goesWrongAt_ended (hk : k ≤ ts.length) (hbegins : ∃ rest, written (ts.take k ++ rest))
    (hnext : ∀ t rest, ts[k]? = some t → ¬ written (ts.take k ++ t :: rest))
    (hnot : ¬ written ts) : GoesWrongAt written (ended ts) k := by
  have htake : ∀ {j : Nat}, j ≤ ts.length → (ended ts).take j = (ts.take j).map some := by
    intro j hj
    rw [ended, List.take_append_of_le_length (by simpa using hj), List.map_take]
  refine ⟨?_, ?_⟩
  · rw [htake hk, begins_map_some]
    exact hbegins
  · cases ht : ts[k]? with
    | none =>
      have hall : (ended ts).take (k + 1) = ended ts := by
        refine List.take_of_length_le ?_
        have := List.getElem?_eq_none_iff.mp ht
        simp only [ended, List.length_append, List.length_map, List.length_singleton]
        omega
      rw [hall, begins_ended]
      exact hnot
    | some t =>
      obtain ⟨hlt, heq⟩ := List.getElem?_eq_some_iff.mp ht
      rw [htake hlt, begins_map_some, List.take_add_one, ht]
      rintro ⟨rest, hrest⟩
      exact hnext t rest ht (by simpa using hrest)

end GoesWrong

/-! ## 2. Every reading can be completed -/

namespace Reading

/-- Whether some tokens that can be written complete the application. -/
def Completes (r : Reading) : Prop :=
  ∃ ts f args, r.readAll ts = some (complete f args) ∧ ∀ t ∈ ts, t.Proper

theorem Completes.of_step {r r' : Reading} {t : Token} (ht : t.Proper) (h : r.step t = some r')
    (hr : r'.Completes) : r.Completes := by
  obtain ⟨ts, f, args, hread, hts⟩ := hr
  refine ⟨t :: ts, f, args, ?_, List.forall_mem_cons.mpr ⟨ht, hts⟩⟩
  rw [readAll, h, Option.bind_some, hread]

theorem completes_close (outer : List OpenApplication) : ∀ inner : OpenApplication,
    (close inner outer).Completes := by
  induction outer with
  | nil => exact fun inner => ⟨[], inner.functor, inner.args, rfl, by simp⟩
  | cons next outer ih =>
    exact fun inner => .of_step (t := .mark .rparen) trivial rfl (ih _)

/-- **Every reading can be completed**: it is given what it waits for, and is closed. -/
theorem completes (r : Reading) : r.Completes := by
  have hname : Token.Proper (.name "a") := by
    show IsName "a"
    decide
  cases r with
  | complete f args => exact ⟨[], f, args, rfl, by simp⟩
  | within inner outer awaiting =>
    have hseparator : ∀ (inner : OpenApplication) (outer : List OpenApplication),
        (within inner outer .separator).Completes := fun inner outer =>
      .of_step (t := .mark .rparen) trivial rfl (completes_close outer inner)
    have hfirst : ∀ (inner : OpenApplication) (outer : List OpenApplication),
        (within inner outer .firstArgument).Completes := fun inner outer =>
      .of_step (t := .mark .rparen) trivial rfl (completes_close outer inner)
    have harguments : ∀ (inner : OpenApplication) (outer : List OpenApplication),
        (within inner outer .arguments).Completes := fun inner outer =>
      .of_step (t := .mark .lparen) trivial rfl (hfirst inner outer)
    have hbracket : ∀ x : String, (within inner outer (.bracket x)).Completes := fun x =>
      .of_step (t := .mark .rbracket) trivial rfl (hseparator _ outer)
    cases awaiting with
    | arguments => exact harguments inner outer
    | firstArgument => exact hfirst inner outer
    | argument => exact .of_step hname rfl (harguments _ _)
    | separator => exact hseparator inner outer
    | variableName => exact .of_step hname rfl (hbracket "a")
    | bracket x => exact hbracket x

/-! ## 3. Where a run stops -/

theorem readAll_append : ∀ (ts us : List Token) (r : Reading),
    r.readAll (ts ++ us) = (r.readAll ts).bind (readAll · us)
  | [], _, _ => rfl
  | t :: ts, us, r => by
    rw [List.cons_append, readAll, readAll, Option.bind_assoc]
    exact congrArg _ (funext fun r' => readAll_append ts us r')

/-- **A run stops** at the first token that its reading does not take, or at the end. -/
theorem run_eq_error {w : Wanted} {found : Option Lexeme} : ∀ {ls : List Lexeme} {r : Reading},
    r.run ls = .error ⟨w, found⟩ → ∃ k r', k ≤ ls.length ∧ found = ls[k]? ∧
      r.readAll ((ls.take k).map Lexeme.token) = some r' ∧
      ∀ l, ls[k]? = some l → r'.step l.token = none
  | [], r, h => by
    refine ⟨0, r, Nat.le_refl 0, ?_, rfl, by simp⟩
    cases r with
    | complete f args => simp [run] at h
    | within inner outer awaiting => exact (congrArg Mismatch.found (Except.error.inj h)).symm
  | l :: ls, r, h => by
    rw [run] at h
    cases hstep : r.step l.token with
    | none =>
      rw [hstep] at h
      refine ⟨0, r, Nat.zero_le _, (congrArg Mismatch.found (Except.error.inj h)).symm, rfl, ?_⟩
      rintro l' hl'
      obtain rfl := Option.some.inj hl'
      exact hstep
    | some r₁ =>
      rw [hstep] at h
      obtain ⟨k, r', hk, hfound, hread, hstuck⟩ := run_eq_error h
      refine ⟨k + 1, r', Nat.succ_le_succ hk, hfound, ?_, hstuck⟩
      rw [List.take_succ_cons, List.map_cons, readAll, hstep, Option.bind_some, hread]

end Reading

/-! ## 4. Applications, variables, terms and literals -/

/-- The tokens of an application whose names can be written. -/
def ApplicationWritten (ts : List Token) : Prop :=
  ∃ f args, (Term.app f args).WellNamed ∧ (Term.app f args).tokens = ts

/-- The tokens of a variable with such a name, behind its first bracket. -/
def VariableWritten (ts : List Token) : Prop :=
  ∃ x, IsName x ∧ [.name x, .mark .rbracket] = ts

/-- The tokens of a term whose names can be written. -/
def Term.Written (ts : List Token) : Prop :=
  ∃ t : Term, t.WellNamed ∧ t.tokens = ts

/-- The tokens of a literal whose names can be written. -/
def Literal.Written (ts : List Token) : Prop :=
  ∃ l : Literal, l.WellNamed ∧ l.tokens = ts

theorem not_applicationWritten_mark {m : Mark} {ts : List Token} :
    ¬ ApplicationWritten (.mark m :: ts) := by
  rintro ⟨f, args, -, htokens⟩
  rw [Term.tokens_app] at htokens
  exact absurd (List.cons.inj htokens).1 (by simp)

theorem Term.written_iff (ts : List Token) :
    Term.Written ts ↔
      ApplicationWritten ts ∨ ∃ us, ts = .mark .lbracket :: us ∧ VariableWritten us := by
  constructor
  · rintro ⟨t, hnamed, rfl⟩
    cases t with
    | var x => exact Or.inr ⟨_, rfl, x, hnamed x (by simp), rfl⟩
    | app f args => exact Or.inl ⟨f, args, hnamed, rfl⟩
  · rintro (⟨f, args, hnamed, rfl⟩ | ⟨us, rfl, x, hx, rfl⟩)
    · exact ⟨.app f args, hnamed, rfl⟩
    · exact ⟨.var x, by simpa [WellNamed] using hx, rfl⟩

theorem Literal.written_iff (ts : List Token) :
    Literal.Written ts ↔
      ApplicationWritten ts ∨ ∃ us, ts = .mark .bang :: us ∧ ApplicationWritten us := by
  constructor
  · rintro ⟨⟨negated, f, args⟩, hnamed, rfl⟩
    cases negated with
    | true => exact Or.inr ⟨_, rfl, f, args, hnamed, rfl⟩
    | false => exact Or.inl ⟨f, args, hnamed, rfl⟩
  · rintro (⟨f, args, hnamed, rfl⟩ | ⟨us, rfl, f, args, hnamed, rfl⟩)
    · exact ⟨⟨false, f, args⟩, hnamed, rfl⟩
    · exact ⟨⟨true, f, args⟩, hnamed, rfl⟩

section Begin

variable {written behind : List Token → Prop} {m : Mark} {us : List (Option Token)}
  {ts : List Token} {k : Nat}
  (hwritten : ∀ ts, written ts ↔ ApplicationWritten ts ∨ ∃ us, ts = .mark m :: us ∧ behind us)

include hwritten

/-- To go wrong behind the mark that the other written forms begin with. -/
theorem GoesWrongAt.behind_mark (h : GoesWrongAt behind us k) :
    GoesWrongAt written (some (.mark m) :: us) (k + 1) := by
  refine h.cons fun ts => ?_
  rw [hwritten]
  constructor
  · rintro (happ | ⟨us, heq, hus⟩)
    · exact absurd happ not_applicationWritten_mark
    · rwa [(List.cons.inj heq).2]
  · exact fun hts => Or.inr ⟨ts, rfl, hts⟩

/-- To go wrong as an application does, where the mark does not come. -/
theorem GoesWrongAt.of_head (hmark : ts[0]? ≠ some (.mark m))
    (h : GoesWrongAt ApplicationWritten (ended ts) k) : GoesWrongAt written (ended ts) k := by
  refine h.mono (fun us hus => (hwritten us).mpr (Or.inl hus)) (fun us hus hhead => ?_)
    (by simp [ended])
  rcases (hwritten us).mp hus with happ | ⟨vs, rfl, -⟩
  · exact happ
  · cases ts with
    | nil => exact absurd hhead (by simp [ended])
    | cons t ts => exact absurd (by simpa [ended] using hhead.symm) hmark

end Begin

/-- Where tokens are refused, they go wrong at the token that is reported. -/
def Reports {α : Type} (read : List Lexeme → Except Mismatch α) (written : List Token → Prop) :
    Prop :=
  ∀ (ls : List Lexeme) (w : Wanted) (found : Option Lexeme), (∀ l ∈ ls, l.token.Proper) →
    read ls = .error ⟨w, found⟩ →
      ∃ k, k ≤ ls.length ∧ found = ls[k]? ∧ GoesWrongAt written (ended (ls.map Lexeme.token)) k

/-- The tokens behind a functor that some reading has read begin a written form. -/
theorem exists_applicationWritten {f : String} {ts : List Token} {r : Reading} (hf : IsName f)
    (hts : ∀ t ∈ ts, t.Proper)
    (hread : (Reading.within ⟨f, []⟩ [] .arguments).readAll ts = some r) :
    ∃ rest, ApplicationWritten (.name f :: (ts ++ rest)) := by
  obtain ⟨rest, g, args, hcomplete, hrest⟩ := r.completes
  have hall : (Reading.within ⟨f, []⟩ [] .arguments).readAll (ts ++ rest) =
      some (.complete g args) := by
    rw [Reading.readAll_append, hread, Option.bind_some, hcomplete]
  have htokens : (Term.app g args).tokens = .name f :: (ts ++ rest) :=
    Reading.tokens_readAll (by exact rfl) hall
  refine ⟨rest, g, args, (Term.proper_tokens_iff _).mp ?_, htokens⟩
  rw [htokens, List.forall_mem_cons, List.forall_mem_append]
  exact ⟨hf, hts, hrest⟩

/-- The tokens behind the functor of a written form are read. -/
theorem ApplicationWritten.readAll {f : String} {ts : List Token}
    (h : ApplicationWritten (.name f :: ts)) :
    ∃ args, (Reading.within ⟨f, []⟩ [] .arguments).readAll ts = some (.complete f args) := by
  obtain ⟨g, args, -, htokens⟩ := h
  rw [Term.tokens_app, List.cons.injEq] at htokens
  obtain ⟨hname, rfl⟩ := htokens
  obtain rfl := Token.name.inj hname
  exact ⟨args, Reading.readAll_application (fun t _ => Reading.advances t) [] []⟩

namespace Lexeme

theorem eq_cons_of_head {ls : List Lexeme} {t : Token} (h : (ls.map token)[0]? = some t) :
    ∃ pos rest, ls = ⟨t, pos⟩ :: rest := by
  cases ls with
  | nil => simp at h
  | cons l ls =>
    obtain rfl := Option.some.inj h
    exact ⟨l.pos, ls, rfl⟩

theorem map_eq_error {α β : Type} {g : α → β} {x : Except Mismatch α} {e : Mismatch}
    (h : x.map g = .error e) : x = .error e := by
  cases x with
  | ok a => simp [Except.map] at h
  | error e' => exact congrArg Except.error (Except.error.inj h)

theorem reports_readApplication : Reports readApplication ApplicationWritten := by
  intro ls w found hproper h
  have hnot : ¬ ApplicationWritten (ls.map token) := by
    rintro ⟨f, args, -, htokens⟩
    exact absurd (readApplication_eq_ok_iff.mpr htokens.symm) (by simp [h])
  unfold readApplication at h
  split at h
  · rename_i f pos ls
    obtain ⟨k, r, hk, hfound, hread, hstuck⟩ := Reading.run_eq_error h
    obtain ⟨hf, hls⟩ := List.forall_mem_cons.mp hproper
    refine ⟨k + 1, Nat.succ_le_succ hk, hfound, goesWrongAt_ended (by simpa using hk) ?_ ?_ hnot⟩
    · have htake : ∀ t ∈ (ls.take k).map token, t.Proper :=
        List.forall_mem_map.mpr fun l hl => hls l (List.mem_of_mem_take hl)
      simpa using exists_applicationWritten hf htake hread
    · intro t rest ht hwritten
      -- The reading that does not take the token would have to.
      have hl : ∃ l, ls[k]? = some l ∧ l.token = t := by simpa using ht
      obtain ⟨l, hl, rfl⟩ := hl
      have hwritten' : ApplicationWritten (.name f :: ((ls.take k).map token ++ l.token :: rest)) := by
        simpa using hwritten
      obtain ⟨args, hall⟩ := hwritten'.readAll
      rw [Reading.readAll_append, hread, Option.bind_some, Reading.readAll, hstuck l hl] at hall
      simp at hall
  · rename_i hname
    obtain rfl : ls.head? = found := congrArg Mismatch.found (Except.error.inj h)
    refine ⟨0, Nat.zero_le _, List.head?_eq_getElem?, goesWrongAt_ended (Nat.zero_le _) ?_ ?_ hnot⟩
    · have hany : ApplicationWritten (Term.app "a" []).tokens :=
        ⟨"a", [], by decide, rfl⟩
      exact ⟨_, hany⟩
    · rintro t rest ht ⟨g, args, -, htokens⟩
      rw [Term.tokens_app] at htokens
      obtain rfl := (List.cons.inj htokens).1
      obtain ⟨pos, ls', rfl⟩ := eq_cons_of_head ht
      exact hname _ _ _ rfl

theorem reports_readVariable : Reports readVariable VariableWritten := by
  intro ls w found hproper h
  have hnot : ¬ VariableWritten (ls.map token) := by
    rintro ⟨x, -, htokens⟩
    exact absurd (readVariable_eq_ok_iff.mpr ⟨x, rfl, htokens.symm⟩) (by simp [h])
  unfold readVariable at h
  split at h
  · simp at h
  · rename_i x pos pos' ls _
    obtain rfl : ls.head? = found := congrArg Mismatch.found (Except.error.inj h)
    have hx : IsName x := (List.forall_mem_cons.mp hproper).1
    refine ⟨2, by simp, List.head?_eq_getElem?, goesWrongAt_ended (by simp) ⟨[], x, hx, rfl⟩ ?_ hnot⟩
    rintro t rest - ⟨y, -, htokens⟩
    simp at htokens
  · rename_i x pos ls _ hbracket
    obtain rfl : ls.head? = found := congrArg Mismatch.found (Except.error.inj h)
    have hx : IsName x := (List.forall_mem_cons.mp hproper).1
    refine ⟨1, by simp, List.head?_eq_getElem?,
      goesWrongAt_ended (by simp) ⟨[.mark .rbracket], x, hx, rfl⟩ ?_ hnot⟩
    rintro t rest ht ⟨y, -, htokens⟩
    have hnext : [Token.name y, .mark .rbracket] = .name x :: t :: rest := htokens
    simp only [List.cons.injEq] at hnext
    obtain ⟨-, rfl, -⟩ := hnext
    have hhead : (ls.map token)[0]? = some (.mark .rbracket) := ht
    obtain ⟨pos', ls', rfl⟩ := eq_cons_of_head hhead
    exact hbracket _ _ rfl
  · rename_i hname
    obtain rfl : ls.head? = found := congrArg Mismatch.found (Except.error.inj h)
    refine ⟨0, Nat.zero_le _, List.head?_eq_getElem?,
      goesWrongAt_ended (Nat.zero_le _) ⟨_, "a", by decide, rfl⟩ ?_ hnot⟩
    rintro t rest ht ⟨y, -, htokens⟩
    obtain rfl := (List.cons.inj htokens).1
    obtain ⟨pos, ls', rfl⟩ := eq_cons_of_head ht
    exact hname _ _ _ rfl

/-- Terms go wrong as variables or applications do, by how they begin. -/
theorem reports_readTerm : Reports readTerm Term.Written := by
  intro ls w found hproper h
  unfold readTerm at h
  split at h
  · rename_i pos ls
    obtain ⟨k, hk, hfound, hwrong⟩ :=
      reports_readVariable ls w found (List.forall_mem_cons.mp hproper).2 h
    exact ⟨k + 1, Nat.succ_le_succ hk, hfound, hwrong.behind_mark Term.written_iff⟩
  · rename_i hbracket
    obtain ⟨k, hk, hfound, hwrong⟩ := reports_readApplication ls w found hproper (map_eq_error h)
    refine ⟨k, hk, hfound, hwrong.of_head Term.written_iff fun hhead => ?_⟩
    obtain ⟨pos, rest, rfl⟩ := eq_cons_of_head hhead
    exact hbracket _ _ rfl

/-- Literals go wrong as applications do, behind the mark that negates them. -/
theorem reports_readLiteral : Reports readLiteral Literal.Written := by
  intro ls w found hproper h
  unfold readLiteral at h
  split at h
  · rename_i pos ls
    obtain ⟨k, hk, hfound, hwrong⟩ := reports_readApplication ls w found
      (List.forall_mem_cons.mp hproper).2 (map_eq_error h)
    exact ⟨k + 1, Nat.succ_le_succ hk, hfound, hwrong.behind_mark Literal.written_iff⟩
  · rename_i hbang
    obtain ⟨k, hk, hfound, hwrong⟩ := reports_readApplication ls w found hproper (map_eq_error h)
    refine ⟨k, hk, hfound, hwrong.of_head Literal.written_iff fun hhead => ?_⟩
    obtain ⟨pos, rest, rfl⟩ := eq_cons_of_head hhead
    exact hbang _ _ rfl

end Lexeme

/-! ## 5. Errors -/

/-- What the error of a refused text says. -/
structure PointsAtFault (written : List Token → Prop) (s : String) (e : ReadError) : Prop where
  /-- The first illegal character is reported, whatever stands before it. -/
  illegal : ∀ before c after, s.toList = before ++ c :: after →
    (∀ d ∈ before, Token.isLegal d = true) → Token.isLegal c = false →
      e = ⟨s, before.length, .illegal c⟩
  /-- If there is none, the error is at the token where the text goes wrong, or at its end. -/
  fault : (∀ c ∈ s.toList, Token.isLegal c = true) →
    ∃ ls k spot wanted, Token.Lexes 0 s.toList ls ∧ (spots ls s.length)[k]? = some spot ∧
      GoesWrongAt written ((spots ls s.length).map Spot.token) k ∧
      e = ⟨s, spot.pos, .expected wanted spot.token⟩

theorem map_token_spots (ls : List Lexeme) (n : Nat) :
    (spots ls n).map Spot.token = ended (ls.map Lexeme.token) := by
  simp [spots, ended, Function.comp_def]

section ReadText

variable {α : Type} {read : List Lexeme → Except Mismatch α} {written : List Token → Prop}
  {s : String} {ls : List Lexeme}

open Descent

theorem readText_of_error {w : Wanted} {k : Nat} (hls : Token.tokenize s = .ok ls)
    (hk : k ≤ ls.length) (h : read ls = .error ⟨w, ls[k]?⟩) :
    ∃ spot, (spots ls s.length)[k]? = some spot ∧
      readText read s = .error ⟨s, spot.pos, .expected w spot.token⟩ := by
  refine ⟨_, getElem?_spots s.length hk, ?_⟩
  cases hl : ls[k]? <;> simp [readText, hls, h, hl]

theorem pointsAtFault_of_reports (hreports : Reports read written) {e : ReadError}
    (h : readText read s = .error e) : PointsAtFault written s e where
  illegal before c after hs hbefore hc := by
    simpa [readText, Token.tokenize_of_illegal hs hbefore hc] using h.symm
  fault hlegal := by
    have hls : Token.tokenize s = .ok (Token.scan s.toList 0 []) := by
      simp only [Token.tokenize, Token.firstIllegal?_eq_none_iff.mpr hlegal]
    have hlexes := Token.tokenize_eq_ok_iff.mp hls
    generalize Token.scan s.toList 0 [] = ls at hls hlexes
    cases hread : read ls with
    | ok a => exact absurd (readText_eq_ok_iff.mpr ⟨ls, hls, hread⟩) (by simp [h])
    | error mismatch =>
      obtain ⟨wanted, found⟩ := mismatch
      obtain ⟨k, hk, rfl, hwrong⟩ := hreports ls wanted found (Token.tokenize_eq_ok hls).2 hread
      obtain ⟨spot, hspot, herror⟩ := readText_of_error hls hk hread
      refine ⟨ls, k, spot, wanted, hlexes, hspot, ?_, ?_⟩
      · rwa [map_token_spots]
      · exact Except.error.inj (h.symm.trans herror)

/-- The descent over the tokens of a text has the result of the text. -/
theorem ends_whole_readText {part : Except Failure (Stretch (spots ls s.length) α 0)}
    (hpart : Follows ls part (read ls) finish) (hls : Token.Lexes 0 s.toList ls) :
    Ends (whole (spots ls s.length) part)
      (fun r => r.next = ls.length + 1 ∧ readText read s = .ok r.value)
      fun wanted k => ∃ spot, (spots ls s.length)[k]? = some spot ∧
        readText read s = .error ⟨s, spot.pos, .expected wanted spot.token⟩ := by
  have htokenize := Token.tokenize_eq_ok_iff.mpr hls
  refine (ends_whole hpart).mono (fun r hr => ⟨hr.1, ?_⟩) fun wanted k hk => ?_
  · exact readText_eq_ok_iff.mpr ⟨ls, htokenize, hr.2⟩
  · exact readText_of_error htokenize hk.1 hk.2

end ReadText

/-- **Errors point at the first fault.**  If a text is refused as a literal, and has an illegal
character, its error is at the first one; if it has none, its error is where the text goes wrong: at the
first token, or at the end, such that the tokens before it begin a written literal and with it they do
not.  The same holds of terms.  And the descent over the tokens of a text, which gives the same
result, never looks behind the end marker: it ends with the end marker read, or it is refused at a token
or the end marker, where the error is. -/
theorem errors_point_at_first_fault (s : String) :
    (∀ e, Literal.parse s = .error e → PointsAtFault Literal.Written s e) ∧
    (∀ e, Term.parse s = .error e → PointsAtFault Term.Written s e) ∧
    ∀ ls, Token.Lexes 0 s.toList ls →
      Descent.Ends (Descent.whole (spots ls s.length) (Descent.literal (spots ls s.length) 0))
        (fun r => r.next = ls.length + 1 ∧ Literal.parse s = .ok r.value)
        (fun wanted k => ∃ spot, (spots ls s.length)[k]? = some spot ∧
          Literal.parse s = .error ⟨s, spot.pos, .expected wanted spot.token⟩) ∧
      Descent.Ends (Descent.whole (spots ls s.length) (Descent.term (spots ls s.length) 0))
        (fun r => r.next = ls.length + 1 ∧ Term.parse s = .ok r.value)
        (fun wanted k => ∃ spot, (spots ls s.length)[k]? = some spot ∧
          Term.parse s = .error ⟨s, spot.pos, .expected wanted spot.token⟩) := by
  refine ⟨fun e h => ?_, fun e h => ?_, fun ls hls => ⟨?_, ?_⟩⟩
  · exact pointsAtFault_of_reports Lexeme.reports_readLiteral h
  · exact pointsAtFault_of_reports Lexeme.reports_readTerm h
  · exact ends_whole_readText Descent.follows_readLiteral hls
  · exact ends_whole_readText Descent.follows_readTerm hls

/-- An argument without a comma before it, and an illegal character behind that. -/
def illegalBehindFault : String := "P([x] [y]) ?"

/-- A literal that breaks off. -/
def brokenOff : String := "!P([x] "

/-- The illegal character counts before the missing comma, which is reported if it is alone; what
breaks off is wrong at its end, behind the blanks. -/
theorem illegalBehindFault_refused :
    (∃ e, Literal.parse illegalBehindFault = .error e ∧ e.pos = 11 ∧
      PointsAtFault Literal.Written illegalBehindFault e) ∧
    (∃ e, Literal.parse missingComma = .error e ∧ e.pos = 6 ∧
      PointsAtFault Literal.Written missingComma e) ∧
    ∃ e, Literal.parse brokenOff = .error e ∧ e.pos = 7 ∧
      PointsAtFault Literal.Written brokenOff e := by
  refine ⟨⟨⟨_, 11, .illegal '?'⟩, rfl, rfl, ?_⟩,
    ⟨⟨_, 6, .expected (.mark .rparen) (some (.mark .lbracket))⟩, rfl, rfl, ?_⟩,
    ⟨⟨_, 7, .expected (.mark .rparen) none⟩, rfl, rfl, ?_⟩⟩
  · exact (errors_point_at_first_fault illegalBehindFault).1 _ rfl
  · exact (errors_point_at_first_fault missingComma).1 _ rfl
  · exact (errors_point_at_first_fault brokenOff).1 _ rfl

end Clausal

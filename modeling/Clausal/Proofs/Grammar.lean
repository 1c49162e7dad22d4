/-
# Reading accepts exactly the written forms

The tokens of a term are those of the grammar: a variable in brackets, or a functor with its
arguments in parentheses and commas between them; a literal may have an exclamation mark before it
(`Term.tokens`, `Literal.tokens`).  A text is read as a literal exactly when it spells the tokens of
the literal and the names in the literal are proper; no other text is read, and the same holds of
terms (`Literal.parse_eq_ok_iff`, `Term.parse_eq_ok_iff`).

A reading has all tokens that were read in it (`Reading.tokens`), and a step adds the token that it
reads (`Reading.step_spec`).  So a reading that ends has read the tokens of its result, and of
nothing else.  The other way, the tokens of a term lead through a reading that waits for an argument
to one that has this argument (`Reading.advances`), by induction on the term.
-/
import Clausal.Proofs.Spelling
import Clausal.Reading

namespace Clausal

/-! ## 1. Lists with separators -/

section Intercalate

variable {α : Type}

/-- The first list stands alone, and each later one behind a separator. -/
theorem intercalate_cons (sep : List α) : ∀ (xs : List α) (xss : List (List α)),
    sep.intercalate (xs :: xss) = xs ++ xss.flatMap (sep ++ ·)
  | xs, [] => by simp
  | xs, ys :: xss => by
    rw [List.intercalate_cons_cons, intercalate_cons sep ys xss]
    simp

/-- The last list stands alone, and each earlier one before a separator. -/
theorem intercalate_concat (sep : List α) (ys : List α) : ∀ xss : List (List α),
    sep.intercalate (xss ++ [ys]) = xss.flatMap (· ++ sep) ++ ys
  | [] => by simp
  | xs :: xss => by
    rw [List.cons_append, List.intercalate_cons_of_ne_nil (by simp),
      intercalate_concat sep ys xss]
    simp

/-- What holds of the separator holds of all members if it holds of those of the lists. -/
theorem forall_mem_intercalate {p : α → Prop} {sep : List α} (hsep : ∀ a ∈ sep, p a) :
    ∀ xss : List (List α), (∀ a ∈ sep.intercalate xss, p a) ↔ ∀ xs ∈ xss, ∀ a ∈ xs, p a
  | [] => by simp
  | xs :: xss => by
    rw [intercalate_cons, List.forall_mem_append, List.forall_mem_cons, List.forall_mem_flatMap]
    refine and_congr_right fun _ => forall₂_congr fun ys _ => ?_
    rw [List.forall_mem_append, and_iff_right hsep]

end Intercalate

/-! ## 2. The tokens of terms and literals -/

namespace Term

/-- The tokens of the written form. -/
def tokens : Term → List Token :=
  fold (fun x => [.mark .lbracket, .name x, .mark .rbracket]) fun f ts =>
    .name f :: .mark .lparen :: ([.mark .comma].intercalate ts ++ [.mark .rparen])

@[simp] theorem tokens_var (x : String) :
    (var x).tokens = [.mark .lbracket, .name x, .mark .rbracket] := rfl

@[simp] theorem tokens_app (f : String) (ts : List Term) :
    (app f ts).tokens = .name f :: .mark .lparen ::
      ([.mark .comma].intercalate (ts.map tokens) ++ [.mark .rparen]) := by
  simp [tokens]

/-- The names of functors and variables, from left to right. -/
def names : Term → List String :=
  fold (fun x => [x]) fun f ts => f :: ts.flatten

@[simp] theorem names_var (x : String) : (var x).names = [x] := rfl

@[simp] theorem names_app (f : String) (ts : List Term) :
    (app f ts).names = f :: ts.flatMap names := by
  simp [names, List.flatMap]

/-- Whether every functor and every variable has a name that can be written. -/
def WellNamed (t : Term) : Prop :=
  ∀ n ∈ t.names, IsName n

instance (t : Term) : Decidable t.WellNamed :=
  inferInstanceAs (Decidable (∀ n ∈ t.names, IsName n))

/-- The names among the tokens are those of the term. -/
theorem proper_tokens_iff (t : Term) : (∀ u ∈ t.tokens, u.Proper) ↔ t.WellNamed := by
  induction t with
  | var x => simp [WellNamed, Token.Proper]
  | app f ts ih =>
    have hcomma : ∀ u ∈ [Token.mark .comma], u.Proper := by simp [Token.Proper]
    have hargs : (∀ u ∈ [Token.mark .comma].intercalate (ts.map tokens), u.Proper) ↔
        ∀ t ∈ ts, t.WellNamed := by
      rw [forall_mem_intercalate hcomma, List.forall_mem_map]
      exact forall₂_congr ih
    rw [tokens_app, List.forall_mem_cons, List.forall_mem_cons, List.forall_mem_append, hargs]
    simp only [Token.Proper, List.forall_mem_singleton, WellNamed, names_app,
      List.forall_mem_cons, List.forall_mem_flatMap, true_and, and_true]

end Term

/-- Lists after which anything may stand can be joined by commas. -/
theorem Token.Apart.intercalate_append : ∀ {tss : List (List Token)},
    (∀ ts ∈ tss, ∀ {us : List Token}, Apart us → Apart (ts ++ us)) →
      ∀ {us : List Token}, Apart us → Apart ([.mark .comma].intercalate tss ++ us)
  | [], _, _, hus => hus
  | [ts], h, us, hus => by
    rw [List.intercalate_singleton]
    exact h ts List.mem_cons_self hus
  | ts :: ts' :: tss, h, us, hus => by
    rw [List.intercalate_cons_cons, List.append_assoc, List.append_assoc]
    have hrest := intercalate_append (fun vs hvs => h vs (List.mem_cons_of_mem _ hvs)) hus
    exact h ts List.mem_cons_self (hrest.mark .comma)

/-- **No two names are adjacent** in a term.  Its last token is a mark, so anything may follow. -/
theorem Term.apart_tokens_append (t : Term) : ∀ {us : List Token}, Token.Apart us →
    Token.Apart (t.tokens ++ us) := by
  induction t with
  | var x => exact fun h => (h.name_mark x .rbracket).mark .lbracket
  | app f ts ih =>
    intro us h
    have hargs := Token.Apart.intercalate_append (List.forall_mem_map.mpr ih) (h.mark .rparen)
    rw [tokens_app, List.cons_append, List.cons_append, List.append_assoc]
    exact hargs.name_mark f .lparen

namespace Literal

/-- The tokens of the written form. -/
def tokens (l : Literal) : List Token :=
  (if l.negated then [.mark .bang] else []) ++ l.atom.tokens

/-- Whether the predicate, every functor and every variable has a name that can be written. -/
def WellNamed (l : Literal) : Prop :=
  l.atom.WellNamed

instance (l : Literal) : Decidable l.WellNamed :=
  inferInstanceAs (Decidable l.atom.WellNamed)

theorem proper_tokens_iff (l : Literal) : (∀ u ∈ l.tokens, u.Proper) ↔ l.WellNamed := by
  rw [WellNamed, ← Term.proper_tokens_iff, tokens, List.forall_mem_append]
  refine and_iff_right ?_
  split <;> simp [Token.Proper]

theorem apart_tokens (l : Literal) : Token.Apart l.tokens := by
  have hatom : Token.Apart l.atom.tokens := by
    simpa using l.atom.apart_tokens_append List.isChain_nil
  rw [tokens]
  split
  · exact hatom.mark .bang
  · exact hatom

end Literal

/-! ## 3. The written form spells the tokens -/

/-- Arguments are written with a comma and a blank between them. -/
theorem Token.Spells.arguments : ∀ {ts : List Term},
    (∀ t ∈ ts, ∀ {us : List Token} {cs : List Char}, Spells us cs →
      Spells (t.tokens ++ us) (t.text.toList ++ cs)) →
    ∀ {us : List Token} {cs : List Char}, Spells us cs →
      Spells ([.mark .comma].intercalate (ts.map Term.tokens) ++ us)
        ((", ".intercalate (ts.map Term.text)).toList ++ cs)
  | [], _, _, _, h => h
  | [t], ht, us, cs, h => by simpa using ht t List.mem_cons_self h
  | t :: t' :: ts, ht, us, cs, h => by
    have hrest := arguments (fun u hu => ht u (List.mem_cons_of_mem _ hu)) h
    have hcomma := (hrest.blank (c := ' ') (by decide)).token (.mark .comma)
    simpa [text, Mark.char] using ht t List.mem_cons_self hcomma

/-- **The written form of a term spells its tokens**, whatever is spelt after it. -/
theorem Term.spells_text_append (t : Term) : ∀ {us : List Token} {cs : List Char},
    Token.Spells us cs → Token.Spells (t.tokens ++ us) (t.text.toList ++ cs) := by
  induction t with
  | var x =>
    intro us cs h
    have hvar := ((h.token (.mark .rbracket)).token (.name x)).token (.mark .lbracket)
    simpa [Token.text, Mark.char] using hvar
  | app f ts ih =>
    intro us cs h
    have hargs := Token.Spells.arguments ih (h.token (.mark .rparen))
    simpa [Token.text, Mark.char] using (hargs.token (.mark .lparen)).token (.name f)

theorem Term.spells_text (t : Term) : Token.Spells t.tokens t.text.toList := by
  simpa using t.spells_text_append .nil

theorem Literal.spells_text (l : Literal) : Token.Spells l.tokens l.text.toList := by
  rw [tokens, text]
  split
  · simpa [Token.text, Mark.char] using l.atom.spells_text.token (.mark .bang)
  · simpa using l.atom.spells_text

/-! ## 4. The tokens of a reading -/

namespace OpenApplication

/-- The tokens before the next argument. -/
def lead (a : OpenApplication) : List Token :=
  .name a.functor :: .mark .lparen :: a.args.flatMap fun t => t.tokens ++ [.mark .comma]

/-- The tokens up to the last argument. -/
def body (a : OpenApplication) : List Token :=
  .name a.functor :: .mark .lparen :: [.mark .comma].intercalate (a.args.map Term.tokens)

theorem tokens_app_eq_body (a : OpenApplication) :
    (Term.app a.functor a.args).tokens = a.body ++ [.mark .rparen] := by
  simp [body]

theorem lead_of_nil {a : OpenApplication} (h : a.args = []) : a.lead = a.body := by
  simp [lead, body, h]

theorem body_push (a : OpenApplication) (t : Term) : (a.push t).body = a.lead ++ t.tokens := by
  simp only [push, body, lead, List.map_append, List.map_cons, List.map_nil, intercalate_concat,
    List.flatMap_map, List.cons_append]

theorem lead_of_ne_nil {a : OpenApplication} (h : a.args ≠ []) :
    a.lead = a.body ++ [.mark .comma] := by
  obtain ⟨ts, t, hts⟩ := (List.eq_nil_or_concat a.args).resolve_left h
  have ha : a = push ⟨a.functor, ts⟩ t := by rw [push, ← List.concat_eq_append, ← hts]
  rw [ha, body_push]
  simp [lead, push]

end OpenApplication

namespace Reading

/-- The tokens of the open applications around the innermost one. -/
def leads (outer : List OpenApplication) : List Token :=
  outer.reverse.flatMap OpenApplication.lead

@[simp] theorem leads_cons (a : OpenApplication) (outer : List OpenApplication) :
    leads (a :: outer) = leads outer ++ a.lead := by
  simp [leads]

/-- The tokens that have been read. -/
def tokens : Reading → List Token
  | within inner outer .arguments => leads outer ++ [.name inner.functor]
  | within inner outer .firstArgument => leads outer ++ inner.lead
  | within inner outer .argument => leads outer ++ inner.lead
  | within inner outer .separator => leads outer ++ inner.body
  | within inner outer .variableName => leads outer ++ inner.lead ++ [.mark .lbracket]
  | within inner outer (.bracket x) => leads outer ++ inner.lead ++ [.mark .lbracket, .name x]
  | complete f args => (Term.app f args).tokens

/-- The innermost application has arguments where a separator is awaited, and none before its
parenthesis and first argument. -/
def Orderly : Reading → Prop
  | within inner _ .arguments => inner.args = []
  | within inner _ .firstArgument => inner.args = []
  | within inner _ .separator => inner.args ≠ []
  | _ => True

theorem close_spec (inner : OpenApplication) (outer : List OpenApplication) :
    (close inner outer).Orderly ∧
      (close inner outer).tokens = leads outer ++ inner.body ++ [.mark .rparen] := by
  cases outer with
  | nil => exact ⟨trivial, by simp [close, tokens, leads, OpenApplication.body]⟩
  | cons next outer =>
    refine ⟨by simp [close, Orderly, OpenApplication.push], ?_⟩
    rw [close, tokens, OpenApplication.body_push, OpenApplication.tokens_app_eq_body]
    simp

theorem beginTerm_spec {inner : OpenApplication} {outer : List OpenApplication} {t : Token}
    {r : Reading} (h : beginTerm inner outer t = some r) :
    r.Orderly ∧ r.tokens = leads outer ++ inner.lead ++ [t] := by
  unfold beginTerm at h
  split at h
  · obtain rfl := Option.some.inj h
    exact ⟨rfl, by simp [tokens]⟩
  · obtain rfl := Option.some.inj h
    exact ⟨trivial, rfl⟩
  · simp at h

/-- **A step adds the token that it reads.** -/
theorem step_spec {r r' : Reading} {t : Token} (hr : r.Orderly) (h : r.step t = some r') :
    r'.Orderly ∧ r'.tokens = r.tokens ++ [t] := by
  unfold step at h
  split at h
  · obtain rfl := Option.some.inj h
    exact ⟨hr, by simp [tokens, OpenApplication.lead, show _ = [] from hr]⟩
  · obtain rfl := Option.some.inj h
    rename_i inner outer
    obtain ⟨ho, ht⟩ := close_spec inner outer
    exact ⟨ho, by rw [ht, tokens, OpenApplication.lead_of_nil hr]⟩
  · exact beginTerm_spec h
  · exact beginTerm_spec h
  · obtain rfl := Option.some.inj h
    exact ⟨trivial, by simp [tokens, OpenApplication.lead_of_ne_nil hr]⟩
  · obtain rfl := Option.some.inj h
    exact close_spec _ _
  · obtain rfl := Option.some.inj h
    exact ⟨trivial, by simp [tokens]⟩
  · obtain rfl := Option.some.inj h
    refine ⟨by simp [Orderly, OpenApplication.push], ?_⟩
    simp [tokens, OpenApplication.body_push]
  · simp at h

/-! ## 5. Reading all tokens -/

/-- The reading after some more tokens, if they may all come. -/
def readAll (r : Reading) : List Token → Option Reading
  | [] => some r
  | t :: ts => (r.step t).bind (readAll · ts)

variable {r r' : Reading}

/-- What has been read are the tokens that were there, and the new ones. -/
theorem tokens_readAll : ∀ {ts : List Token} {r : Reading}, r.Orderly →
    r.readAll ts = some r' → r'.tokens = r.tokens ++ ts
  | [], r, _, h => by
    obtain rfl := Option.some.inj h
    simp
  | t :: ts, r, hr, h => by
    obtain ⟨r₁, hstep, hrest⟩ := Option.bind_eq_some_iff.mp h
    obtain ⟨hr₁, htokens⟩ := step_spec hr hstep
    rw [tokens_readAll hr₁ hrest, htokens]
    simp

/-- A run succeeds where the tokens complete the application. -/
theorem run_eq_ok_iff {f : String} {args : List Term} : ∀ {ls : List Lexeme} {r : Reading},
    r.run ls = .ok (f, args) ↔ r.readAll (ls.map Lexeme.token) = some (complete f args)
  | [], r => by cases r <;> simp [run, readAll]
  | l :: ls, r => by
    simp only [run, List.map_cons, readAll]
    cases r.step l.token with
    | none => simp
    | some r₁ => simpa using run_eq_ok_iff

/-- Whether an argument may come next. -/
def AwaitsArgument (awaiting : Awaiting) : Prop :=
  awaiting = .firstArgument ∨ awaiting = .argument

/-- The tokens of a term lead a reading on: where an argument may come, the argument has come. -/
def Advances (t : Term) : Prop :=
  ∀ (inner : OpenApplication) (outer : List OpenApplication) (awaiting : Awaiting)
    (us : List Token), AwaitsArgument awaiting →
      readAll (within inner outer awaiting) (t.tokens ++ us) =
        readAll (within (inner.push t) outer .separator) us

/-- The arguments behind the first one come with a comma each. -/
theorem readAll_arguments {f : String} {outer : List OpenApplication} {us : List Token} :
    ∀ {ts : List Term}, (∀ t ∈ ts, Advances t) → ∀ args : List Term,
      readAll (within ⟨f, args⟩ outer .separator)
          ((ts.map Term.tokens).flatMap ([.mark .comma] ++ ·) ++ us) =
        readAll (within ⟨f, args ++ ts⟩ outer .separator) us
  | [], _, args => by simp
  | t :: ts, h, args => by
    obtain ⟨ht, hts⟩ := List.forall_mem_cons.mp h
    have hstep := ht ⟨f, args⟩ outer .argument
      ((ts.map Term.tokens).flatMap ([.mark .comma] ++ ·) ++ us) (Or.inr rfl)
    simpa [readAll, step, OpenApplication.push] using
      hstep.trans (readAll_arguments hts (args ++ [t]))

/-- The tokens of an application behind its functor close it. -/
theorem readAll_application {f : String} {ts : List Term} (h : ∀ t ∈ ts, Advances t)
    (outer : List OpenApplication) (us : List Token) :
    readAll (within ⟨f, []⟩ outer .arguments)
        (.mark .lparen ::
          ([.mark .comma].intercalate (ts.map Term.tokens) ++ .mark .rparen :: us)) =
      readAll (close ⟨f, ts⟩ outer) us := by
  cases ts with
  | nil => simp [readAll, step]
  | cons t ts =>
    obtain ⟨ht, hts⟩ := List.forall_mem_cons.mp h
    have hfirst := ht ⟨f, []⟩ outer .firstArgument
      ((ts.map Term.tokens).flatMap ([.mark .comma] ++ ·) ++ .mark .rparen :: us) (Or.inl rfl)
    have hrest := @readAll_arguments f outer (.mark .rparen :: us) ts hts [t]
    rw [List.map_cons, intercalate_cons, List.append_assoc, readAll, step, Option.bind_some, hfirst]
    simp only [OpenApplication.push, List.nil_append]
    rw [hrest]
    simp [readAll, step]

/-- **The tokens of a term are read as the term.** -/
theorem advances (t : Term) : Advances t := by
  induction t with
  | var x =>
    rintro inner outer awaiting us (rfl | rfl) <;> simp [readAll, step, beginTerm]
  | app f ts ih =>
    intro inner outer awaiting us hawait
    have happ := readAll_application (f := f) ih (inner :: outer) us
    rw [close] at happ
    rw [← happ]
    rcases hawait with rfl | rfl <;> simp [readAll, step, beginTerm]

end Reading

/-! ## 6. Reading whole texts -/

namespace Lexeme

variable {ls : List Lexeme}

theorem readApplication_eq_ok_iff {f : String} {args : List Term} :
    readApplication ls = .ok (f, args) ↔ ls.map token = (Term.app f args).tokens := by
  constructor
  · intro h
    unfold readApplication at h
    split at h
    · rename_i g pos ls
      have hread := Reading.tokens_readAll (by exact rfl) (Reading.run_eq_ok_iff.mp h)
      simpa [Reading.tokens, Reading.leads] using hread.symm
    · simp at h
  · intro h
    rw [Term.tokens_app] at h
    obtain ⟨⟨t, pos⟩, rest, rfl, ht, hrest⟩ := List.map_eq_cons_iff.mp h
    subst ht
    rw [readApplication, Reading.run_eq_ok_iff, hrest,
      Reading.readAll_application (fun t _ => Reading.advances t) [] []]
    rfl

theorem readVariable_eq_ok_iff {t : Term} :
    readVariable ls = .ok t ↔
      ∃ x, t = .var x ∧ ls.map token = [.name x, .mark .rbracket] := by
  constructor
  · intro h
    unfold readVariable at h
    split at h
    · exact ⟨_, (Except.ok.inj h).symm, rfl⟩
    all_goals simp at h
  · rintro ⟨x, rfl, h⟩
    obtain ⟨⟨t, pos⟩, rest, rfl, ht, hrest⟩ := List.map_eq_cons_iff.mp h
    obtain ⟨⟨u, pos'⟩, rest, rfl, hu, hnil⟩ := List.map_eq_cons_iff.mp hrest
    obtain rfl := List.map_eq_nil_iff.mp hnil
    subst ht hu
    rfl

/-- What is made of an application that is read. -/
theorem map_readApplication_eq_ok_iff {α : Type} {make : String × List Term → α} {a : α} :
    (readApplication ls).map make = .ok a ↔
      ∃ f args, ls.map token = (Term.app f args).tokens ∧ make (f, args) = a := by
  constructor
  · intro h
    cases hr : readApplication ls with
    | error e =>
      rw [hr] at h
      simp [Except.map] at h
    | ok p =>
      rw [hr] at h
      exact ⟨p.1, p.2, readApplication_eq_ok_iff.mp hr, Except.ok.inj h⟩
  · rintro ⟨f, args, htokens, rfl⟩
    rw [readApplication_eq_ok_iff.mpr htokens]
    rfl

theorem readTerm_eq_ok_iff {t : Term} : readTerm ls = .ok t ↔ ls.map token = t.tokens := by
  constructor
  · intro h
    unfold readTerm at h
    split at h
    · obtain ⟨x, rfl, htokens⟩ := readVariable_eq_ok_iff.mp h
      simp [htokens]
    · obtain ⟨f, args, htokens, rfl⟩ := map_readApplication_eq_ok_iff.mp h
      exact htokens
  · intro h
    cases t with
    | var x =>
      obtain ⟨⟨t, pos⟩, rest, rfl, ht, hrest⟩ := List.map_eq_cons_iff.mp h
      subst ht
      exact readVariable_eq_ok_iff.mpr ⟨x, rfl, hrest⟩
    | app f args =>
      obtain ⟨⟨t, pos⟩, rest, rfl, ht, -⟩ :=
        List.map_eq_cons_iff.mp (h.trans (Term.tokens_app f args))
      subst ht
      exact map_readApplication_eq_ok_iff.mpr ⟨f, args, h, rfl⟩

theorem readLiteral_eq_ok_iff {l : Literal} : readLiteral ls = .ok l ↔ ls.map token = l.tokens := by
  constructor
  · intro h
    unfold readLiteral at h
    split at h
    · obtain ⟨f, args, htokens, rfl⟩ := map_readApplication_eq_ok_iff.mp h
      simpa [Literal.tokens, Literal.atom] using htokens
    · obtain ⟨f, args, htokens, rfl⟩ := map_readApplication_eq_ok_iff.mp h
      simpa [Literal.tokens, Literal.atom] using htokens
  · intro h
    obtain ⟨negated, f, args⟩ := l
    cases negated with
    | true =>
      obtain ⟨⟨t, pos⟩, rest, rfl, ht, hrest⟩ := List.map_eq_cons_iff.mp h
      subst ht
      exact map_readApplication_eq_ok_iff.mpr ⟨f, args, hrest, rfl⟩
    | false =>
      obtain ⟨⟨t, pos⟩, rest, rfl, ht, -⟩ :=
        List.map_eq_cons_iff.mp (h.trans (Term.tokens_app f args))
      subst ht
      exact map_readApplication_eq_ok_iff.mpr ⟨f, args, h, rfl⟩

end Lexeme

section ReadText

variable {α : Type} {read : List Lexeme → Except Mismatch α} {s : String}

theorem readText_eq_ok_iff {a : α} :
    readText read s = .ok a ↔ ∃ ls, Token.tokenize s = .ok ls ∧ read ls = .ok a := by
  unfold readText
  split
  · rename_i h
    simp [h]
  · rename_i ls h
    simp only [h, Except.ok.injEq, exists_eq_left']
    split <;> simp_all

/-- A text that is not read is refused with an error about this text. -/
theorem readText_eq_error (h : ∀ a, readText read s ≠ .ok a) :
    ∃ e, readText read s = .error e ∧ e.text = s := by
  unfold readText at h ⊢
  split
  · exact ⟨_, rfl, rfl⟩
  · rename_i ls hls
    rw [hls] at h
    split
    · rename_i a ha
      exact absurd (by simp [ha]) (h a)
    · exact ⟨_, rfl, rfl⟩
    · exact ⟨_, rfl, rfl⟩

/-- Where reading inverts `tokens`, the texts that are read are those that spell proper tokens. -/
theorem readText_eq_ok_iff_spells {tokens : α → List Token} {a : α}
    (hread : ∀ ls, read ls = .ok a ↔ ls.map Lexeme.token = tokens a)
    (hapart : Token.Apart (tokens a)) :
    readText read s = .ok a ↔ (∀ u ∈ tokens a, u.Proper) ∧ Token.Spells (tokens a) s.toList := by
  rw [readText_eq_ok_iff]
  constructor
  · rintro ⟨ls, htokenize, hok⟩
    obtain ⟨hspells, hproper⟩ := Token.tokenize_eq_ok htokenize
    rw [← (hread ls).mp hok]
    exact ⟨List.forall_mem_map.mpr hproper, hspells⟩
  · rintro ⟨hproper, hspells⟩
    obtain ⟨ls, htokenize, htokens⟩ := Token.exists_tokenize hspells hproper hapart
    exact ⟨ls, htokenize, (hread ls).mpr htokens⟩

end ReadText

theorem Term.parse_eq_ok_iff {s : String} {t : Term} :
    Term.parse s = .ok t ↔ t.WellNamed ∧ Token.Spells t.tokens s.toList := by
  have hapart : Token.Apart t.tokens := by simpa using t.apart_tokens_append List.isChain_nil
  rw [← t.proper_tokens_iff]
  exact readText_eq_ok_iff_spells (fun _ => Lexeme.readTerm_eq_ok_iff) hapart

theorem Literal.parse_eq_ok_iff {s : String} {l : Literal} :
    Literal.parse s = .ok l ↔ l.WellNamed ∧ Token.Spells l.tokens s.toList := by
  rw [← l.proper_tokens_iff]
  exact readText_eq_ok_iff_spells (fun _ => Lexeme.readLiteral_eq_ok_iff) l.apart_tokens

/-- **Reading accepts exactly the grammar.**  A text is read as a literal if and only if the names
in the literal are proper and the text spells its tokens; any other text is refused.  The same holds
of terms.  So a written form is read back if and only if all its names are proper. -/
theorem reading_accepts_the_grammar :
    ((∀ (s : String) (l : Literal),
        Literal.parse s = .ok l ↔ l.WellNamed ∧ Token.Spells l.tokens s.toList) ∧
      ∀ s : String, (¬ ∃ l : Literal, l.WellNamed ∧ Token.Spells l.tokens s.toList) →
        ∃ e, Literal.parse s = .error e ∧ e.text = s) ∧
    ((∀ (s : String) (t : Term),
        Term.parse s = .ok t ↔ t.WellNamed ∧ Token.Spells t.tokens s.toList) ∧
      ∀ s : String, (¬ ∃ t : Term, t.WellNamed ∧ Token.Spells t.tokens s.toList) →
        ∃ e, Term.parse s = .error e ∧ e.text = s) ∧
    (∀ t : Term, Term.parse t.text = .ok t ↔ t.WellNamed) ∧
    ∀ l : Literal, Literal.parse l.text = .ok l ↔ l.WellNamed := by
  refine ⟨⟨fun _ _ => Literal.parse_eq_ok_iff, ?_⟩, ⟨fun _ _ => Term.parse_eq_ok_iff, ?_⟩, ?_, ?_⟩
  · intro s hnone
    exact readText_eq_error fun l hl => hnone ⟨l, Literal.parse_eq_ok_iff.mp hl⟩
  · intro s hnone
    exact readText_eq_error fun t ht => hnone ⟨t, Term.parse_eq_ok_iff.mp ht⟩
  · intro t
    rw [Term.parse_eq_ok_iff, and_iff_left t.spells_text]
  · intro l
    rw [Literal.parse_eq_ok_iff, and_iff_left l.spells_text]

/-- A literal with blanks at unusual places. -/
def spacedLiteral : String := " ! P(\t[ x ],c ( ) )\n"

/-- Two arguments without a comma. -/
def missingComma : String := "P([x] [y])"

/-- Blanks between the tokens do no harm, and a comma cannot be left out. -/
theorem spacedLiteral_is_read :
    (Literal.parse spacedLiteral = .ok ⟨true, "P", [.var "x", .app "c" []]⟩ ∧
      Token.Spells (Literal.tokens ⟨true, "P", [.var "x", .app "c" []]⟩) spacedLiteral.toList) ∧
    (¬ ∃ l : Literal, l.WellNamed ∧ Token.Spells l.tokens missingComma.toList) ∧
      ∃ e, Literal.parse missingComma = .error e ∧ e.text = missingComma := by
  obtain ⟨⟨hiff, herror⟩, -⟩ := reading_accepts_the_grammar
  have hread : Literal.parse spacedLiteral = .ok ⟨true, "P", [.var "x", .app "c" []]⟩ := rfl
  have hnone : ¬ ∃ l : Literal, l.WellNamed ∧ Token.Spells l.tokens missingComma.toList := by
    rintro ⟨l, hl⟩
    have hok : (Literal.parse missingComma).isOk = true := by rw [(hiff missingComma l).mpr hl]; rfl
    exact absurd hok (by decide)
  exact ⟨⟨hread, ((hiff _ _).mp hread).2⟩, hnone, herror _ hnone⟩

end Clausal

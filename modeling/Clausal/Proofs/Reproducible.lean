/-
# Runs are reproducible

A round, a run and a call commute with the forgetting of walks (`Settles.performRound`,
`Settles.runRounds`, `Settles.call`), whatever the set order, as long as all names are plain.  So
sessions that make the same calls, and list the literals of a clause in any order and with any
repetitions, end in the same knowledge base: the clauses and their parents, the keys, the history
and the halt are all the same.
-/
import Clausal.Proofs.Walked

namespace Clausal

namespace Walked

/-! ## 1. What a round derives -/

section Round

variable {kb : Base} {a : Walk × Nat} {pair : (Walk × Nat) × (Walk × Nat)}

/-- Gathering from two lists side by side, where the stops agree, gives results side by side. -/
theorem map_gather {α α' β β' γ : Type} {f : α → β} {f' : α' → β'} {stop : β → Bool}
    {stop' : β' → Bool} {g : β → γ} {g' : β' → γ} {r : α → α'} : ∀ {as : List α},
    (∀ a ∈ as, g' (f' (r a)) = g (f a) ∧ stop' (f' (r a)) = stop (f a)) →
    (gather f' stop' (as.map r)).map g' = (gather f stop as).map g
  | [], _ => rfl
  | a :: as, h => by
    obtain ⟨hresult, hstop⟩ := h a List.mem_cons_self
    simp only [List.map_cons, gather, hstop]
    split
    · rw [List.map_singleton, List.map_singleton, hresult]
    · rw [List.map_cons, List.map_cons, hresult,
        map_gather fun a ha => h a (List.mem_cons_of_mem _ ha)]

/-- The walk of a numbered clause forgotten. -/
def settledNumber (a : Walk × Nat) : Clause × Nat :=
  (a.1.clause, a.2)

theorem numbered_settled (kb : Base) : kb.settled.numbered = kb.numbered.map settledNumber := by
  rw [KnowledgeBase.numbered, Base.numbered, Base.settled, List.map_map, List.zipIdx_map,
    List.zipIdx_map, List.map_map]
  rfl

theorem plain_of_mem_numbered (h : ∀ e ∈ kb.clauses, e.walk.Plain) (ha : a ∈ kb.numbered) :
    a.1.Plain := by
  obtain ⟨e, he, hwalk⟩ := List.mem_map.mp (List.fst_mem_of_mem_zipIdx ha)
  exact hwalk ▸ h e he

/-- The pairs that a round goes through. -/
def unmetLine (kb : Base) : List ((Walk × Nat) × (Walk × Nat)) :=
  kb.numbered.flatMap kb.unmetPairs

theorem unmetLine_settled (kb : Base) :
    kb.settled.unmetLine = (unmetLine kb).map (Prod.map settledNumber settledNumber) := by
  rw [KnowledgeBase.unmetLine, unmetLine, numbered_settled, List.flatMap_map, List.map_flatMap]
  refine List.flatMap_congr fun a _ => ?_
  rw [KnowledgeBase.unmetPairs, KnowledgeBase.unmet, numbered_settled, Base.unmetPairs,
    ← List.map_drop, List.map_map, List.map_map]
  rfl

theorem plain_of_mem_unmetLine (h : ∀ e ∈ kb.clauses, e.walk.Plain) (hp : pair ∈ unmetLine kb) :
    pair.1.1.Plain ∧ pair.2.1.Plain := by
  obtain ⟨a, ha, hp⟩ := List.mem_flatMap.mp hp
  obtain ⟨b, hb, rfl⟩ := List.mem_map.mp hp
  exact ⟨plain_of_mem_numbered h ha, plain_of_mem_numbered h (List.mem_of_mem_drop hb)⟩

theorem candidates_factor (ha : a.1.Plain) :
    (⟨a.2, a.1.clause.factors⟩ : Factoring).candidates =
      (Base.factor a).map Conclusion.settled := by
  rw [Factoring.candidates, Base.factor, List.map_map]
  show a.1.clause.factors.map _ = _
  rw [Walk.clause, ← Enumeration.map_ofList_factors ha a.1.nodup, List.map_map]
  rfl

theorem resolvents_meet (hl : pair.1.1.Plain) (hr : pair.2.1.Plain) :
    (KnowledgeBase.meet (Prod.map settledNumber settledNumber pair)).resolvents =
      (Enumeration.resolvents pair.1.1.literals pair.2.1.literals).map Clause.ofList :=
  (Enumeration.map_ofList_resolvents hl pair.1.1.nodup hr pair.2.1.nodup).symm

theorem factors_settled (h : ∀ e ∈ kb.clauses, e.walk.Plain) :
    kb.settled.nextRound.factors = kb.factors.map Conclusion.settled := by
  rw [Round.factors, KnowledgeBase.nextRound, numbered_settled, Base.factors, List.map_flatMap,
    ← List.map_drop, List.map_map, List.flatMap_map]
  refine List.flatMap_congr fun a ha => ?_
  exact candidates_factor (plain_of_mem_numbered h (List.mem_of_mem_drop ha))

theorem resolvents_settled (h : ∀ e ∈ kb.clauses, e.walk.Plain) :
    kb.settled.nextRound.resolvents = kb.resolvents.map Conclusion.settled := by
  rw [Round.resolvents, KnowledgeBase.meetings_eq, unmetLine_settled, Base.resolvents,
    gatherRows_eq_gather, List.map_flatten, List.flatMap]
  refine congrArg List.flatten (map_gather fun pair hp => ?_)
  obtain ⟨hl, hr⟩ := plain_of_mem_unmetLine h hp
  constructor
  · rw [Meeting.candidates, resolvents_meet hl hr, Base.meet, List.map_map, List.map_map]
    rfl
  · rw [Meeting.refutes, resolvents_meet hl hr, Base.meet, List.any_map, List.any_map]
    simp only [Function.comp_def, Clause.isEmpty_ofList]

/-- The inferences from plain clauses lead to plain literals. -/
theorem plain_conclusions (h : ∀ e ∈ kb.clauses, e.walk.Plain) :
    ∀ d ∈ kb.factors ++ kb.resolvents, ∀ l ∈ d.literals, l.Plain := by
  intro d hd
  rcases List.mem_append.mp hd with hd | hd
  · obtain ⟨a, ha, hd⟩ := List.mem_flatMap.mp hd
    obtain ⟨ls, hls, rfl⟩ := List.mem_map.mp hd
    exact Enumeration.plain_factors (plain_of_mem_numbered h (List.mem_of_mem_drop ha)) ls hls
  · rw [Base.resolvents, gatherRows_eq_gather] at hd
    obtain ⟨ds, hds, hd⟩ := List.mem_flatten.mp hd
    obtain ⟨pair, hp, rfl⟩ := List.mem_map.mp ((gather_isPrefix _).subset hds)
    obtain ⟨ls, hls, rfl⟩ := List.mem_map.mp hd
    obtain ⟨hl, hr⟩ := plain_of_mem_unmetLine h hp
    exact Enumeration.plain_resolvents hl hr ls hls

theorem map_settled_candidates (o : SetOrder) (h : ∀ e ∈ kb.clauses, e.walk.Plain) :
    (kb.candidates o).map Candidate.settled = kb.settled.nextRound.candidates := by
  rw [Round.candidates, factors_settled h, resolvents_settled h, ← List.map_append,
    Base.candidates]
  refine List.ext_getElem? fun k => ?_
  rw [List.getElem?_map, List.getElem?_mapIdx, List.getElem?_map, Option.map_map]
  simp only [Function.comp_def, Candidate.settled, SetOrder.clause_walk]
  rfl

theorem plain_candidates (o : SetOrder) (h : ∀ e ∈ kb.clauses, e.walk.Plain) :
    ∀ c ∈ kb.candidates o, c.walk.Plain := by
  intro c hc
  obtain ⟨k, hk, rfl⟩ := List.mem_mapIdx.mp hc
  exact o.plain_walk _ (plain_conclusions h _ (List.getElem_mem hk))

/-- A round finds the empty clause for the same pair. -/
theorem refutation?_settled (h : ∀ e ∈ kb.clauses, e.walk.Plain) :
    kb.settled.nextRound.refutation? =
      (kb.resolvents.find? fun d => d.literals.isEmpty).map Conclusion.settled := by
  rw [Round.refutation?, resolvents_settled h, List.find?_map]
  simp only [Function.comp_def, Conclusion.settled, Clause.isEmpty_ofList]

end Round

/-! ## 2. Rounds and runs -/

section Run

variable {o : SetOrder} {kb : Base} {kb' : KnowledgeBase}

/-- **A round does not depend on how clauses are walked.** -/
theorem Settles.performRound (h : Settles kb kb') :
    Settles (kb.performRound o).1 kb'.performRound.1 ∧
      (kb.performRound o).2 = kb'.performRound.2 := by
  obtain ⟨rfl, hplain⟩ := h
  have hfactors := congrArg List.length (factors_settled hplain)
  have hresolvents := congrArg List.length (resolvents_settled hplain)
  have hcandidates := map_settled_candidates o hplain
  have hlength := congrArg List.length hcandidates
  rw [List.length_map] at hfactors hresolvents hlength
  have hrefutation := refutation?_settled hplain
  cases hd : kb.resolvents.find? fun d => d.literals.isEmpty with
  | some d =>
    rw [hd, Option.map_some] at hrefutation
    rw [KnowledgeBase.performRound_of_some hrefutation, hfactors, hresolvents, ← hlength,
      Base.performRound, hd]
    refine ⟨⟨?_, hplain⟩, rfl⟩
    simp only [Base.record, Base.refuted, Base.settled, List.length_map]
  | none =>
    rw [hd, Option.map_none] at hrefutation
    have hbegun : Settles { kb with rounds := kb.rounds + 1, met := kb.clauses.length }
        kb.settled.allMet := ⟨by simp [Base.settled, KnowledgeBase.allMet], hplain⟩
    have hstored := hbegun.storeAll (o := o) (plain_candidates o hplain)
    rw [hcandidates] at hstored
    rw [KnowledgeBase.performRound_of_none hrefutation, hstored.length_clauses,
      Base.performRound, hd]
    refine ⟨⟨?_, hstored.plain⟩, ?_⟩
    · simp only [KnowledgeBase.record, ← hstored.settled, hfactors, hresolvents]
      simp only [Base.record, Base.settled, List.length_map]
    · simp only [Base.settled, List.length_map]

/-- **A run does not depend on how clauses are walked.** -/
theorem Settles.runRounds (limit : Nat) : ∀ {kb : Base} {kb' : KnowledgeBase}, Settles kb kb' →
    Settles (kb.runRounds o limit) (kb'.runRounds limit).final := by
  induction limit with
  | zero =>
    intro kb kb' h
    unfold Base.runRounds KnowledgeBase.runRounds
    rw [h.contradictory]
    split
    · exact h
    · exact ⟨by rw [← h.settled]; rfl, h.plain⟩
  | succ limit ih =>
    intro kb kb' h
    obtain ⟨hround, hcount⟩ := h.performRound (o := o)
    unfold Base.runRounds KnowledgeBase.runRounds
    rw [h.contradictory]
    split
    · exact h
    · simp only [hcount]
      split
      · exact ⟨by rw [← hround.settled]; rfl, hround.plain⟩
      · exact ih hround

end Run

end Walked

/-! ## 3. Calls -/

namespace Item

variable {items items' : List Item} {ls : List Literal} {l : Literal}

theorem readAll_cons_eq_ok {item : Item} : readAll (item :: items) = .ok ls ↔
    ∃ l ls', item.read = .ok l ∧ readAll items = .ok ls' ∧ ls = l :: ls' := by
  rw [readAll]
  cases item.read <;> cases readAll items <;> simp [Except.map, eq_comm]

/-- Items can be read if each of them can. -/
theorem exists_readAll_iff :
    (∃ ls, readAll items = .ok ls) ↔ ∀ item ∈ items, ∃ l, item.read = .ok l := by
  induction items with
  | nil => exact ⟨fun _ _ h => absurd h List.not_mem_nil, fun _ => ⟨[], rfl⟩⟩
  | cons item items ih =>
    rw [List.forall_mem_cons, ← ih]
    constructor
    · rintro ⟨ls, h⟩
      obtain ⟨l, ls', hl, hls', -⟩ := readAll_cons_eq_ok.mp h
      exact ⟨⟨l, hl⟩, ls', hls'⟩
    · rintro ⟨⟨l, hl⟩, ls, hls⟩
      exact ⟨l :: ls, readAll_cons_eq_ok.mpr ⟨l, ls, hl, hls, rfl⟩⟩

theorem mem_readAll (h : readAll items = .ok ls) : l ∈ ls ↔ ∃ item ∈ items, item.read = .ok l := by
  induction items generalizing ls with
  | nil =>
    obtain rfl := Except.ok.inj h
    simp
  | cons item items ih =>
    obtain ⟨k, ls', hk, hls', rfl⟩ := readAll_cons_eq_ok.mp h
    rw [List.mem_cons, ih hls', List.exists_mem_cons_iff, hk, Except.ok.injEq, eq_comm]

/-- What is read from a text has names that can be written. -/
theorem wellNamed_of_read {t : String} (h : (text t).read = .ok l) : l.WellNamed := by
  rw [read] at h
  split at h
  · rename_i m hparse
    obtain rfl := Except.ok.inj h
    exact (Literal.parse_eq_ok_iff.mp hparse).1
  · simp at h

/-- The same items in another order, or with repetitions, stand for the same literals. -/
theorem readAll_congr (hmem : ∀ item, item ∈ items ↔ item ∈ items')
    (h : readAll items = .ok ls) : ∃ ms, readAll items' = .ok ms ∧ ∀ l, l ∈ ms ↔ l ∈ ls := by
  obtain ⟨ms, hms⟩ := exists_readAll_iff.mpr fun item hitem =>
    exists_readAll_iff.mp ⟨ls, h⟩ item ((hmem item).mpr hitem)
  refine ⟨ms, hms, fun l => ?_⟩
  rw [mem_readAll hms, mem_readAll h]
  exact exists_congr fun item => and_congr_left fun _ => (hmem item).symm

end Item

namespace Call

/-- Whether the literals that a call passes are plain.  What is read from a text always is. -/
def Plain : Call → Prop
  | ingest items _ => ∀ l, Item.literal l ∈ items → l.Plain
  | offer _ c => ∀ l ∈ c.clause, l.Plain
  | _ => True

/-- Whether two calls are the same, up to the order and the repetitions of the items of a clause. -/
inductive Same : Call → Call → Prop where
  | refl (c : Call) : Same c c
  | ingest {items items' : List Item} (h : ∀ item, item ∈ items ↔ item ∈ items') (label : String) :
      Same (.ingest items label) (.ingest items' label)

theorem Same.plain {c c' : Call} (h : Same c c') (hc : c.Plain) : c'.Plain := by
  cases h with
  | refl => exact hc
  | ingest h label => exact fun l hl => hc l ((h _).mpr hl)

theorem plain_of_same {calls calls' : List Call} (h : List.Forall₂ Same calls calls')
    (hplain : ∀ c ∈ calls, c.Plain) : ∀ c ∈ calls', c.Plain := by
  induction h with
  | nil => exact hplain
  | cons hc _ ih =>
    rw [List.forall_mem_cons] at hplain ⊢
    exact ⟨hc.plain hplain.1, ih hplain.2⟩

/-- The literals that a plain call takes in are plain. -/
theorem plain_of_readAll {items : List Item} {label : String} {ls : List Literal}
    (h : (ingest items label).Plain) (hread : Item.readAll items = .ok ls) : ∀ l ∈ ls, l.Plain := by
  intro l hl
  obtain ⟨item, hitem, hl⟩ := (Item.mem_readAll hread).mp hl
  cases item with
  | text t => exact (Item.wellNamed_of_read hl).plain
  | literal m =>
    obtain rfl := Except.ok.inj hl
    exact h m hitem
  | other kind => simp [Item.read] at hl

end Call

namespace Walked

variable {o : SetOrder} {kb : Base} {s : Session} {c c' : Call}

theorem Settles.call_ingest (h : Settles kb s.kb) {items items' : List Item} {label : String}
    (hplain : (Call.ingest items label).Plain) (hmem : ∀ item, item ∈ items ↔ item ∈ items') :
    Settles (kb.call o (.ingest items' label)) (s.call (.ingest items label)).kb := by
  rw [Base.call, ← h.contradictory]
  cases hc : s.kb.contradictory with
  | true =>
    rw [Session.kb_call_of_error (e := .contradictory)
      (by simp [Call.perform, KnowledgeBase.ingest, hc, Except.map])]
    exact h
  | false =>
    cases hread : Item.readAll items with
    | error e =>
      -- The other list cannot be read either.
      rw [Session.kb_call_of_error (e := e)
        (by simp [Call.perform, KnowledgeBase.ingest, hc, hread, Except.map])]
      cases hread' : Item.readAll items' with
      | error _ => exact h
      | ok ms =>
        obtain ⟨ls, hls, -⟩ := Item.readAll_congr (fun item => (hmem item).symm) hread'
        rw [hread] at hls
        exact absurd hls (by simp)
    | ok ls =>
      obtain ⟨ms, hms, hsame⟩ := Item.readAll_congr hmem hread
      have hls := Call.plain_of_readAll hplain hread
      obtain ⟨kb', i, hok, hsettles⟩ := h.ingest (o := o) hread hc
        (fun l hl => hls l ((hsame l).mp hl)) hsame label
      rw [Session.kb_call_of_ok (by rw [Call.perform, hok]; rfl), hms]
      exact hsettles

theorem Settles.call_offer (h : Settles kb s.kb) {es : List Clausal.Entry}
    {d : Clausal.Candidate} (hplain : (Call.offer es d).Plain) :
    Settles (kb.call o (.offer es d)) (s.call (.offer es d)).kb := by
  rw [Base.call, ← h.contradictory]
  cases hc : s.kb.contradictory with
  | true =>
    have hrefused : (Call.offer es d).perform s.kb = .error .contradictory := by
      rw [Call.perform, KnowledgeBase.enlistAll_eq, KnowledgeBase.offer]
      exact congrArg (Except.map Prod.fst) (if_pos hc)
    rw [Session.kb_call_of_error hrefused]
    exact h
  | false =>
    have hstored : (Call.offer es d).perform s.kb =
        .ok (KnowledgeBase.store { s.kb with outside := s.kb.outside ++ es } d).1 := by
      rw [Call.perform, KnowledgeBase.enlistAll_eq, KnowledgeBase.offer]
      exact congrArg (Except.map Prod.fst) (if_neg (ne_true_of_eq_false hc))
    have hd : ∀ t, Candidate.settled ⟨o.walk t d.clause.literals, d.source, d.label⟩ = d := by
      intro t
      rw [Candidate.settled, SetOrder.clause_walk, Clause.ofList_literals]
    have hbegun : Settles { kb with outside := kb.outside ++ es }
        { s.kb with outside := s.kb.outside ++ es } := ⟨by rw [← h.settled]; rfl, h.plain⟩
    have hstore := hbegun.store (o := o)
      (c := ⟨o.walk (.given kb.rounds kb.clauses.length) d.clause.literals, d.source, d.label⟩)
      (o.plain_walk _ hplain)
    rw [hd] at hstore
    rw [Session.kb_call_of_ok hstored]
    exact hstore

/-- **Calls that are the same lead to the same knowledge base**, however its clauses are walked. -/
theorem Settles.call (h : Settles kb s.kb) (hplain : c.Plain) (hsame : Call.Same c c') :
    Settles (kb.call o c') (s.call c).kb := by
  cases hsame with
  | ingest hmem label => exact h.call_ingest hplain hmem
  | refl =>
    cases c with
    | ingest items label => exact h.call_ingest hplain fun _ => Iff.rfl
    | offer es d => exact h.call_offer hplain
    | run limit => exact h.runRounds limit.toNat
    | round =>
      rw [Base.call, ← h.contradictory]
      cases hc : s.kb.contradictory with
      | true =>
        rw [Session.kb_call_of_error (e := .contradictory)
          (by simp [Call.perform, KnowledgeBase.runRound, hc, Except.map])]
        exact h
      | false =>
        have hok : Call.perform s.kb .round = .ok s.kb.performRound.1 := by
          simp [Call.perform, KnowledgeBase.runRound, hc, Except.map]
        rw [Session.kb_call_of_ok hok]
        exact h.performRound.1

/-- **A session does not depend on set orders**, nor on the order and the repetitions of the
literals that are passed. -/
theorem settles_ofCalls (o : SetOrder) {calls calls' : List Call}
    (hplain : ∀ c ∈ calls, c.Plain) (hsame : List.Forall₂ Call.Same calls calls') :
    Settles (Base.ofCalls o calls') (Session.ofCalls calls).kb := by
  have hrun : ∀ {kb : Base} {s : Session}, Settles kb s.kb →
      Settles (calls'.foldl (Base.call o) kb) (calls.foldl Session.call s).kb := by
    induction hsame with
    | nil => exact fun h => h
    | cons hc _ ih =>
      intro kb s h
      rw [List.forall_mem_cons] at hplain
      exact ih hplain.2 (h.call hplain.1 hc)
  exact hrun ⟨rfl, fun _ he => absurd he List.not_mem_nil⟩

end Walked

/-! ## 4. Reproducibility -/

/-- **Runs are reproducible whatever the order of sets.**  Plain literals are told apart by their
written forms.  So what is done with a clause of plain literals `c` does not depend on how they are
enumerated: from any list of them, and any walk through the set that is built from it, the same
names are given, the same key is formed, and the same factors and resolvents are derived in the same
order as from `c` itself.  Hence sessions with the same calls, in which the literals of a clause may
be listed in any order and with repetitions, end in the same knowledge base, also where each set is
walked in an order of its own. -/
theorem runs_are_reproducible :
    (∀ l m : Literal, l.Plain → m.Plain → l.text = m.text → l = m) ∧
    (∀ (c : Clause) (ls : List Literal), (∀ l ∈ c, l.Plain) → (∀ l, l ∈ ls ↔ l ∈ c) →
      (∀ suffix, Clause.ofList (Enumeration.apart suffix ls) = c.apart suffix) ∧
      Clause.ofList (Enumeration.key ls) = c.key ∧
      ∀ (o : SetOrder) (t : Occasion),
        Literal.textSort (o.walk t ls).literals = c.literals ∧
        (Enumeration.factors (o.walk t ls).literals).map Clause.ofList = c.factors ∧
        ∀ (d : Clause) (ms : List Literal), (∀ l ∈ d, l.Plain) → (∀ l, l ∈ ms ↔ l ∈ d) →
          ∀ t', (Enumeration.resolvents (o.walk t ls).literals (o.walk t' ms).literals).map
            Clause.ofList = c.resolvents d) ∧
    ∀ calls calls' : List Call, (∀ call ∈ calls, call.Plain) →
      List.Forall₂ Call.Same calls calls' →
        (Session.ofCalls calls').kb = (Session.ofCalls calls).kb ∧
        ∀ o o' : SetOrder,
          (Walked.Base.ofCalls o calls).settled = (Session.ofCalls calls).kb ∧
          (Walked.Base.ofCalls o' calls').settled = (Session.ofCalls calls).kb := by
  refine ⟨fun l m => Literal.text_injective, ?_, ?_⟩
  · intro c ls hc hls
    obtain rfl : c = Clause.ofList ls := Clause.ext fun l => by rw [Clause.mem_ofList, hls]
    have hplain : ∀ l ∈ ls, l.Plain := fun l hl => hc l ((hls l).mp hl)
    refine ⟨fun suffix => Enumeration.ofList_apart suffix hplain, Enumeration.ofList_key hplain,
      fun o t => ?_⟩
    have hwalk := o.plain_walk t hplain
    have hclause := o.clause_walk t ls
    refine ⟨?_, ?_, fun d ms hd hms t' => ?_⟩
    · rw [Enumeration.textSort_eq_literals hwalk (o.walk t ls).nodup, ← hclause]
      rfl
    · rw [Enumeration.map_ofList_factors hwalk (o.walk t ls).nodup, ← hclause]
      rfl
    · obtain rfl : d = Clause.ofList ms := Clause.ext fun l => by rw [Clause.mem_ofList, hms]
      rw [Enumeration.map_ofList_resolvents hwalk (o.walk t ls).nodup
        (o.plain_walk t' fun l hl => hd l ((hms l).mp hl)) (o.walk t' ms).nodup, ← hclause,
        ← o.clause_walk t' ms]
      rfl
  · intro calls calls' hplain hsame
    have hrefl : ∀ cs : List Call, List.Forall₂ Call.Same cs cs := fun cs =>
      List.forall₂_same.mpr fun c _ => .refl c
    have hplain' := Call.plain_of_same hsame hplain
    refine ⟨?_, fun o o' => ⟨(Walked.settles_ofCalls o hplain (hrefl calls)).settled,
      (Walked.settles_ofCalls o' hplain hsame).settled⟩⟩
    rw [← (Walked.settles_ofCalls .forwards hplain hsame).settled,
      (Walked.settles_ofCalls .forwards hplain' (hrefl calls')).settled]

/-- A session in which a clause is listed with a repetition, and a name is empty. -/
def listedTwice : List Call := [
  .ingest [.text "Q([x], [y])", .text "P([x])", .text "Q([x], [y])"] "",
  .ingest [.literal ⟨true, "Q", [.var "x_1", .app "" []]⟩, .text "!P(a())"] "",
  .run 2]

/-- The same session, with each literal listed once and in another order. -/
def listedOnce : List Call := [
  .ingest [.text "P([x])", .text "Q([x], [y])"] "",
  .ingest [.text "!P(a())", .literal ⟨true, "Q", [.var "x_1", .app "" []]⟩] "",
  .run 2]

/-- The stored clauses are walked differently, and the sessions end in the same knowledge base. -/
theorem listedTwice_is_reproduced :
    (Walked.Base.ofCalls .forwards (listedOnce.take 2)).clauses.map (fun e => e.walk.literals) ≠
      (Walked.Base.ofCalls .backwards (listedTwice.take 2)).clauses.map
        (fun e => e.walk.literals) ∧
    (Walked.Base.ofCalls .forwards listedOnce).settled =
      (Walked.Base.ofCalls .backwards listedTwice).settled ∧
    (Walked.Base.ofCalls .backwards listedTwice).settled = (Session.ofCalls listedOnce).kb := by
  have hplain : ∀ call ∈ listedOnce, call.Plain := by
    rw [listedOnce, List.forall_mem_cons, List.forall_mem_cons, List.forall_mem_singleton]
    refine ⟨fun l hl => ?_, fun l hl => ?_, trivial⟩
    · simp at hl
    · obtain rfl : l = ⟨true, "Q", [.var "x_1", .app "" []]⟩ := by simpa using hl
      decide
  have hsame : List.Forall₂ Call.Same listedOnce listedTwice := by
    refine .cons (.ingest (fun item => ?_) _) (.cons (.ingest (fun item => ?_) _)
      (.cons (.refl _) .nil)) <;> simp only [List.mem_cons, List.not_mem_nil, or_false]
    · tauto
    · tauto
  obtain ⟨-, -, hsessions⟩ := runs_are_reproducible
  obtain ⟨honce, htwice⟩ := (hsessions _ _ hplain hsame).2 .forwards .backwards
  exact ⟨by decide +kernel, honce.trans htwice.symm, htwice⟩

end Clausal

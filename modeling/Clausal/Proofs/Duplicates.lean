/-
# Dropping duplicates loses no clause

The key of a clause is taken before the clause is standardised apart, and it leads to the clause as
it is stored.  Both are variants of the clause that came in, so a clause that is dropped because its
key is known is a variant of the clause that the key leads to (`Filed.variant_of_find?`), and nothing
is lost.  No key is filed twice (`Reachable.nodup_keys`): the list of keys is a table with one entry
for each stored clause, in the same order.

That variants have equal keys is not claimed, and does not hold: literals of equal sign and shape are
walked in the order of their texts, which depends on the names of the variables.

Literals that have their texts in common as well are walked in the order of their codes.  Nothing here
depends on that order.  A key numbers the variables in the order of some walk that meets all of them,
and this is all that `variant_key` needs: a clause is a variant of every key that it could have, so two
clauses with a key in common are variants of each other even if each was walked in its own way.
-/
import Clausal.Proofs.Closure

namespace Clausal

open Clause

/-! ## 1. The table of keys -/

namespace KnowledgeBase

variable {kb : KnowledgeBase} {originals : List Clause}

theorem not_mem_keys_of_find? {key : Clause} (h : kb.find? key = none) :
    key ∉ kb.signatures.map Prod.fst := by
  intro hmem
  obtain ⟨p, hp, rfl⟩ := List.mem_map.mp hmem
  have := List.lookup_eq_none_iff.mp h p hp
  simp at this

/-- The entry of the table for a stored clause: the key of a clause that it is a variant of. -/
theorem Filed.getElem?_signatures (h : Filed kb originals) {i : Nat} {e : Entry}
    (he : kb.clauses[i]? = some e) :
    ∃ c : Clause, kb.signatures[i]? = some (c.key, i) ∧ Variant c e.clause := by
  obtain ⟨c, hc, hce⟩ := h.getElem? he
  refine ⟨c, ?_, ?_⟩
  · rw [h.keys, List.getElem?_mapIdx, hc]
    rfl
  · rw [hce]
    exact variant_apart _ _

theorem Filed.length_signatures (h : Filed kb originals) :
    kb.signatures.length = kb.clauses.length := by
  rw [h.keys, List.length_mapIdx, h.length_eq]

/-- **Taking in a clause** answers with a stored clause that is a variant of it, whether it was there
already or not. -/
theorem Filed.ingest (h : Filed kb originals) {items : List Item} {label : String}
    {kb' : KnowledgeBase} {i : Nat} (hok : kb.ingest items label = .ok (kb', i)) :
    ∃ literals e, Item.readAll items = .ok literals ∧ kb'.clauses[i]? = some e ∧
      Variant (ofList literals) e.clause := by
  obtain ⟨literals, hread, ⟨hfind, rfl⟩ | ⟨rfl, -, hclauses, -⟩⟩ := ingest_eq_ok hok
  · obtain ⟨e, he, hvar⟩ := h.variant_of_find? hfind
    exact ⟨literals, e, hread, he, hvar⟩
  · obtain ⟨e, he, hvar⟩ := variant_append kb ⟨ofList literals, [], label⟩
    exact ⟨literals, e, hread, hclauses ▸ he, hvar⟩

theorem find?_enlistAll (es : List Entry) (key : Clause) (kb : KnowledgeBase) :
    (es.foldl (fun kb e => (kb.enlist e).1) kb).find? key = kb.find? key := by
  rw [enlistAll_eq]
  rfl

/-- **A clause that is offered in vain** is covered. -/
theorem Filed.covers_of_offer (h : Filed kb originals) {es : List Entry} {c : Candidate}
    {kb' : KnowledgeBase}
    (hok : (es.foldl (fun kb e => (kb.enlist e).1) kb).offer c = .ok (kb', none)) :
    kb.Covers c.clause := by
  unfold offer at hok
  split at hok
  · simp at hok
  · rw [KnowledgeBase.store, find?_enlistAll] at hok
    split at hok
    · rename_i hfind
      exact h.covers_of_find? hfind
    · simp at hok

end KnowledgeBase

/-- **No key is filed twice**, since a clause is stored only when its key is not known. -/
theorem Session.Reachable.nodup_keys {offers : Prop} {s : Session} (h : Reachable offers s) :
    (s.kb.signatures.map Prod.fst).Nodup := by
  refine h.store_induction (P := fun _ signatures => (signatures.map Prod.fst).Nodup)
    List.nodup_nil ?_
  intro kb c new hkb
  simp only [KnowledgeBase.append, List.map_append, List.map_cons, List.map_nil]
  rw [List.nodup_append]
  refine ⟨hkb, List.nodup_singleton _, ?_⟩
  rintro key hkey _ hnew rfl
  rw [List.mem_singleton.mp hnew] at hkey
  exact KnowledgeBase.not_mem_keys_of_find? new hkey

/-! ## 2. Nothing is lost -/

/-- **Dropping duplicates loses no clause.**  Clauses with equal keys are images of each other under
an injective renaming.  After any sequence of calls the table of keys has distinct keys and one entry
for each stored clause, in the same order, and the clause is a variant of one that has this key.  So
taking in a clause answers with a stored clause that is a variant of it, and where a clause is offered
in vain some stored clause is a variant of it. -/
theorem dropping_duplicates_loses_nothing :
    (∀ c d : Clause, c.key = d.key →
      ∃ ρ : String → String, Function.Injective ρ ∧ c.rename ρ = d) ∧
    ∀ calls : List Call,
      let kb := (Session.ofCalls calls).kb
      ((kb.signatures.map Prod.fst).Nodup ∧ kb.signatures.length = kb.clauses.length ∧
        ∀ (i : Nat) (e : Entry), kb.clauses[i]? = some e →
          ∃ c : Clause, kb.signatures[i]? = some (c.key, i) ∧ Variant c e.clause) ∧
      (∀ (items : List Item) (label : String) (kb' : KnowledgeBase) (i : Nat),
        kb.ingest items label = .ok (kb', i) →
          ∃ literals e, Item.readAll items = .ok literals ∧ kb'.clauses[i]? = some e ∧
            Variant (ofList literals) e.clause) ∧
      ∀ (es : List Entry) (c : Candidate) (kb' : KnowledgeBase),
        (es.foldl (fun kb e => (kb.enlist e).1) kb).offer c = .ok (kb', none) →
          ∃ e ∈ kb.clauses, Variant c.clause e.clause := by
  constructor
  · intro c d hkey
    obtain ⟨π, hπ⟩ := (Variant.of_key_eq hkey).exists_perm
    exact ⟨π, π.injective, hπ⟩
  · intro calls kb
    have hreach : Session.Reachable True (Session.ofCalls calls) :=
      Session.reachable_ofCalls fun _ _ _ => trivial
    obtain ⟨originals, hfiled⟩ := hreach.filed
    refine ⟨⟨hreach.nodup_keys, hfiled.length_signatures, ?_⟩, ?_, ?_⟩
    · exact fun i e he => hfiled.getElem?_signatures he
    · exact fun items label kb' i hok => hfiled.ingest hok
    · exact fun es c kb' hok => hfiled.covers_of_offer hok

/-- A clause that is taken in once. -/
def takenOnce : List Call := [
  .ingest [.literal ⟨false, "P", [.var "x", .var "y"]⟩, .literal ⟨true, "Q", [.var "y"]⟩] ""]

/-- The clause of `takenOnce` under other names. -/
def renamedCopy : List Literal := [
  ⟨true, "Q", [.var "v"]⟩, ⟨false, "P", [.var "u", .var "v"]⟩]

/-- The copy is found to be the clause that is stored, when it is taken in and when it is offered. -/
theorem renamedCopy_is_found :
    let kb := (Session.ofCalls takenOnce).kb
    (kb.ingest (renamedCopy.map .literal) "" = .ok (kb, 0) ∧
      ∃ e, kb.clauses[0]? = some e ∧ Variant (ofList renamedCopy) e.clause) ∧
    kb.offer ⟨ofList renamedCopy, [], ""⟩ = .ok (kb, none) ∧
      ∃ e ∈ kb.clauses, Variant (ofList renamedCopy) e.clause := by
  intro kb
  have hactive : kb.contradictory = false := by decide +kernel
  have hfind : kb.find? (ofList renamedCopy).key = some 0 := by decide +kernel
  have hread : Item.readAll (renamedCopy.map .literal) = .ok renamedCopy := rfl
  have hingest : kb.ingest (renamedCopy.map .literal) "" = .ok (kb, 0) := by
    simp only [KnowledgeBase.ingest, hactive, hread, hfind, Bool.false_eq_true, if_false]
  have hoffer : kb.offer ⟨ofList renamedCopy, [], ""⟩ = .ok (kb, none) := by
    simp only [KnowledgeBase.offer, KnowledgeBase.store, hactive, hfind, Bool.false_eq_true,
      if_false]
  obtain ⟨-, hin, hoff⟩ := dropping_duplicates_loses_nothing.2 takenOnce
  obtain ⟨literals, e, hread', he, hvar⟩ := hin _ _ _ _ hingest
  obtain rfl := Except.ok.inj (hread.symm.trans hread')
  exact ⟨⟨hingest, e, he, hvar⟩, hoffer, hoff [] _ _ hoffer⟩

end Clausal

/-
# Distinct members of a list

`List.eraseDups` keeps the first occurrence of every member.  Its length is then the number of
distinct members, and the statements below say that this number behaves as it should: it only
depends on which members there are, it grows with them, and leaving one out lowers it by one.
-/
namespace Clausal

variable {α : Type} [DecidableEq α]

theorem nodup_eraseDups : ∀ l : List α, l.eraseDups.Nodup
  | [] => List.nodup_nil
  | a :: l => by
    rw [List.eraseDups_cons, List.nodup_cons]
    refine ⟨?_, nodup_eraseDups _⟩
    rw [List.mem_eraseDups, List.mem_filter]
    simp
termination_by l => l.length
decreasing_by exact Nat.lt_succ_of_le (List.length_filter_le _ _)

/-- Nothing is left out of a list without repetitions. -/
theorem eraseDups_of_nodup : ∀ {l : List α}, l.Nodup → l.eraseDups = l
  | [], _ => rfl
  | a :: l, h => by
    rw [List.nodup_cons] at h
    have hfilter : (l.filter fun b => !b == a) = l := by
      refine List.filter_eq_self.mpr fun b hb => ?_
      have hba : b ≠ a := fun e => h.1 (e ▸ hb)
      simpa using hba
    rw [List.eraseDups_cons, hfilter, eraseDups_of_nodup h.2]

/-- The number of distinct members of a list. -/
def distinctCount (l : List α) : Nat :=
  l.eraseDups.length

@[simp] theorem distinctCount_nil : distinctCount ([] : List α) = 0 := rfl

theorem distinctCount_cons (a : α) (l : List α) :
    distinctCount (a :: l) = distinctCount (l.filter (· ≠ a)) + 1 := by
  have h : (fun b => !b == a) = fun b => decide (b ≠ a) := by
    funext b
    by_cases hb : b = a <;> simp [hb]
  rw [distinctCount, List.eraseDups_cons, h]
  rfl

/-- Leaving out one member lowers the count by one. -/
theorem distinctCount_of_mem {a : α} {l : List α} (h : a ∈ l) :
    distinctCount l = distinctCount (l.filter (· ≠ a)) + 1 := by
  match l with
  | b :: bs =>
    by_cases hb : b = a
    · subst hb
      simp [distinctCount_cons]
    · have ha : a ∈ bs.filter (· ≠ b) := by
        rcases List.mem_cons.mp h with rfl | h
        · exact absurd rfl hb
        · simpa [h] using Ne.symm hb
      have hf : (b :: bs).filter (· ≠ a) = b :: bs.filter (· ≠ a) := by simp [hb]
      rw [hf, distinctCount_cons, distinctCount_cons, distinctCount_of_mem ha,
        List.filter_filter, List.filter_filter]
      congr 3
      exact List.filter_congr fun _ _ => Bool.and_comm _ _
termination_by l.length
decreasing_by exact Nat.lt_succ_of_le (List.length_filter_le _ _)

/-- More members give no smaller count. -/
theorem distinctCount_le {l m : List α} (h : ∀ a ∈ l, a ∈ m) :
    distinctCount l ≤ distinctCount m := by
  match l with
  | [] => exact Nat.zero_le _
  | a :: as =>
    rw [distinctCount_cons, distinctCount_of_mem (h a (by simp))]
    refine Nat.succ_le_succ (distinctCount_le fun b hb => ?_)
    simp only [List.mem_filter] at hb ⊢
    exact ⟨h b (List.mem_cons_of_mem _ hb.1), hb.2⟩
termination_by l.length
decreasing_by exact Nat.lt_succ_of_le (List.length_filter_le _ _)

/-- A member that is missing makes the count strictly smaller. -/
theorem distinctCount_lt {l m : List α} {x : α} (h : ∀ a ∈ l, a ∈ m) (hm : x ∈ m) (hl : x ∉ l) :
    distinctCount l < distinctCount m := by
  rw [distinctCount_of_mem hm]
  refine Nat.lt_succ_of_le (distinctCount_le fun a ha => ?_)
  have hax : a ≠ x := fun e => hl (e ▸ ha)
  simpa [hax] using h a ha

end Clausal

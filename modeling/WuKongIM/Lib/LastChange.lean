import Mathlib.Data.List.Dedup

/-! A history of changes: the number of the last change of each thing that was changed, and the
order that these numbers give. -/
namespace WuKongIM.Lib
open List
variable {α : Type} [DecidableEq α]

/-- The changes are numbered from one; what was never changed has number zero. -/
def lastChange : List α → α → Nat
  | [], _ => 0
  | x :: xs, a => if a ∈ xs then lastChange xs a + 1 else if a = x then 1 else 0

variable {a : α} {l : List α}

theorem lastChange_pos : 0 < lastChange l a ↔ a ∈ l := by
  cases l with
  | nil => simp [lastChange]
  | cons x xs =>
    rw [lastChange]
    split
    · next h => simp [h]
    · next h =>
      split
      · next hx => simp [hx]
      · next hx => simp [h, hx]

theorem lastChange_cons_of_mem {x : α} {xs : List α} (h : a ∈ xs) : lastChange (x :: xs) a = lastChange xs a + 1 := by
  rw [lastChange, if_pos h]

theorem lastChange_append_self (l : List α) (a : α) : lastChange (l ++ [a]) a = l.length + 1 := by
  induction l with
  | nil => simp [lastChange]
  | cons x xs ih => rw [cons_append, lastChange_cons_of_mem (by simp), ih, length_cons]

theorem lastChange_append_of_ne {b : α} (h : a ≠ b) : lastChange (l ++ [b]) a = lastChange l a := by
  induction l with
  | nil => simp [lastChange, h]
  | cons x xs ih =>
    rw [cons_append, lastChange, lastChange, ih]
    simp only [mem_append, mem_singleton, h, or_false]

theorem lastChange_le (l : List α) (a : α) : lastChange l a ≤ l.length := by
  induction l with
  | nil => exact Nat.le_refl 0
  | cons x xs ih =>
    rw [lastChange, length_cons]
    split
    · omega
    · split <;> omega

theorem lastChange_inj {b : α} (ha : a ∈ l) (h : lastChange l a = lastChange l b) : a = b := by
  induction l with
  | nil => cases ha
  | cons x xs ih =>
    have hpos : 0 < lastChange (x :: xs) b := h ▸ lastChange_pos.mpr ha
    by_cases hax : a ∈ xs
    · by_cases hbx : b ∈ xs
      · rw [lastChange_cons_of_mem hax, lastChange_cons_of_mem hbx] at h
        exact ih hax (Nat.succ.inj h)
      · rw [lastChange_cons_of_mem hax, lastChange, if_neg hbx] at h
        have := lastChange_pos.mpr hax
        split at h <;> omega
    · by_cases hbx : b ∈ xs
      · rw [lastChange_cons_of_mem hbx, lastChange, if_neg hax] at h
        have := lastChange_pos.mpr hbx
        split at h <;> omega
      · obtain rfl := (mem_cons.mp ha).resolve_right hax
        exact ((mem_cons.mp (lastChange_pos.mp hpos)).resolve_right hbx).symm

theorem lastChange_drop (n : Nat) (h : a ∈ l.drop n) : lastChange l a = lastChange (l.drop n) a + n := by
  induction n generalizing l with
  | zero => rfl
  | succ n ih =>
    cases l with
    | nil => simp at h
    | cons x xs =>
      have hxs : a ∈ xs := mem_of_mem_drop h
      rw [lastChange_cons_of_mem hxs, ih h, drop_succ_cons]
      omega

theorem mem_drop_iff (n : Nat) : a ∈ l.drop n ↔ n < lastChange l a := by
  constructor
  · intro h
    have := lastChange_pos.mpr h
    have := lastChange_drop n h
    omega
  · intro h
    induction n generalizing l with
    | zero => exact lastChange_pos.mp h
    | succ n ih =>
      cases l with
      | nil => cases h
      | cons x xs =>
        rw [lastChange] at h
        split at h
        · exact ih (Nat.succ_lt_succ_iff.mp h)
        · split at h <;> omega

/-- Without its repetitions, of which the last is kept, a history is in the order of the last
changes. -/
theorem pairwise_dedup (l : List α) : l.dedup.Pairwise fun a b => lastChange l a < lastChange l b := by
  induction l with
  | nil => exact .nil
  | cons x xs ih =>
    have hrest : xs.dedup.Pairwise fun a b => lastChange (x :: xs) a < lastChange (x :: xs) b := by
      refine ih.imp_of_mem fun ha hb hlt => ?_
      rw [lastChange_cons_of_mem (mem_dedup.mp ha), lastChange_cons_of_mem (mem_dedup.mp hb)]
      omega
    by_cases hx : x ∈ xs
    · rwa [dedup_cons_of_mem hx]
    rw [dedup_cons_of_notMem hx]
    refine pairwise_cons.mpr ⟨fun b hb => ?_, hrest⟩
    have hb := mem_dedup.mp hb
    have := lastChange_pos.mpr hb
    rw [lastChange_cons_of_mem hb, lastChange, if_neg hx, if_pos rfl]
    omega

theorem pairwise_dedup_drop (l : List α) (n : Nat) : (l.drop n).dedup.Pairwise fun a b =>
    lastChange l a < lastChange l b := by
  refine (pairwise_dedup (l.drop n)).imp_of_mem fun ha hb hlt => ?_
  rw [lastChange_drop n (mem_dedup.mp ha), lastChange_drop n (mem_dedup.mp hb)]
  omega

end WuKongIM.Lib

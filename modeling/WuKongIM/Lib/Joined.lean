import Mathlib.Data.List.Basic

/-! Two lists joined by a separator, and when another pair has the same join. -/
namespace WuKongIM.Lib
open List
variable {α : Type} {sep : α} {a a' b b' : List α}

/-- The first part goes on, after the other first part and a separator, with the beginning of the
other second part. -/
def Overlaps (sep : α) (a b a' b' : List α) : Prop := ∃ z, a' = a ++ sep :: z ∧ b = z ++ sep :: b'

theorem Overlaps.joined (h : Overlaps sep a b a' b') : a ++ sep :: b = a' ++ sep :: b' := by
  obtain ⟨z, rfl, rfl⟩ := h
  rw [append_assoc, cons_append]

theorem Overlaps.mem (h : Overlaps sep a b a' b') : sep ∈ a' := by
  obtain ⟨z, rfl, -⟩ := h
  exact mem_append_right a (.head z)

/-- A longer first part has taken a separator from the second one. -/
private theorem overlaps_of_append {c : List α} (h : sep :: b = c ++ sep :: b') (ha : a' = a ++ c) :
    a = a' ∧ b = b' ∨ Overlaps sep a b a' b' := by
  cases c with
  | nil =>
    rw [append_nil] at ha
    exact .inl ⟨ha.symm, (cons.inj h).2⟩
  | cons x z =>
    obtain ⟨rfl, rfl⟩ := cons.inj h
    exact .inr ⟨z, ha, rfl⟩

theorem joined_eq_iff : a ++ sep :: b = a' ++ sep :: b' ↔
    (a = a' ∧ b = b') ∨ Overlaps sep a b a' b' ∨ Overlaps sep a' b' a b := by
  constructor
  · intro h
    rcases append_eq_append_iff.mp h with ⟨c, ha, hb⟩ | ⟨c, ha, hb⟩
    · exact (overlaps_of_append hb ha).imp_right .inl
    · rcases overlaps_of_append hb ha with ⟨rfl, rfl⟩ | ho
      · exact .inl ⟨rfl, rfl⟩
      · exact .inr (.inr ho)
  · rintro (⟨rfl, rfl⟩ | ho | ho)
    · rfl
    · exact ho.joined
    · exact ho.joined.symm

theorem joined_inj_right (hb : sep ∉ b) (hb' : sep ∉ b') (h : a ++ sep :: b = a' ++ sep :: b') : a = a' ∧ b = b' := by
  rcases joined_eq_iff.mp h with h | ⟨z, -, rfl⟩ | ⟨z, -, rfl⟩
  · exact h
  · exact absurd (mem_append_right z (.head b')) hb
  · exact absurd (mem_append_right z (.head b)) hb'

theorem joined_inj (ha : sep ∉ a) (ha' : sep ∉ a') (h : a ++ sep :: b = a' ++ sep :: b') : a = a' ∧ b = b' := by
  rcases joined_eq_iff.mp h with h | h | h
  · exact h
  · exact absurd h.mem ha'
  · exact absurd h.mem ha

end WuKongIM.Lib

import Mathlib.Order.Basic

/-! Ranges of keys in lexicographic order: bounds that share the front of their keys with what they
bound. -/
namespace WuKongIM.Lib
open List
variable {α : Type} [LT α] [LE α] [Std.IsLinearOrder α] [Std.LawfulOrderLT α]

/-- Keys whose fronts are equally long lie between two bounds of one front exactly when they have
that front and the rest of them lies between the rests of the bounds. -/
theorem between_append {p q : List α} (h : p.length = q.length) (lo hi u : List α) :
    p ++ lo ≤ q ++ u ∧ q ++ u < p ++ hi ↔ p = q ∧ lo ≤ u ∧ u < hi := by
  induction p generalizing q with
  | nil =>
    obtain rfl : q = [] := eq_nil_of_length_eq_zero h.symm
    simp
  | cons a p ih =>
    cases q with
    | nil => cases h
    | cons b q =>
      have ih := ih (Nat.succ.inj h)
      rw [cons_append, cons_append, cons_append, cons_le_cons_iff, cons_lt_cons_iff, cons.injEq]
      constructor
      · rintro ⟨hab | ⟨rfl, hlo⟩, hba | ⟨hba, hhi⟩⟩
        · exact absurd (Std.lt_trans hab hba) Std.lt_irrefl
        · exact absurd (hba ▸ hab) Std.lt_irrefl
        · exact absurd hba Std.lt_irrefl
        · obtain ⟨hpq, hrest⟩ := ih.mp ⟨hlo, hhi⟩
          exact ⟨⟨rfl, hpq⟩, hrest⟩
      · rintro ⟨⟨rfl, hpq⟩, hrest⟩
        obtain ⟨hlo, hhi⟩ := ih.mpr ⟨hpq, hrest⟩
        exact ⟨.inr ⟨rfl, hlo⟩, .inr ⟨rfl, hhi⟩⟩

end WuKongIM.Lib

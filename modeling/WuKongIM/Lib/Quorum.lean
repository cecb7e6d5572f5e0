import Mathlib.Data.Finset.Card

/-! Majorities of a list of members. The list may repeat a member: a majority is counted
against its length, so two majorities still meet. -/
namespace WuKongIM.Lib
open List
variable {α : Type} [DecidableEq α]

structure Majority (members : List α) (q : Finset α) : Prop where
  subset : ∀ a ∈ q, a ∈ members
  card : members.length / 2 + 1 ≤ q.card

theorem Majority.meet {members : List α} {p q : Finset α} (hp : Majority members p)
    (hq : Majority members q) : ∃ a, a ∈ p ∧ a ∈ q := by
  by_contra hne
  push Not at hne
  have hd : Disjoint p q := Finset.disjoint_left.mpr hne
  have hsub : p ∪ q ⊆ members.toFinset := by
    intro a ha
    rcases Finset.mem_union.mp ha with ha | ha
    · exact mem_toFinset.mpr (hp.subset a ha)
    · exact mem_toFinset.mpr (hq.subset a ha)
  have hle : p.card + q.card ≤ members.length := by
    rw [← Finset.card_union_of_disjoint hd]
    exact (Finset.card_le_card hsub).trans (toFinset_card_le members)
  have h1 := hp.card
  have h2 := hq.card
  omega

end WuKongIM.Lib

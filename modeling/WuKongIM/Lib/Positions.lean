import Mathlib.Data.List.Basic

/-! Taking one position out of a list, or changing it, and what remains. -/
namespace WuKongIM.Lib
open List
variable {α : Type} {l : List α} {k : Nat} {a b : α} {p : α → Bool}

theorem forall_set {P : Nat → α → Prop} (ha : P k a) (hl : ∀ j b, l[j]? = some b → P j b) :
    ∀ j b, (l.set k a)[j]? = some b → P j b := by
  grind

theorem mem_concat_ne (hne : b ≠ a) : b ∈ l ++ [a] ↔ b ∈ l := by
  rw [mem_append, mem_singleton, or_iff_left hne]

variable (h : l[k]? = some a)
include h

theorem countP_eraseIdx : (l.eraseIdx k).countP p + (if p a then 1 else 0) = l.countP p := by
  induction l generalizing k with
  | nil => cases h
  | cons x l ih =>
    cases k with
    | zero =>
      cases h
      rw [eraseIdx_cons_zero, countP_cons]
    | succ k =>
      rw [eraseIdx_cons_succ, countP_cons, countP_cons, Nat.add_right_comm, ih h]

theorem countP_set_add : (l.set k b).countP p + (if p a then 1 else 0) = l.countP p + if p b then 1 else 0 := by
  induction l generalizing k with
  | nil => cases h
  | cons x l ih =>
    cases k with
    | zero =>
      cases h
      rw [set_cons_zero, countP_cons, countP_cons, Nat.add_right_comm]
    | succ k => rw [set_cons_succ, countP_cons, countP_cons, Nat.add_right_comm, ih h, Nat.add_right_comm]

theorem countP_set_of_eq (hp : p b = p a) : (l.set k b).countP p = l.countP p := by
  have hset := countP_set_add h (b := b) (p := p)
  rw [hp] at hset
  exact Nat.add_right_cancel hset

theorem mem_eraseIdx_ne (hne : b ≠ a) : b ∈ l.eraseIdx k ↔ b ∈ l := by
  refine ⟨mem_of_mem_eraseIdx, fun hb => ?_⟩
  obtain ⟨i, hi⟩ := mem_iff_getElem?.mp hb
  refine mem_eraseIdx_iff_getElem?.mpr ⟨i, ?_, hi⟩
  rintro rfl
  rw [h] at hi
  exact hne (Option.some.inj hi).symm

theorem mem_set_of_ne (c : α) (hb : b ∈ l) (hne : b ≠ a) : b ∈ l.set k c := by
  obtain ⟨i, hi⟩ := mem_iff_getElem?.mp hb
  refine mem_iff_getElem?.mpr ⟨i, ?_⟩
  rw [getElem?_set_ne]
  · exact hi
  · rintro rfl
    rw [h] at hi
    exact hne (Option.some.inj hi).symm

theorem mem_set_ne {c : α} (hne : b ≠ a) (hc : b ≠ c) : b ∈ l.set k c ↔ b ∈ l :=
  ⟨fun hb => (mem_or_eq_of_mem_set hb).resolve_right hc, fun hb => mem_set_of_ne h c hb hne⟩

theorem mem_set_self (c : α) : c ∈ l.set k c :=
  mem_set (List.getElem?_eq_some_iff.mp h).1 c

end WuKongIM.Lib

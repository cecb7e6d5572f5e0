import WuKongIM.Lib.Ordered

/-! The value of the highest score that comes first in the order of the keys: found by one pass over
a list, and what becomes of it when a value is put under a key. -/
namespace WuKongIM.Lib
open List
variable {α : Type} {score key : α → Nat} {s s' : α → Prop} {x y d : α} {xs : List α}

structure Foremost (score key : α → Nat) (s : α → Prop) (x : α) : Prop where
  mem : s x
  highest : ∀ y, s y → score y ≤ score x
  first : ∀ y, s y → score y = score x → key x ≤ key y

namespace Foremost

variable (hx : Foremost score key s x)
include hx

theorem unique (hy : Foremost score key s y) (hinj : ∀ a b, s a → s b → key a = key b → a = b) : x = y := by
  have hscore : score x = score y := Nat.le_antisymm (hy.highest x hx.mem) (hx.highest y hy.mem)
  have hkey : key x = key y := Nat.le_antisymm (hx.first y hy.mem hscore.symm) (hy.first x hx.mem hscore)
  exact hinj x y hx.mem hy.mem hkey

theorem congr (h : ∀ y, s' y ↔ s y) : Foremost score key s' x :=
  ⟨(h x).mpr hx.mem, fun y hy => hx.highest y ((h y).mp hy), fun y hy => hx.first y ((h y).mp hy)⟩

variable (hput : ∀ y, s' y ↔ y = d ∨ s y ∧ key y ≠ key d)
include hput

theorem put_new (h : score x < score d ∨ score x = score d ∧ key d ≤ key x) : Foremost score key s' d := by
  refine ⟨(hput d).mpr (.inl rfl), fun y hy => ?_, fun y hy hscore => ?_⟩
  · rcases (hput y).mp hy with rfl | ⟨hs, -⟩
    · exact Nat.le_refl _
    · have := hx.highest y hs
      omega
  · rcases (hput y).mp hy with rfl | ⟨hs, -⟩
    · exact Nat.le_refl _
    have := hx.highest y hs
    rcases h with h | ⟨heq, hkey⟩
    · omega
    · exact Nat.le_trans hkey (hx.first y hs (by omega))

theorem put_behind (hscore : score d = score x) (hkey : key x < key d) : Foremost score key s' x := by
  refine ⟨(hput x).mpr (.inr ⟨hx.mem, by omega⟩), fun y hy => ?_, fun y hy heq => ?_⟩
  · rcases (hput y).mp hy with rfl | ⟨hs, -⟩
    · omega
    · exact hx.highest y hs
  · rcases (hput y).mp hy with rfl | ⟨hs, -⟩
    · omega
    · exact hx.first y hs heq

end Foremost

def foremost (score : α → Nat) : List α → Option α → Option α
  | [], best => best
  | x :: xs, none => foremost score xs (some x)
  | x :: xs, some b => foremost score xs (some (if score b < score x then x else b))

theorem foremost_some (h : Ascending key (x :: xs)) :
    ∃ b, foremost score xs (some x) = some b ∧ Foremost score key (· ∈ x :: xs) b := by
  induction xs generalizing x with
  | nil =>
    refine ⟨x, rfl, mem_singleton.mpr rfl, fun y hy => ?_, fun y hy _ => ?_⟩
    · obtain rfl := mem_singleton.mp hy
      exact Nat.le_refl _
    · obtain rfl := mem_singleton.mp hy
      exact Nat.le_refl _
  | cons y xs ih =>
    obtain ⟨hx, hrest⟩ := pairwise_cons.mp h
    have hxy := hx y (.head xs)
    rw [foremost]
    split
    · next hlt =>
      obtain ⟨b, hb, hbest⟩ := ih hrest
      have hle := hbest.highest y (.head xs)
      refine ⟨b, hb, mem_cons_of_mem x hbest.mem, fun z hz => ?_, fun z hz heq => ?_⟩
      · rcases mem_cons.mp hz with rfl | hz
        · omega
        · exact hbest.highest z hz
      · rcases mem_cons.mp hz with rfl | hz
        · omega
        · exact hbest.first z hz heq
    · next hge =>
      obtain ⟨b, hb, hbest⟩ := ih (pairwise_cons.mpr
        ⟨fun z hz => hx z (mem_cons_of_mem y hz), (pairwise_cons.mp hrest).2⟩)
      have hle := hbest.highest x (.head xs)
      refine ⟨b, hb, ?_, fun z hz => ?_, fun z hz heq => ?_⟩
      · rcases mem_cons.mp hbest.mem with rfl | hmem
        · exact .head _
        · exact mem_cons_of_mem x (mem_cons_of_mem y hmem)
      · rcases mem_cons.mp hz with rfl | hz
        · exact hle
        · rcases mem_cons.mp hz with rfl | hz
          · omega
          · exact hbest.highest z (mem_cons_of_mem x hz)
      · rcases mem_cons.mp hz with rfl | hz
        · exact hbest.first z (.head xs) heq
        rcases mem_cons.mp hz with rfl | hz
        · have := hbest.first x (.head xs) (by omega)
          omega
        · exact hbest.first z (mem_cons_of_mem x hz) heq

theorem foremost_none (h : Ascending key xs) : (xs = [] ∧ foremost score xs none = none) ∨
    ∃ b, foremost score xs none = some b ∧ Foremost score key (· ∈ xs) b := by
  cases xs with
  | nil => exact .inl ⟨rfl, rfl⟩
  | cons x xs => exact .inr (foremost_some h)

end WuKongIM.Lib

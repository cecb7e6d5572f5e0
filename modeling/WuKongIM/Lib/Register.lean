import Mathlib.Data.List.Chain

/-! A register that is written in two steps: a value is committed, and later its writer returns. -/
namespace WuKongIM.Lib
open List Function
variable {ν ι κ : Type}

structure Register (ν ι κ : Type) where
  settled : ν
  pending : List (κ × ν) := []
  heard : ι → List ν := fun _ => []

namespace Register

/-- What may be heard by one who begins now, in the order of the commits. -/
def values (h : Register ν ι κ) : List ν := h.settled :: h.pending.map Prod.snd

def current (h : Register ν ι κ) : ν := h.values.getLast (cons_ne_nil _ _)

def enter [DecidableEq ι] (h : Register ν ι κ) (i : ι) : Register ν ι κ :=
  { h with heard := Function.update h.heard i h.values }

def commit (h : Register ν ι κ) (w : κ) (v : ν) : Register ν ι κ :=
  { h with pending := h.pending ++ [(w, v)], heard := fun i => h.heard i ++ [v] }

def settle [DecidableEq κ] (h : Register ν ι κ) (w : κ) : Register ν ι κ :=
  match h.pending.find? fun e => e.1 = w with
  | some e => { h with settled := e.2, pending := h.pending.eraseP fun e => e.1 = w }
  | none => h

/-- A reader under way may hear whatever one who begins now may hear. -/
def Covers (h : Register ν ι κ) (i : ι) : Prop := h.values ⊆ h.heard i

def Linked (r : ν → ν → Prop) (h : Register ν ι κ) : Prop := h.values.IsChain r

variable {h : Register ν ι κ} {r : ν → ν → Prop} {i j : ι} {w : κ} {v : ν}

theorem current_mem : h.current ∈ h.values := getLast_mem _

section
variable [DecidableEq ι]

theorem covers_enter : (h.enter i).Covers i := by
  intro v hv
  have hv : v ∈ h.values := hv
  simpa only [enter, update_self] using hv

theorem Covers.enter (hc : h.Covers j) (i : ι) : (h.enter i).Covers j := by
  by_cases hj : j = i
  · rw [hj]
    exact covers_enter
  · intro v hv
    simpa only [Register.enter, update_of_ne hj] using hc hv

end

theorem values_commit : (h.commit w v).values = h.values ++ [v] := by
  rw [values, commit, map_append]
  rfl

theorem current_commit : (h.commit w v).current = v := by
  simp only [current, values_commit, getLast_append_singleton]

theorem Covers.commit (hc : h.Covers i) (w : κ) (v : ν) : (h.commit w v).Covers i := by
  intro u hu
  rw [values_commit] at hu
  rcases mem_append.mp hu with hu | hu
  · exact mem_append_left [v] (hc hu)
  · exact mem_append_right (h.heard i) hu

theorem Linked.commit (hl : h.Linked r) (hr : r h.current v) : (h.commit w v).Linked r := by
  rw [Linked, values_commit, isChain_append]
  refine ⟨hl, .singleton v, fun x hx y hy => ?_⟩
  cases hx
  cases hy
  exact hr

variable [DecidableEq κ]

theorem Covers.settle (hc : h.Covers i) (w : κ) : (h.settle w).Covers i := by
  rw [Register.settle]
  split
  · next e he =>
    intro u hu
    apply hc
    rcases mem_cons.mp hu with rfl | hu
    · exact mem_cons_of_mem _ (mem_map_of_mem (mem_of_find?_eq_some he))
    · obtain ⟨e', he', rfl⟩ := mem_map.mp hu
      exact mem_cons_of_mem _ (mem_map_of_mem (mem_of_mem_eraseP he'))
  · exact hc

variable {rest : List (κ × ν)} (hp : h.pending = (w, v) :: rest)
include hp

/-- The writer that committed first returns first. -/
theorem settle_first : h.settle w = { h with settled := v, pending := rest } := by
  rw [settle, hp]
  simp

theorem values_settle : h.values = h.settled :: (h.settle w).values := by
  rw [settle_first hp, values, hp]
  rfl

theorem current_settle : (h.settle w).current = h.current := by
  simp only [current, values_settle hp]
  exact (getLast_cons (cons_ne_nil _ _)).symm

theorem Linked.settle (hl : h.Linked r) : r h.settled v ∧ (h.settle w).Linked r := by
  rw [Linked, values_settle hp] at hl
  have hvalues : (h.settle w).values = v :: rest.map Prod.snd := by rw [settle_first hp]; rfl
  rw [Linked]
  rw [hvalues] at hl ⊢
  exact isChain_cons_cons.mp hl

end Register
end WuKongIM.Lib

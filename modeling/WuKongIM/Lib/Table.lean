import Mathlib.Data.List.Basic
import Mathlib.Data.List.Pairwise

/-! A table of an ordered key-value store: its entries in ascending order of their keys, so that no
key stands twice. -/
namespace WuKongIM.Lib
open List

structure Table (K V : Type) [LT K] where
  entries : List (K × V)
  sorted : entries.Pairwise fun a b => a.1 < b.1

namespace Table
variable {K V : Type} [LT K] [LE K] [Std.IsLinearOrder K] [Std.LawfulOrderLT K] [DecidableLT K] [DecidableEq K] {es : List (K × V)}
  {e : K × V}

def empty : Table K V := ⟨[], .nil⟩

def get (t : Table K V) (k : K) : Option V := (t.entries.find? fun e => e.1 = k).map Prod.snd

def put (k : K) (v : V) : List (K × V) → List (K × V)
  | [] => [(k, v)]
  | e :: es => if k < e.1 then (k, v) :: e :: es else if k = e.1 then (k, v) :: es else e :: put k v es

omit [LE K] [Std.IsLinearOrder K] [Std.LawfulOrderLT K] in
theorem mem_put {k : K} {v : V} (h : e ∈ put k v es) : e = (k, v) ∨ e ∈ es := by
  induction es with
  | nil => exact .inl (mem_singleton.mp h)
  | cons x xs ih =>
    rw [put] at h
    split at h
    · exact mem_cons.mp h
    split at h
    · exact (mem_cons.mp h).imp_right (mem_cons_of_mem x)
    · rcases mem_cons.mp h with rfl | h
      · exact .inr mem_cons_self
      · exact (ih h).imp_right (mem_cons_of_mem x)

theorem sorted_put (k : K) (v : V) (h : es.Pairwise fun a b => a.1 < b.1) :
    (put k v es).Pairwise fun a b => a.1 < b.1 := by
  induction es with
  | nil => exact pairwise_singleton ..
  | cons x xs ih =>
    obtain ⟨hx, hxs⟩ := pairwise_cons.mp h
    rw [put]
    split
    · rename_i hlt
      exact Pairwise.cons_cons_of_trans hlt h
    split
    · rename_i heq
      refine pairwise_cons.mpr ⟨?_, hxs⟩
      intro e he
      rw [heq]
      exact hx e he
    · rename_i hnlt hne
      refine pairwise_cons.mpr ⟨?_, ih hxs⟩
      intro e he
      rcases mem_put he with rfl | he
      · exact Std.lt_of_le_of_ne (Std.not_lt.mp hnlt) (Ne.symm hne)
      · exact hx e he

def set (k : K) (v : V) (t : Table K V) : Table K V := ⟨put k v t.entries, sorted_put k v t.sorted⟩

def remove (p : K → Bool) (t : Table K V) : Table K V := ⟨t.entries.filter fun e => !p e.1, t.sorted.filter _⟩

def erase (k : K) (t : Table K V) : Table K V := t.remove fun k' => k' = k

@[simp] theorem get_set (t : Table K V) (k k' : K) (v : V) : (t.set k v).get k' = if k' = k then some v else t.get k' := by
  obtain ⟨es, hs⟩ := t
  change ((put k v es).find? _).map _ = if k' = k then some v else (es.find? _).map _
  clear hs
  by_cases hk : k' = k
  · subst hk
    rw [if_pos rfl]
    induction es with
    | nil => simp [put]
    | cons x xs ih =>
      rw [put]
      split
      · simp
      split
      · simp
      · rename_i hne
        rw [find?_cons_of_neg (by simpa using Ne.symm hne), ih]
  · have hne : ¬k = k' := fun h => hk h.symm
    rw [if_neg hk]
    induction es with
    | nil => simp [put, hne]
    | cons x xs ih =>
      rw [put]
      split
      · simp [hne]
      split
      · rename_i heq
        simp [hne, ← heq]
      · rw [find?_cons, find?_cons]
        split
        · rfl
        · exact ih

omit [LE K] [Std.IsLinearOrder K] [Std.LawfulOrderLT K] [DecidableLT K] in
@[simp] theorem get_remove (t : Table K V) (p : K → Bool) (k : K) : (t.remove p).get k = if p k then none else t.get k := by
  rw [get, remove, find?_filter]
  split
  · rename_i hp
    rw [find?_eq_none.mpr, Option.map_none]
    rintro e - he
    obtain ⟨hnp, rfl⟩ : p e.1 = false ∧ e.1 = k := by simpa using he
    exact Bool.false_ne_true (hnp.symm.trans hp)
  · rename_i hp
    congr 2
    funext e
    by_cases he : e.1 = k <;> simp [he, hp]

omit [LE K] [Std.IsLinearOrder K] [Std.LawfulOrderLT K] [DecidableLT K] in
@[simp] theorem get_erase (t : Table K V) (k k' : K) : (t.erase k).get k' = if k' = k then none else t.get k' := by
  rw [erase]
  simp

omit [Std.IsLinearOrder K] [DecidableLT K] in
theorem mem_entries {t : Table K V} : e ∈ t.entries ↔ t.get e.1 = some e.2 := by
  obtain ⟨es, hs⟩ := t
  change _ ↔ (es.find? _).map _ = _
  induction es with
  | nil => simp
  | cons x xs ih =>
    obtain ⟨hx, hxs⟩ := pairwise_cons.mp hs
    rw [mem_cons]
    by_cases heq : x.1 = e.1
    · rw [find?_cons_of_pos (by simpa using heq)]
      constructor
      · rintro (rfl | h)
        · rfl
        · exact absurd (heq ▸ hx e h) Std.lt_irrefl
      · intro h
        exact .inl (Prod.ext heq.symm (Option.some.inj h).symm)
    · rw [find?_cons_of_neg (by simpa using heq), ← ih hxs]
      exact or_iff_right fun he => heq (he ▸ rfl)

end Table
end WuKongIM.Lib

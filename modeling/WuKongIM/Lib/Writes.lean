import Mathlib.Data.List.Induction
import Mathlib.Logic.Function.Basic

/-! Writes to a map: one key is set, or all keys of a kind are erased. -/
namespace WuKongIM.Lib
open List Function

theorem update_eq_some {K V : Type} [DecidableEq K] {s : K → Option V} {k k' : K} {o : Option V}
    {v : V} (h : update s k o k' = some v) : k' = k ∧ o = some v ∨ k' ≠ k ∧ s k' = some v := by
  by_cases hk : k' = k
  · subst hk
    rw [update_self] at h
    exact .inl ⟨rfl, h⟩
  · rw [update_of_ne hk] at h
    exact .inr ⟨hk, h⟩

inductive Write (K V : Type) where
  | set (k : K) (v : V)
  | erase (p : K → Bool)

namespace Write
variable {K V : Type} [DecidableEq K] {op : Write K V}

def apply : Write K V → (K → Option V) → K → Option V
  | set k v, s => update s k (some v)
  | erase p, s => fun k => if p k then none else s k

def isSet : Write K V → Bool
  | set _ _ => true
  | erase _ => false

/-- What a write leaves at a key, if it touches the key. -/
def result (k : K) : Write K V → Option (Option V)
  | set k' v => if k = k' then some (some v) else none
  | erase p => if p k then some none else none

theorem apply_eq (op : Write K V) (s : K → Option V) (k : K) : op.apply s k = (op.result k).getD (s k) := by
  cases op with
  | set k' v =>
    rw [apply, result, update_apply]
    split <;> rfl
  | erase p =>
    rw [result]
    change (if p k then none else s k) = _
    split <;> rfl

theorem isSet_of_result {k : K} {v : V} (h : op.result k = some (some v)) : op.isSet := by
  cases op with
  | set k' v' => rfl
  | erase p =>
    rw [result] at h
    split at h <;> cases h

theorem isSet_of_erased {k : K} (h : op.result k = some none) : op.isSet = false := by
  cases op with
  | set k' v =>
    rw [result] at h
    split at h <;> cases h
  | erase p => rfl

end Write

variable {K V : Type} [DecidableEq K]

def writes (ops : List (Write K V)) (s : K → Option V) : K → Option V := ops.foldl (fun s op => op.apply s) s

def lastResult (k : K) (ops : List (Write K V)) : Option (Option V) := ops.reverse.findSome? (Write.result k)

variable {k : K} {ops : List (Write K V)}

theorem lastResult_append (ops ops' : List (Write K V)) :
    lastResult k (ops ++ ops') = (lastResult k ops').or (lastResult k ops) := by
  rw [lastResult, reverse_append, findSome?_append]
  rfl

theorem lastResult_singleton (op : Write K V) : lastResult k [op] = op.result k := by
  rw [lastResult, reverse_singleton, findSome?_singleton]

theorem writes_append (ops ops' : List (Write K V)) (s : K → Option V) :
    writes (ops ++ ops') s = writes ops' (writes ops s) :=
  foldl_append

theorem writes_eq (ops : List (Write K V)) (s : K → Option V) (k : K) : writes ops s k = (lastResult k ops).getD (s k) := by
  induction ops using reverseRecOn with
  | nil => rfl
  | append_singleton ops op ih =>
    rw [writes_append, lastResult_append, lastResult_singleton]
    change op.apply (writes ops s) k = _
    rw [Write.apply_eq, ih]
    cases op.result k <;> rfl

theorem lastResult_eq_none : lastResult k ops = none ↔ ∀ op ∈ ops, op.result k = none := by
  rw [lastResult]
  simp

theorem exists_of_lastResult {r : Option V} (h : lastResult k ops = some r) : ∃ op ∈ ops, op.result k = some r := by
  obtain ⟨op, hop, hr⟩ := exists_of_findSome?_eq_some h
  exact ⟨op, mem_reverse.mp hop, hr⟩

/-- The last write to a key that is set somewhere is a set. -/
def Settled (ops : List (Write K V)) : Prop := ∀ k, (∃ v, Write.set k v ∈ ops) → lastResult k ops ≠ some none

theorem settled_of_sets (h : ∀ op ∈ ops, op.isSet) : Settled ops := by
  rintro k - hlast
  obtain ⟨op, hop, hr⟩ := exists_of_lastResult hlast
  exact absurd (h op hop) (Bool.eq_false_iff.mp (Write.isSet_of_erased hr))

theorem lastResult_sets {v : V} (h : lastResult k ops = some (some v)) :
    lastResult k (ops.filter Write.isSet) = some (some v) := by
  induction ops using reverseRecOn with
  | nil => cases h
  | append_singleton ops op ih =>
    rw [lastResult_append, lastResult_singleton] at h
    rw [filter_append, lastResult_append]
    cases hop : op.result k with
    | none =>
      rw [hop] at h
      have hlast : lastResult k ([op].filter Write.isSet) = none :=
        lastResult_eq_none.mpr fun op' hop' => (mem_singleton.mp (mem_filter.mp hop').1) ▸ hop
      rw [hlast, ih h]
      rfl
    | some r =>
      rw [hop] at h
      cases h
      rw [filter_cons_of_pos (Write.isSet_of_result hop), filter_nil, lastResult_singleton, hop]
      rfl

variable {erasures : List (Write K V)} (he : ∀ op, op ∈ erasures ↔ op ∈ ops ∧ op.isSet = false)
include he

theorem lastResult_erasures (h : lastResult k ops = some none) : lastResult k erasures = some none := by
  cases hlast : lastResult k erasures with
  | none =>
    obtain ⟨op, hop, hr⟩ := exists_of_lastResult h
    rw [lastResult_eq_none.mp hlast op ((he op).mpr ⟨hop, Write.isSet_of_erased hr⟩)] at hr
    cases hr
  | some r =>
    cases r with
    | none => rfl
    | some v =>
      obtain ⟨op, hop, hr⟩ := exists_of_lastResult hlast
      exact absurd (Write.isSet_of_result hr) (Bool.eq_false_iff.mp ((he op).mp hop).2)

/-- All erasures made before all sets come to the same, from every start, just when the writes are
settled. -/
theorem writes_erased_first : (∀ s, writes (erasures ++ ops.filter Write.isSet) s = writes ops s) ↔ Settled ops := by
  constructor
  · rintro h k ⟨v, hv⟩ hlast
    have hk := congrFun (h fun _ => none) k
    rw [writes_eq, writes_eq, hlast, lastResult_append] at hk
    cases hsets : lastResult k (ops.filter Write.isSet) with
    | none =>
      have hunset := lastResult_eq_none.mp hsets _ (mem_filter.mpr ⟨hv, rfl⟩)
      rw [Write.result, if_pos rfl] at hunset
      cases hunset
    | some r =>
      obtain ⟨op, hop, hr⟩ := exists_of_lastResult hsets
      rw [hsets] at hk
      cases r with
      | some v' => cases hk
      | none => exact absurd (mem_filter.mp hop).2 (Bool.eq_false_iff.mp (Write.isSet_of_erased hr))
  · intro h s
    funext k
    rw [writes_eq, writes_eq]
    rw [lastResult_append]
    cases hlast : lastResult k ops with
    | none =>
      have hnone := lastResult_eq_none.mp hlast
      rw [lastResult_eq_none.mpr fun op hop => hnone op ((mem_filter.mp hop).1),
        lastResult_eq_none.mpr fun op hop => hnone op ((he op).mp hop).1]
      rfl
    | some r =>
      cases r with
      | some v =>
        rw [lastResult_sets hlast]
        rfl
      | none =>
        have hunset : lastResult k (ops.filter Write.isSet) = none := by
          refine lastResult_eq_none.mpr fun op hop => ?_
          cases op with
          | set k' v =>
            rw [Write.result, if_neg]
            rintro rfl
            exact h k ⟨v, (mem_filter.mp hop).1⟩ hlast
          | erase p => exact absurd (mem_filter.mp hop).2 Bool.false_ne_true
        rw [hunset, lastResult_erasures he hlast]
        rfl

end WuKongIM.Lib

import WuKongIM.Raft.QueueSpec
import WuKongIM.Raft.Storage

/-! What the storage does to a log without gaps. -/
namespace WuKongIM.Raft
open Lib List

section
variable {start k i : Nat} {a : Log} {l batch : List Log}

theorem Numbered.put (h : Numbered start l) (ha : a.index = start + k) (hk : k ≤ l.length) :
    put Log.index a l = l.take k ++ a :: l.drop (k + 1) := by
  induction l generalizing start k with
  | nil =>
    rw [Nat.le_zero.mp hk]
    rfl
  | cons x xs ih =>
    obtain ⟨hx, hxs⟩ := h
    cases k with
    | zero =>
      rw [put, if_neg (by omega), if_pos (by omega)]
      rfl
    | succ k =>
      rw [put, if_neg (by omega), if_neg (by omega), ih hxs (by omega) (Nat.le_of_succ_le_succ hk)]
      rfl

private theorem Numbered.put_length (hk : k ≤ l.length) :
    (l.take k ++ a :: l.drop (k + 1)).length = max l.length (k + 1) := by
  rw [length_append, length_take, length_cons, length_drop]
  omega

variable (h : Numbered start l)
include h

theorem Numbered.drop (k : Nat) : Numbered (start + k) (l.drop k) := by
  induction k generalizing start l with
  | zero => exact h
  | succ k ih =>
    cases l with
    | nil => trivial
    | cons x xs =>
      have := ih h.2
      rwa [Nat.add_right_comm] at this

private theorem Numbered.put_numbered (ha : a.index = start + k) (hk : k ≤ l.length) :
    Numbered start (l.take k ++ a :: l.drop (k + 1)) := by
  refine (h.take k).append ?_
  rw [length_take, Nat.min_eq_left hk]
  exact ⟨ha, h.drop (k + 1)⟩

theorem Numbered.putAll (hb : Numbered (start + k) batch) (hk : k ≤ l.length) :
    Numbered start (putAll Log.index batch l) ∧ (putAll Log.index batch l).length = max l.length (k + batch.length) := by
  induction batch generalizing l k with
  | nil =>
    refine ⟨h, ?_⟩
    change l.length = max l.length (k + 0)
    omega
  | cons a batch ih =>
    obtain ⟨ha, hb⟩ := hb
    have hstep : putAll Log.index (a :: batch) l = putAll Log.index batch (Lib.put Log.index a l) := rfl
    have hlen := Numbered.put_length (a := a) hk
    rw [hstep, h.put ha hk]
    obtain ⟨hn, hl⟩ := ih (k := k + 1) (h.put_numbered ha hk) hb (by omega)
    refine ⟨hn, ?_⟩
    rw [length_cons]
    omega

theorem Numbered.putAll_append (hb : Numbered (l.length + start) batch) : Lib.putAll Log.index batch l = l ++ batch := by
  refine putAll_eq_append (numbered_iff.mp hb).ascending fun a ha b hb' => ?_
  have h1 := h.mem_index hb'
  have h2 := hb.mem_index ha
  omega

theorem Numbered.filter_le (i : Nat) : l.filter (·.index ≤ i) = l.take (i + 1 - start) := (numbered_iff.mp h).filter_le i

theorem Numbered.eq_of_index {x y : Log} (hx : x ∈ l) (hy : y ∈ l) (hi : x.index = y.index) : x = y :=
  (numbered_iff.mp h).ascending.eq_of_key hx hy hi

end

namespace LogStorage
variable {d d' : LogStorage} {kind : StorageKind} {i : Nat} {l : Log}

theorem lastIndex_of_numbered (h : Numbered 1 d.logs) : d.lastIndex = d.logs.length := by
  unfold lastIndex
  cases hg : d.logs.getLast? with
  | none =>
    rw [getLast?_eq_none_iff] at hg
    rw [hg]
    rfl
  | some a =>
    have := h.index_of_getLast hg
    change a.index = d.logs.length
    omega

private theorem deleteAfter_logs (hn : Numbered 1 d.logs) (i : Nat) :
    (d.deleteAfter i).logs = d.logs.take (add64 i 1 - 1) := by
  change d.logs.filter (·.index < add64 i 1) = _
  cases add64 i 1 with
  | zero => exact filter_eq_nil_iff.mpr fun l _ hl => absurd (of_decide_eq_true hl) (Nat.not_lt_zero _)
  | succ j =>
    simp only [Nat.lt_succ_iff]
    exact hn.filter_le j

theorem truncateLogTo_logs (hn : Numbered 1 d.logs) (h : d.truncateLogTo kind i = some d') :
    d'.termStarts = d.termStarts ∧ (d' = d ∧ (i < d.appliedIndex ∨ d.lastIndex ≤ i) ∨
      d'.logs = d.logs.take (add64 i 1 - 1) ∧ d.appliedIndex ≤ i) := by
  have hcut := deleteAfter_logs hn i
  unfold truncateLogTo at h
  split at h
  · cases h
  split at h
  · split at h
    · rename_i hge
      cases h
      exact ⟨rfl, .inl ⟨rfl, .inr hge⟩⟩
    · split at h
      · rename_i ha
        cases h
        exact ⟨rfl, .inl ⟨rfl, .inl ha⟩⟩
      · rename_i ha
        cases h
        exact ⟨rfl, .inr ⟨hcut, Nat.le_of_not_lt ha⟩⟩
  · split at h
    · rename_i ha
      cases h
      exact ⟨rfl, .inl ⟨rfl, .inl ha⟩⟩
    · rename_i ha
      cases h
      exact ⟨rfl, .inr ⟨hcut, Nat.le_of_not_lt ha⟩⟩

theorem mem_of_truncateLogTo (h : d.truncateLogTo kind i = some d') (hl : l ∈ d'.logs) : l ∈ d.logs := by
  have hcut : l ∈ (d.deleteAfter i).logs → l ∈ d.logs := fun hx => (mem_filter.mp hx).1
  unfold truncateLogTo at h
  split at h
  · cases h
  split at h
  · split at h
    · cases h
      exact hl
    split at h
    · cases h
      exact hl
    · cases h
      exact hcut hl
  · split at h
    · cases h
      exact hl
    · cases h
      exact hcut hl

private theorem sizeLimited_le (limit size : Nat) (logs : List Log) : sizeLimited limit size logs <+: logs := by
  induction logs generalizing size with
  | nil => exact prefix_refl _
  | cons x logs ih =>
    rw [sizeLimited]
    split
    · exact ⟨logs, rfl⟩
    · exact (prefix_cons_inj x).mpr (ih _)

theorem mem_of_mem_getLogs {start stop limit : Nat} (h : l ∈ d.getLogs start stop limit) : l ∈ d.logs :=
  (mem_filter.mp ((sizeLimited_le limit 0 _).subset h)).1

theorem numbered_getLogs (hn : Numbered 1 d.logs) {start : Nat} (hs : 1 ≤ start)
    (stop limit : Nat) : Numbered start (d.getLogs start stop limit) := by
  have hfrom : Numbered start (d.logs.filter (start ≤ ·.index)) := by
    rw [(numbered_iff.mp hn).filter_ge]
    have := hn.drop (start - 1)
    rwa [Nat.add_sub_cancel' hs] at this
  have hread : Numbered start (d.logs.filter fun log => start ≤ log.index ∧ (stop = 0 ∨ log.index < stop)) := by
    have hsplit : (d.logs.filter fun log => start ≤ log.index ∧ (stop = 0 ∨ log.index < stop)) =
        (d.logs.filter (start ≤ ·.index)).filter fun log => stop = 0 ∨ log.index < stop := by
      simp [Bool.and_comm]
    rw [hsplit]
    by_cases h0 : stop = 0
    · rwa [filter_eq_self.mpr fun log _ => by simp [h0]]
    have hle : ∀ log ∈ d.logs.filter (start ≤ ·.index), decide (stop = 0 ∨ log.index < stop) =
        decide (log.index ≤ stop - 1) := by
      intro log _
      rw [decide_eq_decide]
      omega
    rw [filter_congr hle, hfrom.filter_le]
    exact hfrom.take _
  obtain ⟨rest, hrest⟩ := sizeLimited_le limit 0
    (d.logs.filter fun log => start ≤ log.index ∧ (stop = 0 ∨ log.index < stop))
  rw [← hrest] at hread
  exact hread.left

theorem getState_eq (kind : StorageKind) (d : LogStorage) :
    (d.getState kind).1.logs = d.logs ∧ (d.getState kind).1.termStarts = d.termStarts ∧
      (d.getState kind).2.lastLogIndex = d.lastIndex ∧ (d.getState kind).2.lastTerm = d.lastTerm := by
  cases kind with
  | slot =>
    unfold getState
    dsimp only
    split <;> exact ⟨rfl, rfl, rfl, rfl⟩
  | clusterConfig => exact ⟨rfl, rfl, rfl, rfl⟩

end LogStorage
end WuKongIM.Raft

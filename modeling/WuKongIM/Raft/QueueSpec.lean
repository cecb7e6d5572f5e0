import WuKongIM.Lib.Ordered
import WuKongIM.Raft.Queue

/-! What the operations of a queue do when its logs are numbered on from the stored index. -/
namespace WuKongIM.Raft
open Lib List Option

/-- The indexes count up from `start`. -/
def Numbered : Nat → List Log → Prop
  | _, [] => True
  | start, log :: logs => log.index = start ∧ Numbered (start + 1) logs

variable {a b logs : List Log} {start : Nat} {l : Log}

theorem numbered_iff : Numbered start logs ↔ Consecutive Log.index start logs := by
  induction logs generalizing start with
  | nil => exact iff_of_true trivial rfl
  | cons l logs ih => rw [consecutive_cons, ← ih, Numbered]

theorem numbered_append : Numbered start (a ++ b) ↔ Numbered start a ∧ Numbered (start + a.length) b := by
  simp only [numbered_iff, consecutive_append]

theorem Numbered.append (ha : Numbered start a) (hb : Numbered (start + a.length) b) : Numbered start (a ++ b) :=
  numbered_append.mpr ⟨ha, hb⟩

theorem Numbered.left (h : Numbered start (a ++ b)) : Numbered start a := (numbered_append.mp h).1

theorem Numbered.right (h : Numbered start (a ++ b)) : Numbered (start + a.length) b := (numbered_append.mp h).2

section
variable (h : Numbered start logs)
include h

theorem Numbered.take (k : Nat) : Numbered start (logs.take k) := by
  rw [← take_append_drop k logs] at h
  exact h.left

theorem Numbered.index_of_getLast (hl : logs.getLast? = some l) : l.index + 1 = start + logs.length :=
  (numbered_iff.mp h).getLast hl

theorem Numbered.mem_index (hl : l ∈ logs) : start ≤ l.index ∧ l.index < start + logs.length :=
  (numbered_iff.mp h).bounds hl

end

namespace Queue

/-- Where an incoming batch makes `append` cut the queue: it starts inside and ends outside. -/
def overlap (q : Queue) (incoming : List Log) : Option Nat :=
  match incoming with
  | [] => none
  | first :: rest =>
    if sequenceBreak 1 first rest = none ∧ pred64 first.index ≠ q.lastLogIndex ∧
        first.index ≤ q.lastLogIndex ∧ q.lastLogIndex < (rest.getLast?.getD first).index then
      some (pred64 first.index)
    else none

variable {rest : List Log} {first : Log} {q q' : Queue} {err : Option RaftError} {i : Nat} {position : Nat} {previous : Log}

/-- The indexes do not run out when the incoming logs are appended. -/
def Fits (q : Queue) (incoming : List Log) : Prop := q.lastLogIndex + incoming.length ≤ maxUint64
  deriving Decidable

private theorem numbered_of_sequenceBreak (h : sequenceBreak position previous rest = none)
    (hfits : previous.index + rest.length ≤ maxUint64) : Numbered previous.index (previous :: rest) := by
  induction rest generalizing position previous with
  | nil => exact ⟨rfl, trivial⟩
  | cons current rest ih =>
    rw [length_cons] at hfits
    rw [sequenceBreak] at h
    split at h
    · cases h
    rename_i hc
    have hc : current.index = previous.index + 1 := (not_not.mp hc).trans (add64_of_le (by omega))
    refine ⟨rfl, ?_⟩
    rw [← hc]
    exact ih h (by omega)

private theorem sequenceBreak_of_numbered (h : Numbered start (previous :: rest))
    (hfits : start + rest.length ≤ maxUint64) : sequenceBreak position previous rest = none := by
  induction rest generalizing position previous start with
  | nil => rfl
  | cons current rest ih =>
    rw [length_cons] at hfits
    obtain ⟨hp, hc, hr⟩ := h
    have hnext : current.index = add64 previous.index 1 := by
      rw [hc, hp, add64_of_le (by omega)]
    rw [sequenceBreak, if_neg (not_not.mpr hnext)]
    exact ih ⟨hc, hr⟩ (by omega)

theorem append_next (h : Numbered (q.lastLogIndex + 1) (first :: rest)) (hfits : q.Fits (first :: rest)) :
    q.append (first :: rest) = some (q.extend (first :: rest) (rest.getLast?.getD first).index, none) ∧
      q.overlap (first :: rest) = none := by
  have hprev : pred64 first.index = q.lastLogIndex := by
    rw [h.1]
    rfl
  constructor
  · rw [Fits, length_cons] at hfits
    rw [append, sequenceBreak_of_numbered h (by omega)]
    rw [if_pos hprev]
  · rw [overlap, if_neg fun hx => hx.2.1 hprev]

theorem append_cases (h : q.append logs = some (q', err)) : q' = q ∨
    (∃ first rest, logs = first :: rest ∧ sequenceBreak 1 first rest = none ∧
      pred64 first.index = q.lastLogIndex ∧ q' = q.extend logs (rest.getLast?.getD first).index) ∨
    ∃ first rest k, logs = first :: rest ∧ sequenceBreak 1 first rest = none ∧
      q.overlap logs = some (pred64 first.index) ∧ q.truncateLogTo (pred64 first.index) = some k ∧
      q' = k.extend logs (rest.getLast?.getD first).index := by
  unfold append at h
  split at h
  · cases h
    exact .inl rfl
  rename_i first rest
  split at h
  · cases h
    exact .inl rfl
  rename_i hseq
  dsimp only at h
  split at h
  · rename_i hprev
    cases h
    exact .inr (.inl ⟨first, rest, rfl, hseq, hprev, rfl⟩)
  rename_i hprev
  split at h
  · rename_i hin
    split at h
    · cases h
      exact .inl rfl
    rename_i hout
    obtain ⟨k, hk, he⟩ := map_eq_some_iff.mp h
    cases he
    refine .inr (.inr ⟨first, rest, k, rfl, hseq, ?_, hk, rfl⟩)
    rw [overlap, if_pos ⟨hseq, hprev, hin, Nat.lt_of_not_le hout⟩]
  split at h
  · cases h
    exact .inl rfl
  · cases h
    exact .inl rfl

theorem append_sameApplied (h : q.append logs = some (q', err)) : q.SameApplied q' := by
  obtain rfl | ⟨first, rest, -, -, -, rfl⟩ | ⟨first, rest, k, -, -, -, hk, rfl⟩ := append_cases h
  · exact ⟨rfl, rfl, rfl⟩
  · exact ⟨rfl, rfl, rfl⟩
  · exact ⟨(truncate_sameApplied hk).committedIndex, (truncate_sameApplied hk).appliedIndex,
      (truncate_sameApplied hk).applying⟩

theorem truncate_appending (h : q.truncateLogTo i = some q') : q'.appending = q.appending := by
  obtain ⟨-, ⟨-, rfl⟩ | ⟨-, rfl⟩⟩ := truncate_eq_some h
  · rfl
  · rfl

theorem append_appending (h : q.append logs = some (q', err)) : q'.appending = q.appending := by
  obtain rfl | ⟨first, rest, -, -, -, rfl⟩ | ⟨first, rest, k, -, -, -, hk, rfl⟩ := append_cases h
  · rfl
  · rfl
  · change k.appending = q.appending
    exact truncate_appending hk

theorem le_of_overlap (h : q.overlap (first :: rest) = some i) :
    first.index ≤ q.lastLogIndex ∧ q.lastLogIndex < (rest.getLast?.getD first).index := by
  unfold overlap at h
  dsimp only at h
  split at h
  · rename_i hc
    exact hc.2.2
  · cases h

private theorem index_of_pred64 {last : Nat} (h : pred64 first.index = last)
    (hlast : last < maxUint64) : first.index = last + 1 := by
  unfold pred64 at h
  split at h
  · omega
  · omega

/-- A batch that fits is appended as it is numbered, to the queue or to what a cut leaves of it. -/
theorem append_cases_of_fits (h : q.append logs = some (q', err)) (hfits : q.Fits logs) : q' = q ∨
    (∃ first rest, logs = first :: rest ∧ Numbered first.index logs ∧ first.index = q.lastLogIndex + 1 ∧
      q' = q.extend logs (rest.getLast?.getD first).index) ∨
    ∃ first rest i k, logs = first :: rest ∧ Numbered first.index logs ∧ (i ≤ q.lastLogIndex → first.index = i + 1) ∧
      q.overlap logs = some i ∧ q.truncateLogTo i = some k ∧ q' = k.extend logs (rest.getLast?.getD first).index := by
  obtain rfl | ⟨first, rest, rfl, hseq, hprev, rfl⟩ | ⟨first, rest, k, rfl, hseq, ho, ht, rfl⟩ := append_cases h
  · exact .inl rfl
  · rw [Fits, length_cons] at hfits
    have hfirst := index_of_pred64 hprev (by omega)
    exact .inr (.inl ⟨first, rest, rfl, numbered_of_sequenceBreak hseq (by omega), hfirst, rfl⟩)
  · rw [Fits, length_cons] at hfits
    have hle := (le_of_overlap ho).1
    exact .inr (.inr ⟨first, rest, _, k, rfl, numbered_of_sequenceBreak hseq (by omega),
      fun hi => index_of_pred64 rfl (by omega), ho, ht, rfl⟩)

theorem append_isSome (h : ∀ i, q.overlap logs = some i → (q.truncateLogTo i).isSome) : (q.append logs).isSome := by
  unfold append
  split
  · rfl
  split
  · rfl
  rename_i hseq
  dsimp only
  split
  · rfl
  rename_i hprev
  split
  · rename_i hin
    split
    · rfl
    rename_i hout
    rw [isSome_map]
    apply h
    rw [overlap, if_pos ⟨hseq, hprev, hin, Nat.lt_of_not_le hout⟩]
  split
  · rfl
  · rfl

/-- The logs in memory continue the stored ones up to the last index. -/
structure Sound (q : Queue) : Prop where
  last : q.lastLogIndex = q.storedIndex + q.logs.length
  numbered : Numbered (q.storedIndex + 1) q.logs

theorem index_getLastD (h : Numbered first.index (first :: rest)) :
    (rest.getLast?.getD first).index = first.index + rest.length := by
  have hl : (first :: rest).getLast? = some (rest.getLast?.getD first) := by
    rw [getLast?_cons]
  have := h.index_of_getLast hl
  rw [length_cons] at this
  omega

theorem Sound.extend (h : q.Sound) (hn : Numbered first.index (first :: rest)) (h0 : first.index = q.lastLogIndex + 1) :
    (q.extend (first :: rest) (rest.getLast?.getD first).index).Sound := by
  constructor
  · change (rest.getLast?.getD first).index = q.storedIndex + (q.logs ++ first :: rest).length
    rw [index_getLastD hn, length_append, length_cons]
    have := h.last
    omega
  · refine h.numbered.append ?_
    have := h.last
    rw [h0, this] at hn
    have he : q.storedIndex + 1 + q.logs.length = q.storedIndex + q.logs.length + 1 := by omega
    rwa [he]

/-- A cut is safe above the stored index, and below it when no log waits in memory. -/
def CutSafe (q : Queue) (i : Nat) : Prop := i ≤ q.lastLogIndex ∧ (q.storedIndex ≤ i ∨ q.logs = [])
  deriving Decidable

theorem truncate_indexes (h : q.truncateLogTo i = some q') : q'.storedIndex = min q.storedIndex i ∧ q'.lastLogIndex = i := by
  obtain ⟨-, ⟨hlt, rfl⟩ | ⟨hge, rfl⟩⟩ := truncate_eq_some h
  · exact ⟨(Nat.min_eq_right (le_of_lt hlt)).symm, rfl⟩
  · exact ⟨(Nat.min_eq_left hge).symm, rfl⟩

theorem truncate_subset (h : q.truncateLogTo i = some q') : q'.logs ⊆ q.logs := by
  obtain ⟨-, ⟨-, rfl⟩ | ⟨-, rfl⟩⟩ := truncate_eq_some h
  · exact Subset.refl _
  · exact take_subset _ _

variable (h : q.Sound) {batch : List Log}
include h

theorem truncateLogTo_isSome (hi : i ≤ q.lastLogIndex) : (q.truncateLogTo i).isSome := by
  unfold truncateLogTo
  rw [if_neg (Nat.not_lt.mpr hi)]
  split
  · rfl
  rw [if_neg]
  · rfl
  · have := h.last
    omega

theorem Sound.nextStoreLogs : ∃ b, q.nextStoreLogs = some ({ q with appending := b }, q.logs) := by
  have hl := h.last
  unfold Queue.nextStoreLogs
  split
  · rename_i hnil
    exact ⟨q.appending, congrArg (fun l => some (q, l)) (length_eq_zero_iff.mp hnil).symm⟩
  · rw [if_neg (by omega), take_of_length_le (by omega)]
    exact ⟨true, rfl⟩

theorem Sound.truncateLogTo (hc : q.CutSafe i) (ht : q.truncateLogTo i = some q') : q'.Sound ∧ q'.lastLogIndex = i := by
  obtain ⟨hi, ⟨hlt, rfl⟩ | ⟨hge, rfl⟩⟩ := truncate_eq_some ht
  · have hnil : q.logs = [] := hc.2.resolve_left (Nat.not_le.mpr hlt)
    refine ⟨⟨?_, ?_⟩, rfl⟩
    · rw [hnil]
      rfl
    · rw [hnil]
      trivial
  · refine ⟨⟨?_, h.numbered.take _⟩, rfl⟩
    change i = q.storedIndex + (q.logs.take (i - q.storedIndex)).length
    have := h.last
    rw [length_take]
    omega

theorem Sound.storeTo (hb : q.logs = batch ++ rest) (hne : batch ≠ []) :
    q.storeTo (q.storedIndex + batch.length) = some
      { q with appending := false, logs := rest, storedIndex := q.storedIndex + batch.length } := by
  have hpos := length_pos_iff.mpr hne
  have hlen : q.logs.length = batch.length + rest.length := by rw [hb, length_append]
  have hl := h.last
  unfold Queue.storeTo
  dsimp only
  rw [if_neg (by omega), if_neg (by omega), if_neg (by omega)]
  have hd : q.logs.drop (q.storedIndex + batch.length - q.storedIndex) = rest := by
    rw [Nat.add_sub_cancel_left, hb, drop_left]
  rw [hd]

theorem Sound.stored (hb : q.logs = batch ++ rest) :
    { q with appending := false, logs := rest, storedIndex := q.storedIndex + batch.length }.Sound := by
  constructor
  · change q.lastLogIndex = q.storedIndex + batch.length + rest.length
    rw [h.last, hb, length_append]
    omega
  · have := h.numbered
    rw [hb] at this
    have hr := this.right
    rwa [Nat.add_right_comm] at hr

end Queue
end WuKongIM.Raft

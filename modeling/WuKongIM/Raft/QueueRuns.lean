import WuKongIM.Lib.Run
import WuKongIM.Raft.QueueSpec

/-! Runs of the calls of a log queue. -/
namespace WuKongIM.Raft
open Lib List

inductive QueueCall
  | append (incomingLogs : List Log)
  | nextStoreLogs
  | storeTo (logIndex : Nat)
  | truncateLogTo (logIndex : Nat)
  | nextApplyLogs
  | appliedTo (index : Nat)

/-- A queue, and the logs of the batches that it took in. -/
structure QueueRun where
  queue : Queue
  appended : List Log := []

namespace QueueRun

def step (s : QueueRun) : QueueCall → Option QueueRun
  | .append logs => (s.queue.append logs).map fun (q, _) =>
    { queue := q, appended := if q = s.queue then s.appended else s.appended ++ logs }
  | .nextStoreLogs => s.queue.nextStoreLogs.map fun (q, _) => { s with queue := q }
  | .storeTo i => (s.queue.storeTo i).map fun q => { s with queue := q }
  | .truncateLogTo i => (s.queue.truncateLogTo i).map fun q => { s with queue := q }
  | .nextApplyLogs => some { s with queue := s.queue.nextApplyLogs.1 }
  | .appliedTo i => some { s with queue := s.queue.appliedTo i }

/-- Indexes do not run out, and no cut, of a call or of an overlapping batch, goes below the stored
index while logs wait in memory. -/
def Careful (s : QueueRun) : QueueCall → Prop
  | .append logs => s.queue.Fits logs ∧ ∀ i, s.queue.overlap logs = some i → s.queue.CutSafe i
  | .storeTo i => i ≤ s.queue.lastLogIndex
  | .truncateLogTo i => s.queue.CutSafe i
  | _ => True

/-- Each of the logs is the last one of its index that was appended. -/
def Latest (appended logs : List Log) : Prop :=
  ∀ l ∈ logs, ∃ before after, appended = before ++ l :: after ∧ ∀ x ∈ after, x.index ≠ l.index

structure Sound (s : QueueRun) : Prop where
  queue : s.queue.Sound
  latest : Latest s.appended s.queue.logs

variable {s t : QueueRun} {a : QueueCall} {q : Queue} {appended logs incoming rest : List Log} {first : Log} {start : Nat}

theorem Latest.extend (h : Latest appended logs) (hn : Numbered start incoming)
    (hlt : ∀ l ∈ logs, l.index < start) : Latest (appended ++ incoming) (logs ++ incoming) := by
  intro l hl
  rcases mem_append.mp hl with hl | hl
  · obtain ⟨before, after, rfl, hafter⟩ := h l hl
    refine ⟨before, after ++ incoming, append_assoc .., fun x hx => ?_⟩
    rcases mem_append.mp hx with hx | hx
    · exact hafter x hx
    · have := (hn.mem_index hx).1
      have := hlt l hl
      omega
  · obtain ⟨before, after, rfl⟩ := append_of_mem hl
    refine ⟨appended ++ before, after, (append_assoc ..).symm, fun x hx => ?_⟩
    obtain ⟨hself, hafter⟩ := hn.right
    have := (hafter.mem_index hx).1
    omega

section
variable (h : s.Sound) (hq : q.Sound) (hsub : q.logs ⊆ s.queue.logs)
include h hq hsub

theorem Sound.shrink : Sound { s with queue := q } := ⟨hq, fun l hl => h.latest l (hsub hl)⟩

theorem Sound.extend (hn : Numbered first.index (first :: rest)) (h0 : first.index = q.lastLogIndex + 1)
    (hgrow : s.queue.lastLogIndex < (rest.getLast?.getD first).index) :
    let q' := q.extend (first :: rest) (rest.getLast?.getD first).index
    Sound ⟨q', if q' = s.queue then s.appended else s.appended ++ first :: rest⟩ := by
  intro q'
  have hne : q' ≠ s.queue := by
    intro heq
    rw [← heq] at hgrow
    exact absurd hgrow (lt_irrefl _)
  rw [if_neg hne]
  refine ⟨hq.extend hn h0, (h.shrink hq hsub).latest.extend hn fun l hl => ?_⟩
  have := (hq.numbered.mem_index hl).2
  have := hq.last
  omega

end

theorem Sound.append (h : s.Sound) (hc : s.Careful (.append incoming)) {err : Option RaftError}
    (hq : s.queue.append incoming = some (q, err)) :
    Sound ⟨q, if q = s.queue then s.appended else s.appended ++ incoming⟩ := by
  obtain rfl | ⟨first, rest, rfl, hn, h0, rfl⟩ | ⟨first, rest, i, k, rfl, hn, h0, hover, hk, rfl⟩ :=
    Queue.append_cases_of_fits hq hc.1
  · rw [if_pos rfl]
    exact h
  · refine h.extend h.queue (Subset.refl _) hn h0 ?_
    rw [Queue.index_getLastD hn]
    omega
  · obtain ⟨hkq, hlast⟩ := h.queue.truncateLogTo (hc.2 _ hover) hk
    have h0 : first.index = k.lastLogIndex + 1 := by rw [hlast, h0 (hc.2 _ hover).1]
    exact h.extend hkq (Queue.truncate_subset hk) hn h0 (Queue.le_of_overlap hover).2

theorem Sound.step (h : s.Sound) (hc : s.Careful a) : ∃ t, s.step a = some t ∧ t.Sound := by
  have hlast := h.queue.last
  have hsame : ({ s.queue with appending := false } : Queue).Sound := ⟨hlast, h.queue.numbered⟩
  cases a with
  | append logs =>
    obtain ⟨⟨q, err⟩, hq⟩ := Option.isSome_iff_exists.mp
      (Queue.append_isSome fun i hi => Queue.truncateLogTo_isSome h.queue (hc.2 i hi).1)
    exact ⟨_, by rw [step, hq]; rfl, h.append hc hq⟩
  | nextStoreLogs =>
    obtain ⟨b, hq⟩ := h.queue.nextStoreLogs
    exact ⟨{ s with queue := { s.queue with appending := b } }, by rw [step, hq]; rfl, ⟨hlast, h.queue.numbered⟩, h.latest⟩
  | storeTo i =>
    have hi : i ≤ s.queue.lastLogIndex := hc
    rw [step, Queue.storeTo]
    split
    · exact ⟨_, rfl, hsame, h.latest⟩
    rename_i hlt
    dsimp only at hlt ⊢
    rw [if_neg (Nat.not_lt.mpr hi), if_neg (by omega)]
    refine ⟨_, rfl, h.shrink ?_ (drop_subset _ _)⟩
    have hs := h.queue.stored (take_append_drop (i - s.queue.storedIndex) s.queue.logs).symm
    rwa [length_take_of_le (by omega), Nat.add_sub_cancel' (by omega)] at hs
  | truncateLogTo i =>
    obtain ⟨q, hq⟩ := Option.isSome_iff_exists.mp (Queue.truncateLogTo_isSome h.queue hc.1)
    exact ⟨_, by rw [step, hq]; rfl, h.shrink (h.queue.truncateLogTo hc hq).1 (Queue.truncate_subset hq)⟩
  | nextApplyLogs =>
    refine ⟨_, rfl, ?_⟩
    simp only [Queue.nextApplyLogs]
    split
    · exact h
    split
    all_goals exact ⟨⟨hlast, h.queue.numbered⟩, h.latest⟩
  | appliedTo i =>
    refine ⟨_, rfl, ?_⟩
    rw [Queue.appliedTo_eq]
    exact ⟨⟨hlast, h.queue.numbered⟩, h.latest⟩

/-- While indexes do not run out and no cut goes below the stored index with logs in memory: the
logs in memory are those from the stored index to the last one, each the last of its index that was
appended, and the next to be stored; and no call panics. -/
theorem queue_stays_sound
    (h : Reach (fun s => ∃ applied last, s = ⟨newQueue applied last, []⟩) step Careful s) :
    s.queue.storedIndex ≤ s.queue.lastLogIndex ∧ s.queue.logs.length = s.queue.lastLogIndex - s.queue.storedIndex ∧
    Numbered (s.queue.storedIndex + 1) s.queue.logs ∧ Latest s.appended s.queue.logs ∧
    s.queue.nextStoreLogs.map Prod.snd = some s.queue.logs ∧ ∀ a, s.Careful a → (s.step a).isSome := by
  have hs : s.Sound := by
    refine h.invariant Sound ?_ fun s a t hs ha hst => ?_
    · rintro _ ⟨applied, last, rfl⟩
      exact ⟨⟨rfl, trivial⟩, nofun⟩
    · obtain ⟨t', ht', hsound⟩ := hs.step ha
      cases ht'.symm.trans hst
      exact hsound
  have hlast := hs.queue.last
  obtain ⟨b, hnext⟩ := hs.queue.nextStoreLogs
  refine ⟨by omega, by omega, hs.queue.numbered, hs.latest, by rw [hnext]; rfl, fun a ha => ?_⟩
  obtain ⟨t, ht, -⟩ := hs.step ha
  rw [ht]
  rfl

theorem queue_stays_sound_appended : ∃ s, Reach (fun s => ∃ applied last, s = ⟨newQueue applied last, []⟩) step Careful s ∧
    s.queue.logs = [⟨0, 3, 1, []⟩] ∧ s.queue.nextStoreLogs.map Prod.snd = some s.queue.logs := by
  have hr : Reach (fun s => ∃ applied last, s = ⟨newQueue applied last, []⟩) step Careful ⟨newQueue 0 2, []⟩ := .init ⟨0, 2, rfl⟩
  have hc : Careful ⟨newQueue 0 2, []⟩ (.append [⟨0, 3, 1, []⟩]) := ⟨by decide, nofun⟩
  exact ⟨_, hr.step hc rfl, rfl, (queue_stays_sound (hr.step hc rfl)).2.2.2.2.1⟩

/-- Logs are stored up to 2 and the log 3 waits in memory. After a cut to 1 it is still there, and
is given out to be stored in the place of the log 2 that was appended since. -/
theorem queue_stays_sound_fails :
    (exec step (fun _ _ => true) ⟨newQueue 0 2, []⟩ [.append [⟨0, 3, 1, []⟩], .truncateLogTo 1]).map
      (fun s => (s.queue.logs.length, s.queue.lastLogIndex - s.queue.storedIndex)) = some (1, 0) ∧
    (exec step (fun _ _ => true) ⟨newQueue 0 2, []⟩ [.append [⟨0, 3, 1, []⟩], .truncateLogTo 1, .append [⟨0, 2, 2, []⟩]]).map
      (fun s => s.queue.nextStoreLogs.map (·.2)) = some (some [⟨0, 3, 1, []⟩]) := by
  decide +kernel

end QueueRun
end WuKongIM.Raft

import WuKongIM.Lib.Quorum
import WuKongIM.Raft.Steady

/-! How a leader commits. -/
namespace WuKongIM.Raft
open Lib List

namespace Node
variable (n : Node)

private theorem foldl_less_than (l : List (Sigma fun _ : Nat => SyncInfo)) (maxIndex second : Nat)
    (h0 : maxIndex ≠ 0) (h : second < maxIndex) : l.foldl (fun second s => if s.2.storedIndex < maxIndex ∨ maxIndex = 0 then
        if second < s.2.storedIndex then s.2.storedIndex else second else second) second < maxIndex := by
  induction l generalizing second with
  | nil => exact h
  | cons s l ih =>
    refine ih _ ?_
    dsimp only
    split
    · rename_i hs
      split
      · exact hs.resolve_right h0
      · exact h
    · exact h

theorem lessThanParam_lt (maxIndex : Nat) (h0 : maxIndex ≠ 0) :
    n.getMaxLogIndexLessThanParam maxIndex < maxIndex := by
  have h := foldl_less_than n.replicaSync.entries maxIndex 0 h0 (Nat.pos_of_ne_zero h0)
  unfold getMaxLogIndexLessThanParam
  dsimp only
  split
  · omega
  · exact h

/-- The loop ends by itself: more rounds than it is given change nothing. -/
theorem commitLoop_enough (fuel extra maxIndex newCommitted : Nat) (h : n.getMaxLogIndexLessThanParam maxIndex < fuel) :
    n.commitLoop (fuel + extra) maxIndex newCommitted = n.commitLoop fuel maxIndex newCommitted := by
  induction fuel generalizing maxIndex newCommitted with
  | zero => omega
  | succ fuel ih =>
    rw [Nat.succ_add, commitLoop, commitLoop]
    split
    · rfl
    rename_i hne
    have hlt := n.lessThanParam_lt _ hne
    split
    · rfl
    split
    all_goals exact ih _ _ (by omega)

theorem commitLoop_spec (fuel maxIndex newCommitted : Nat) : n.commitLoop fuel maxIndex newCommitted = newCommitted ∨
      n.queue.committedIndex < n.commitLoop fuel maxIndex newCommitted ∧
      n.commitLoop fuel maxIndex newCommitted ≤ n.queue.storedIndex ∧
      reportsReach n.quorum (n.commitLoop fuel maxIndex newCommitted) n.replicaSync.entries 0 := by
  induction fuel generalizing maxIndex newCommitted with
  | zero => exact .inl rfl
  | succ fuel ih =>
    rw [commitLoop]
    split
    · exact .inl rfl
    split
    · exact .inl rfl
    split
    · exact ih _ _
    by_cases hr : reportsReach n.quorum (n.getMaxLogIndexLessThanParam maxIndex) n.replicaSync.entries 0
    · rw [if_pos hr]
      rcases ih (n.getMaxLogIndexLessThanParam maxIndex) (n.getMaxLogIndexLessThanParam maxIndex) with h | h
      · rw [h]
        exact .inr ⟨by omega, by omega, hr⟩
      · exact .inr h
    · rw [if_neg hr]
      exact ih _ _

private theorem reportsReach_count (quorum index : Nat) (l : List (Sigma fun _ : Nat => SyncInfo))
    (count : Nat) (h : reportsReach quorum index l count) :
      quorum ≤ l.countP (fun s => decide (index + 1 ≤ s.2.storedIndex)) + count + 1 := by
  induction l generalizing count with
  | nil => cases h
  | cons s l ih =>
    rw [reportsReach] at h
    rw [countP_cons]
    by_cases hs : index + 1 ≤ s.2.storedIndex
    · simp only [hs, if_true, decide_true] at h ⊢
      split at h
      · omega
      · have := ih _ h
        omega
    · simp only [hs, if_false] at h ⊢
      split at h
      · omega
      · have := ih _ h
        omega

/-- The stored index that `r` reported last, which is one past its log; zero if it never did. -/
def reported (r : Nat) : Nat := ((n.replicaSync.lookup r).getD {}).storedIndex

/-- Node `r` holds the log up to `index`, as far as the leader knows. -/
def Holds (r index : Nat) : Prop :=
  if r = n.opts.nodeId then index ≤ n.queue.storedIndex else index + 1 ≤ n.reported r
  deriving Decidable

/-- A majority of the voters holds the log up to the committed index. -/
def Backed : Prop :=
  ∃ q : Finset Nat, Majority n.cfg.replicas q ∧ ∀ r ∈ q, n.Holds r n.queue.committedIndex

private theorem exists_reporters (index : Nat) :
    ∃ q : Finset Nat, q.card = n.replicaSync.entries.countP (fun s => decide (index ≤ s.2.storedIndex)) ∧
      ∀ r ∈ q, ∃ info, n.replicaSync.lookup r = some info ∧ index ≤ info.storedIndex := by
  have hnd : ((n.replicaSync.entries.filter fun s => decide (index ≤ s.2.storedIndex)).map Sigma.fst).Nodup :=
    (filter_sublist.map Sigma.fst).nodup n.replicaSync.nodupKeys
  refine ⟨((n.replicaSync.entries.filter fun s => decide (index ≤ s.2.storedIndex)).map Sigma.fst).toFinset, ?_, ?_⟩
  · rw [toFinset_card_of_nodup hnd, length_map, countP_eq_length_filter]
  intro r hr
  obtain ⟨⟨k, info⟩, hk, rfl⟩ := mem_map.mp (mem_toFinset.mp hr)
  obtain ⟨hin, hle⟩ := mem_filter.mp hk
  exact ⟨info, AList.mem_lookup_iff.mpr hin, by simpa using hle⟩

/-- Every report above the committed index is one of another voter. -/
def OutsidersBehind : Prop :=
  ∀ s ∈ n.replicaSync.entries, n.queue.committedIndex + 1 < s.2.storedIndex →
    s.1 ∈ n.cfg.replicas ∧ s.1 ≠ n.opts.nodeId
  deriving Decidable

theorem backed_of_single (hm : n.opts.nodeId ∈ n.cfg.replicas) (hq : n.quorum ≤ 1)
    (hc : n.queue.committedIndex ≤ n.queue.storedIndex) : n.Backed := by
  refine ⟨{n.opts.nodeId}, ⟨?_, hq⟩, ?_⟩
  · intro r hr
    rw [Finset.mem_singleton.mp hr]
    exact hm
  · intro r hr
    rw [Finset.mem_singleton.mp hr, Holds, if_pos rfl]
    exact hc

theorem leaderCommit_backed (hm : n.opts.nodeId ∈ n.cfg.replicas) (ho : 1 < n.quorum → n.OutsidersBehind)
    (hr : n.queue.committedIndex < n.updateLeaderCommittedIndex.queue.committedIndex) :
      n.updateLeaderCommittedIndex.Backed := by
  unfold updateLeaderCommittedIndex at hr ⊢
  dsimp only at hr ⊢
  split at hr
  · rename_i hnew
    rw [if_pos hnew]
    unfold committedIndexForLeader at hnew ⊢
    split at hnew
    · rename_i hq
      rw [if_pos hq]
      exact backed_of_single _ hm hq le_rfl
    rename_i hq
    rw [if_neg hq]
    dsimp only at hnew ⊢
    split at hnew
    · rename_i hgt
      rw [if_pos hgt]
      rcases n.commitLoop_spec (n.getMaxLogIndexLessThanParam 0 + 1) 0 0 with h0 | ⟨-, hst, hreach⟩
      · omega
      rw [min_eq_left hst]
      generalize n.commitLoop (n.getMaxLogIndexLessThanParam 0 + 1) 0 0 = index at hgt hst hreach ⊢
      obtain ⟨q, hcard, hq'⟩ := n.exists_reporters (index + 1)
      have hcount := reportsReach_count _ _ _ _ hreach
      have hvoter : ∀ r ∈ q, r ∈ n.cfg.replicas ∧ r ≠ n.opts.nodeId := by
        intro r hr
        obtain ⟨info, hl, hle⟩ := hq' r hr
        exact ho (by omega) ⟨r, info⟩ (AList.mem_lookup_iff.mp hl) (by dsimp only; omega)
      have hself : n.opts.nodeId ∉ q := fun hx => (hvoter _ hx).2 rfl
      refine ⟨insert n.opts.nodeId q, ⟨?_, ?_⟩, ?_⟩
      · intro r hr
        rcases Finset.mem_insert.mp hr with rfl | hr
        · exact hm
        · exact (hvoter r hr).1
      · rw [Finset.card_insert_of_notMem hself, hcard]
        exact hcount
      · intro r hr
        rcases Finset.mem_insert.mp hr with rfl | hr
        · rw [Holds, if_pos rfl]
          exact hst
        · obtain ⟨info, hl, hle⟩ := hq' r hr
          rw [Holds, if_neg (hvoter r hr).2, reported]
          rw [hl]
          exact hle
    · omega
  · omega

private theorem reported_insert {m : Node} {r : Nat} {info : SyncInfo}
    (hm : m.replicaSync = n.replicaSync.insert r info) (hi : info.storedIndex = n.reported r)
    (k : Nat) : m.reported k = n.reported k := by
  unfold reported
  rw [hm]
  by_cases hk : k = r
  · rw [hk, AList.lookup_insert]
    exact hi
  · rw [AList.lookup_insert_ne hk]

private theorem reported_switching (nodeId : Nat) (b : Bool) (k : Nat) :
    (n.setRoleSwitching nodeId b).reported k = n.reported k := by
  unfold setRoleSwitching
  split
  · rfl
  rename_i info hl
  refine n.reported_insert rfl ?_ k
  rw [reported, hl]
  rfl

variable (e : Event)

private theorem reported_switchIfNeed (k : Nat) : (n.roleSwitchIfNeed e).reported k = n.reported k := by
  have hs := n.reported_switching e.fromNode true k
  unfold roleSwitchIfNeed
  repeat' split
  all_goals first
    | rfl
    | exact hs

private theorem reported_answerEmptySync (k : Nat) : (n.answerEmptySync e).reported k = n.reported k := by
  unfold answerEmptySync
  split
  · refine n.reported_insert rfl ?_ k
    rfl
  · rfl

private theorem reported_fetchForReplica (k : Nat) : (n.fetchForReplica e).reported k = n.reported k := by
  unfold fetchForReplica
  dsimp only
  split
  · refine n.reported_insert rfl ?_ k
    rfl
  · refine n.reported_insert rfl ?_ k
    rfl

theorem Backed.of_same {n m : Node} (h : n.Backed) (ho : m.opts = n.opts) (hc : m.cfg = n.cfg)
    (hq : m.queue = n.queue) (hr : ∀ k, m.reported k = n.reported k) : m.Backed := by
  obtain ⟨q, hmaj, hh⟩ := h
  refine ⟨q, hc ▸ hmaj, ?_⟩
  intro r hm
  have := hh r hm
  unfold Holds at this ⊢
  rw [ho, hq, hr]
  exact this

/-- The reports that count when the sender of `e` is recorded. -/
def syncedBy : Node := ({ n with idleTick := 0 } : Node).updateSyncInfo e

theorem stepSyncReq_backed (hm : n.opts.nodeId ∈ n.cfg.replicas)
    (ho : n.isLearner e.fromNode = false → 1 < n.quorum → (n.syncedBy e).OutsidersBehind)
    (hr : n.queue.committedIndex < (n.stepSyncReq e).queue.committedIndex) : (n.stepSyncReq e).Backed := by
  have hrec : n.queue.committedIndex < (n.recordSyncReq e).queue.committedIndex → (n.recordSyncReq e).Backed := by
    intro hlt
    unfold recordSyncReq at hlt ⊢
    have hq := fun k : Node => (k.notes_switchIfNeed e).quiet.core
    rw [hq] at hlt
    cases hl : n.isLearner e.fromNode with
    | true =>
      rw [hl] at hlt
      exact absurd hlt (lt_irrefl _)
    | false =>
      rw [hl] at hlt
      refine (leaderCommit_backed (n.syncedBy e) hm (ho hl) hlt).of_same ?_ ?_ ?_
        (reported_switchIfNeed _ e)
      all_goals rw [hq]; rfl
  unfold stepSyncReq at hr ⊢
  dsimp only at hr ⊢
  split at hr
  · rename_i hc
    rw [if_pos hc]
    have hq := (notes_answerEmptySync (n.recordSyncReq e) e).quiet.core
    rw [hq] at hr
    exact (hrec hr).of_same (by rw [hq]) (by rw [hq]) (by rw [hq]) (reported_answerEmptySync _ e)
  · rename_i hc
    rw [if_neg hc]
    have hq : ((n.recordSyncReq e).fetchForReplica e).toNodeCore = (n.recordSyncReq e).toNodeCore := by
      unfold fetchForReplica
      dsimp only
      split <;> rfl
    rw [hq] at hr
    exact (hrec hr).of_same (by rw [hq]) (by rw [hq]) (by rw [hq]) (reported_fetchForReplica _ e)

theorem stored_committed {n m : Node} {e : Event} (h : n.stored e = some m) :
    m.queue.committedIndex = n.queue.committedIndex ∧ m.opts = n.opts ∧ m.cfg = n.cfg := by
  obtain ⟨-, rfl⟩ | ⟨-, -, q, hq, rfl⟩ := stored_cases h
  · exact ⟨rfl, rfl, rfl⟩
  · exact ⟨(Queue.storeTo_sameApplied hq).committedIndex, rfl, rfl⟩

end Node
end WuKongIM.Raft

import WuKongIM.Raft.Commit

/-! Only voters commit, in every run of a leader in which no learner and no stranger has reported
more than is committed. -/
namespace WuKongIM.Raft
open Lib Option

namespace Node
variable (n : Node)

/-- The events that replicate the log of a leader. -/
def isReplication : EventType → Bool
  | .syncReq | .storeResp | .propose => true
  | _ => false

def replicate (e : Event) : Option Node := if isReplication e.type then (n.step e).map (·.1) else none

/-- When the step recomputes the committed index of a group, only voters have reported beyond it. -/
def ReportsByVoters (e : Event) : Prop :=
  e.type = .syncReq → n.isLearner e.fromNode = false → 1 < n.quorum → (n.syncedBy e).OutsidersBehind
  deriving Decidable

variable {n} {m : Node} {e : Event} {err : Option RaftError}

private theorem replication_steady (ht : isReplication e.type) (h : n.stepEvent e = some (m, err)) : Steady n m := by
  have ha : e.type ≠ .applyResp := by rintro hx; rw [hx] at ht; cases ht
  obtain hlog | ⟨hr, -⟩ := stepEvent_cases (T := False) ha nofun h
  · exact hlog.log.steady
  · cases hx : e.type <;> simp [hx, isReplication, EventType.movesRole] at ht hr

private theorem storeResp_committed (h : n.stepStoreRespFollow e = some (m, err)) :
    m.queue.committedIndex = n.queue.committedIndex := by
  obtain ⟨k, hk, he⟩ := map_eq_some_iff.mp h
  have hc := (stored_committed hk).1
  cases he
  split
  · rw [k.notes_sendSyncReq.quiet.core]
    exact hc
  · exact hc

private theorem stepLeader_backed (ht : isReplication e.type) (hm : n.opts.nodeId ∈ n.cfg.replicas)
    (ho : n.ReportsByVoters e) (h : n.stepLeader e = some (m, err))
    (hr : n.queue.committedIndex < m.queue.committedIndex) : m.Backed := by
  unfold stepLeader at h
  split at h
  case h_1 =>
    split at h
    · cases h
      exact absurd hr (lt_irrefl _)
    · obtain ⟨r, hq, he⟩ := map_eq_some_iff.mp h
      cases he
      exact absurd hr (Queue.append_sameApplied hq).committedIndex.le.not_gt
  case h_2 hx =>
    cases h
    exact n.stepSyncReq_backed e hm (ho hx) hr
  case h_3 =>
    obtain ⟨k, hk, he⟩ := map_eq_some_iff.mp h
    obtain ⟨hc, hopts, hcfg⟩ := stored_committed hk
    split at he
    · have hn := fun j : Node => j.notes_notifySync_all.quiet.core
      cases he
      split at hr
      · rename_i hq
        rw [if_pos hq]
        rw [hn, ← hc] at hr
        have hsame : k.updateLeaderCommittedIndex.opts = k.opts ∧ k.updateLeaderCommittedIndex.cfg = k.cfg ∧
            k.updateLeaderCommittedIndex.queue.committedIndex ≤ k.updateLeaderCommittedIndex.queue.storedIndex := by
          unfold updateLeaderCommittedIndex at hr ⊢
          dsimp only at hr ⊢
          split at hr
          · rename_i hx
            rw [if_pos hx]
            refine ⟨rfl, rfl, ?_⟩
            rw [committedIndexForLeader, if_pos hq]
          · exact absurd hr (lt_irrefl _)
        refine backed_of_single _ ?_ ?_ ?_
        · rw [hn, hsame.1, hsame.2.1, hopts, hcfg]
          exact hm
        · rw [quorum, hn, hsame.2.1]
          exact hq
        · rw [hn]
          exact hsame.2.2
      · rw [hn, hc] at hr
        exact absurd hr (lt_irrefl _)
    · cases he
      rw [hc] at hr
      exact absurd hr (lt_irrefl _)
  all_goals
    rename_i hx
    first
      | (rw [hx] at ht; cases ht)
      | (cases h; exact absurd hr (lt_irrefl _))

private theorem stepEvent_backed (ht : isReplication e.type) (hm : n.opts.nodeId ∈ n.cfg.replicas)
    (ho : n.stepFunc = .leader → n.ReportsByVoters e) (h : n.stepEvent e = some (m, err))
    (hr : n.queue.committedIndex < m.queue.committedIndex) : m.Backed := by
  have hsame : m.queue.committedIndex = n.queue.committedIndex → m.Backed := fun hx => absurd hr hx.le.not_gt
  unfold stepEvent at h
  split at h
  case h_5 =>
    split at h
    · rename_i hl
      exact stepLeader_backed ht hm (ho hl) h hr
    · unfold stepFollower at h
      split at h
      case h_6 => exact hsame (storeResp_committed h)
      case h_1 | h_8 => cases h; exact hsame rfl
      all_goals
        rename_i hx
        rw [hx] at ht
        cases ht
    · unfold stepCandidate at h
      split at h
      case h_2 hx => rw [hx] at ht; cases ht
      all_goals
        cases h
        exact hsame rfl
    · unfold stepLearner at h
      split at h
      case h_6 => exact hsame (storeResp_committed h)
      case h_1 | h_8 => cases h; exact hsame rfl
      all_goals
        rename_i hx
        rw [hx] at ht
        cases ht
    · cases h
      exact hsame rfl
  all_goals
    rename_i hx
    rw [hx] at ht
    cases ht

private theorem Backed.publish (h : n.Backed) : n.publishReadState.Backed :=
  h.of_same rfl rfl rfl fun _ => rfl

private theorem replicate_spec (hm : n.opts.nodeId ∈ n.cfg.replicas) (ho : n.ReportsByVoters e) (h : n.replicate e = some m) :
    m.opts.nodeId ∈ m.cfg.replicas ∧ (n.queue.committedIndex < m.queue.committedIndex → m.Backed) := by
  unfold replicate at h
  split at h
  · rename_i ht
    obtain ⟨⟨k, err⟩, hk, rfl⟩ := map_eq_some_iff.mp h
    obtain ⟨-, rfl⟩ | ⟨-, j, hj, rfl⟩ := step_cases hk
    · rw [(n.notes_rejected e).quiet.core]
      exact ⟨hm, fun hx => absurd hx (lt_irrefl _)⟩
    obtain ⟨hopts, hreplicas, hqueue, -, hrole⟩ := n.enterTerm_frame e
    have hm' : (n.enterTerm e).opts.nodeId ∈ (n.enterTerm e).cfg.replicas := by
      rw [hopts, hreplicas]
      exact hm
    have hs := replication_steady ht hj
    refine ⟨?_, fun hr => ?_⟩
    · change j.opts.nodeId ∈ j.cfg.replicas
      rw [hs.opts, hs.cfg]
      exact hm'
    · rw [← hqueue] at hr
      refine (stepEvent_backed ht hm' (fun hl => ?_) hj hr).publish
      rcases hrole with hx | hx | he
      · cases hl.symm.trans hx
      · cases hl.symm.trans hx
      · rwa [he]
  · cases h

structure IsLeading (n : Node) : Prop where
  arises : Reach (fun n => ∃ start state opts, newNode start state opts = some n) act (fun _ _ => True) n
  role : n.cfg.role = .leader
  member : n.opts.nodeId ∈ n.cfg.replicas
  disjoint : ∀ r ∈ n.cfg.learners, r ∉ n.cfg.replicas

private theorem member_of_run (h : Reach IsLeading replicate ReportsByVoters n) : n.opts.nodeId ∈ n.cfg.replicas := by
  refine h.invariant (fun n => n.opts.nodeId ∈ n.cfg.replicas) (fun n hn => hn.member) ?_
  intro n e m hm ho hs
  exact (replicate_spec hm ho hs).1

/-- Whenever the committed index of a leader rises, a majority of the voters holds the log that
far, in every run in which only voters have reported beyond the committed index. -/
theorem only_voters_commit (h : Reach IsLeading replicate ReportsByVoters n) (ho : n.ReportsByVoters e)
    (hs : n.replicate e = some m) (hr : n.queue.committedIndex < m.queue.committedIndex) : m.Backed :=
  (replicate_spec (member_of_run h) ho hs).2 hr

private def electionOfOne : List Action :=
  [.step { type := .confChange, config := { replicas := [1, 2, 3], learners := [4], version := 1 } },
    .step { type := .campaign },
    .step { type := .voteResp, fromNode := 1, term := 3, reason := .ok },
    .step { type := .voteResp, fromNode := 2, term := 3, reason := .ok }]

private def reportOf (r storedIndex : Nat) : Event :=
  { type := .syncReq, fromNode := r, toNode := 1, term := 3, index := storedIndex, storedIndex := storedIndex }

private def leads (n : Node) : Bool :=
  n.cfg.role == .leader && decide (n.opts.nodeId ∈ n.cfg.replicas) && decide (∀ r ∈ n.cfg.learners, r ∉ n.cfg.replicas)

private theorem exists_leading (check : Node → Event → Bool) {ok : Node → Event → Prop}
    (hc : ∀ n e, check n e → ok n e) (es : List Event) (p : Node → Bool)
    (h : (newNode 1 ⟨10, 2, 0⟩ { nodeId := 1, replicas := [1, 2, 3] }).any fun n =>
      (exec act (fun _ _ => true) n electionOfOne).any fun n => n.leads && (exec replicate check n es).any p) :
    ∃ n, Reach IsLeading replicate ok n ∧ p n := by
  cases hn : newNode 1 ⟨10, 2, 0⟩ { nodeId := 1, replicas := [1, 2, 3] } with
  | none => simp [hn] at h
  | some n0 =>
    rw [hn] at h
    have h0 : Reach (fun n => ∃ start state opts, newNode start state opts = some n) act (fun _ _ => True) n0 :=
      .init ⟨_, _, _, hn⟩
    obtain ⟨n, hr, hp⟩ := h0.exists_of_exec (fun _ _ => true) (fun _ _ _ => trivial) electionOfOne _ h
    rw [Bool.and_eq_true] at hp
    obtain ⟨hl, hp⟩ := hp
    simp only [leads, Bool.and_eq_true, beq_iff_eq, decide_eq_true_eq] at hl
    have hi : IsLeading n := ⟨hr, hl.1.1, hl.1.2, hl.2⟩
    exact (Reach.init hi).exists_of_exec check hc es p hp

theorem only_voters_commit_ten : ∃ n m : Node, n.replicate (reportOf 2 11) = some m ∧
    n.queue.committedIndex < m.queue.committedIndex ∧ m.Backed := by
  obtain ⟨n, hn, hp⟩ := exists_leading (fun n e => decide (n.ReportsByVoters e)) (fun _ _ h => of_decide_eq_true h)
    [reportOf 4 1] (fun n => decide (n.ReportsByVoters (reportOf 2 11)) &&
      (n.replicate (reportOf 2 11)).any fun m => decide (n.queue.committedIndex < m.queue.committedIndex))
    (by decide +kernel)
  rw [Bool.and_eq_true, decide_eq_true_eq] at hp
  obtain ⟨ho, hm⟩ := hp
  cases hs : n.replicate (reportOf 2 11) with
  | none => simp [hs] at hm
  | some m =>
    rw [hs] at hm
    have hr : n.queue.committedIndex < m.queue.committedIndex := of_decide_eq_true hm
    exact ⟨n, m, hs, hr, only_voters_commit hn ho hs hr⟩

/-- A learner has stored all ten logs, another voter none: they are committed. -/
theorem only_voters_commit_fails :
    ¬∀ (n m : Node) (e : Event), Reach IsLeading replicate (fun _ _ => True) n →
      n.replicate e = some m → n.queue.committedIndex < m.queue.committedIndex → m.Backed := by
  intro hall
  obtain ⟨n, hn, hp⟩ := exists_leading (fun _ _ => true) (fun _ _ _ => trivial) [reportOf 4 11]
    (fun n => (n.replicate (reportOf 2 1)).any fun m : Node =>
      decide (n.queue.committedIndex < m.queue.committedIndex) && decide (2 ≤ m.cfg.replicas.length) &&
        decide (∀ r ∈ m.cfg.replicas, m.Holds r m.queue.committedIndex → r = 1))
    (by decide +kernel)
  cases hs : n.replicate (reportOf 2 1) with
  | none => simp [hs] at hp
  | some m =>
    simp only [hs, any_some, Bool.and_eq_true, decide_eq_true_eq] at hp
    obtain ⟨⟨hr, hlen⟩, hone⟩ := hp
    obtain ⟨q, hq, hh⟩ := hall n m _ hn hs hr
    have hsub : q ⊆ {1} := by
      intro r hm
      exact Finset.mem_singleton.mpr (hone r (hq.subset r hm) (hh r hm))
    have hcard := hq.card.trans (Finset.card_le_card hsub)
    rw [Finset.card_singleton] at hcard
    omega

end Node
end WuKongIM.Raft

import WuKongIM.Raft.Flags
import WuKongIM.Raft.LogSteps
import WuKongIM.Raft.Steady

/-! A node that names itself leader has a step function, so a proposal that reaches it is appended
or refused. -/
namespace WuKongIM.Raft
open Relation Option
namespace Node
variable {n m : Node} {e : Event} {err : Option RaftError}

/-- The published configuration is the current one, and without a role no node names itself
leader. -/
structure RoleSound (n : Node) : Prop where
  published : n.readState.cfg = n.cfg
  role : n.stepFunc = .unknown → n.cfg.leader = n.opts.nodeId → n.opts.nodeId = 0

private theorem leaderless_switchConfig {cfg : Config} (h : n.cfg.leader = n.opts.nodeId → n.opts.nodeId = 0)
    (hm : n.switchConfig cfg = m) (hr : m.stepFunc = .unknown) : m.cfg.leader = m.opts.nodeId → m.opts.nodeId = 0 := by
  unfold switchConfig at hm
  split at hm
  · subst hm
    exact h
  dsimp only at hm
  generalize n.completeConfig cfg = new at hm
  unfold roleChangeIfNeed at hm
  split at hm
  · split at hm
    · subst hm
      cases hr
    split at hm
    · subst hm
      cases hr
    rename_i hleader
    split at hm
    · subst hm
      cases hr
    split at hm
    · subst hm
      cases hr
    · subst hm
      intro hl
      by_contra h0
      exact hleader ⟨fun hx => h0 (hl.symm.trans hx), hl⟩
  split at hm
  · split at hm
    · subst hm
      cases hr
    rename_i hother
    split at hm
    case h_4 =>
      subst hm
      exact fun hl => absurd hl hother
    all_goals
      subst hm
      cases hr
  · rename_i hsame
    subst hm
    have hl : n.cfg.leader = new.leader := not_not.mp fun hx => hsame (.inr (.inl hx))
    exact fun hx => h (hl.trans hx)

private theorem campaign_stepFunc (h : n.campaign = some m) : m.stepFunc ≠ .unknown := by
  unfold campaign at h
  split at h
  · cases h
    exact nofun
  obtain ⟨k, hk, rfl⟩ := map_eq_some_iff.mp h
  have hcand : k.stepFunc ≠ .unknown := by
    unfold becomeCandidate at hk
    split at hk
    · cases hk
    · cases hk
      exact nofun
  refine (RoleMoves.change (T := True) (reflTransGen_foldl fun j _ r _ => ?_)).flagMove.role hcand
  split <;> exact j.role_sendVoteReq _

private theorem leaderless_stepEvent (hu : n.stepFunc = .unknown) (h : n.cfg.leader = n.opts.nodeId → n.opts.nodeId = 0)
    (hm : n.stepEvent e = some (m, err)) (hr : m.stepFunc = .unknown) : m.cfg.leader = m.opts.nodeId → m.opts.nodeId = 0 := by
  unfold stepEvent at hm
  split at hm
  · cases hm
    exact leaderless_switchConfig h rfl hr
  · obtain ⟨k, hk, hx⟩ := map_eq_some_iff.mp hm
    cases hx
    exact absurd hr (campaign_stepFunc hk)
  · cases hm
    unfold stepVoteReq at hr ⊢
    split
    · split <;> exact h
    · rename_i hx
      rw [if_neg hx] at hr
      cases hr
  · split at hm
    · cases hm
      exact h
    · cases hm
      exact h
  · rw [hu] at hm
    cases hm
    exact h

theorem RoleSound.step (h : n.RoleSound) (hm : n.step e = some (m, err)) : m.RoleSound := by
  obtain ⟨-, rfl⟩ | ⟨-, k, hk, rfl⟩ := step_cases hm
  · refine ⟨rfl, ?_⟩
    have hcore := (n.notes_rejectLowerTerm e).quiet.core
    intro hu hl
    change (n.rejectLowerTerm e).opts.nodeId = 0
    change (n.rejectLowerTerm e).stepFunc = .unknown at hu
    change (n.rejectLowerTerm e).cfg.leader = (n.rejectLowerTerm e).opts.nodeId at hl
    rw [hcore] at hu hl ⊢
    exact h.role hu hl
  · refine ⟨rfl, fun hu => ?_⟩
    have hsame : e.type = .applyResp → k.stepFunc = (n.enterTerm e).stepFunc := by
      intro ht
      rw [stepEvent, ht] at hk
      dsimp only at hk
      split at hk <;> cases hk <;> rfl
    have hn : (n.enterTerm e).stepFunc = .unknown := by
      by_contra hx
      by_cases ht : e.type = .applyResp
      · exact hx ((hsame ht).symm.trans hu)
      · exact (flagMove_stepEvent ht hk).role hx hu
    obtain ⟨-, -, -, -, hx | hx | he⟩ := n.enterTerm_frame e
    · cases hn.symm.trans hx
    · cases hn.symm.trans hx
    rw [he] at hn hk
    have hnew := leaderless_stepEvent hn (h.role hn) hk hu
    exact hnew

theorem RoleSound.tick (h : n.RoleSound) (hm : n.tick = some m) : m.RoleSound := by
  obtain ⟨k, ⟨j, hj, hk⟩, rfl⟩ := tick_cases hm
  refine ⟨rfl, fun hu => ?_⟩
  have hu : k.stepFunc = .unknown := hu
  -- an election gives a role
  obtain rfl := hk.resolve_right fun hx => campaign_stepFunc hx hu
  change k.cfg.leader = k.opts.nodeId → k.opts.nodeId = 0
  rw [hj.quiet.core] at hu ⊢
  exact h.role hu

theorem RoleSound.ready {events : List Event} (h : n.RoleSound) (hm : n.ready = some (m, events)) : m.RoleSound := by
  obtain ⟨k, hk, hx⟩ := map_eq_some_iff.mp hm
  cases hx
  have hs := (steady_readyStore hk).trans (steady_readyApply k)
  refine ⟨rfl, fun hu => ?_⟩
  have hu : k.readyApply.stepFunc = .unknown := hu
  change k.readyApply.cfg.leader = k.readyApply.opts.nodeId → k.readyApply.opts.nodeId = 0
  rw [hs.stepFunc] at hu
  rw [hs.cfg, hs.opts]
  exact h.role hu

end Node

theorem newNode_roleSound {start : Nat} {state : RaftState} {opts : Options} {n : Node}
    (h : newNode start state opts = some n) : n.RoleSound := by
  unfold newNode at h
  split at h
  · cases h
  generalize (if state.lastTerm = 0 then 1 else state.lastTerm) = T at h
  cases h
  refine ⟨rfl, ?_⟩
  split
  · exact nofun
  split
  · exact nofun
  · exact fun _ hl => hl.symm

end WuKongIM.Raft

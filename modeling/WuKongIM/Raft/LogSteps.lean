import WuKongIM.Raft.LogView

/-! What `Step`, `Tick` and `Ready` do to the log of a node, in one statement each. -/
namespace WuKongIM.Raft
open Option
namespace Node
variable {n m : Node} {e : Event} {err : Option RaftError}

theorem logView_enterTerm (n : Node) (e : Event) : (n.enterTerm e).logView = n.logView :=
  logView_role (T := True) (n.role_enterTerm e)

theorem stepEvent_logMove (h : n.stepEvent e = some (m, err)) : LogMove n e m.logView := by
  by_cases ha : e.type = .applyResp
  · unfold stepEvent at h
    rw [ha] at h
    dsimp only at h
    split at h
    · cases h
      rw [Queue.appliedTo_eq]
      exact logMove_of_type ha nofun nofun rfl
    · cases h
      exact logMove_of_type ha nofun nofun rfl
  obtain ⟨k, hop, hcalm⟩ | ⟨hr, hrole⟩ := stepEvent_cases (T := False) ha nofun h
  · exact logView_calms hcalm ▸ logMove_of_op hop
  · refine logMove_of_type rfl ?_ ?_ (logView_role hrole)
    all_goals
      intro hx
      rw [hx] at hr
      cases hr

theorem step_logMove (h : n.step e = some (m, err)) :
    e.term ≠ 0 ∧ m.logView = n.logView ∨ LogMove (n.enterTerm e) e m.logView := by
  obtain ⟨hlow, rfl⟩ | ⟨-, k, hk, rfl⟩ := step_cases h
  · exact .inl ⟨hlow.1, logView_notes (n.notes_rejected e)⟩
  · rw [k.quiet_publish.logView]
    exact .inr (stepEvent_logMove hk)

theorem step_logMove_of_zero (he : e.term = 0) (h : n.step e = some (m, err)) : LogMove n e m.logView := by
  obtain ⟨hx, -⟩ | hm := step_logMove h
  · exact absurd he hx
  · rwa [enterTerm, he] at hm

theorem lastTermStartIndex_step (h : n.step e = some (m, err)) : m.lastTermStartIndex = n.lastTermStartIndex := by
  obtain ⟨-, hv⟩ | hm := step_logMove h
  · exact congrArg LogView.lastTermStartIndex hv
  have hn : (n.enterTerm e).logView.lastTermStartIndex = n.lastTermStartIndex :=
    congrArg LogView.lastTermStartIndex (n.logView_enterTerm e)
  change m.logView.lastTermStartIndex = n.lastTermStartIndex
  generalize m.logView = v at hm
  cases hm <;> exact hn

theorem enterTerm_zero (n : Node) (he : e.term = 0) : n.enterTerm e = n := by
  rw [enterTerm, he, if_neg (Nat.not_lt_zero _)]

theorem step_propose {logs : List Log} (hr : n.stepFunc ≠ .unknown)
    (h : n.step { type := .propose, logs := logs } = some (m, err)) : err ≠ none ∧ m.logView = n.logView ∨
      n.stopPropose = false ∧ ∃ q, n.queue.append logs = some (q, err) ∧ m.logView = n.logView.withQueue q := by
  obtain ⟨⟨k, err'⟩, hk, hx⟩ := map_eq_some_iff.mp h
  cases hx
  rw [(quiet_publish _).logView]
  unfold stepEvent at hk
  dsimp only at hk
  split at hk
  · unfold stepLeader at hk
    dsimp only at hk
    split at hk
    · cases hk
      exact .inl ⟨by simp, rfl⟩
    rename_i hstop
    obtain ⟨⟨q, err'⟩, hq, hy⟩ := map_eq_some_iff.mp hk
    cases hy
    refine .inr ⟨Bool.not_eq_true _ ▸ hstop, q, hq, ?_⟩
    rw [logView]
    simp only [Queue.append_appending hq]
    rfl
  on_goal 4 => exact absurd ‹_› hr
  -- the other roles refuse a proposal
  all_goals
    cases hk
    exact .inl ⟨by simp, rfl⟩

theorem logView_tick (h : n.tick = some m) : m.logView = n.logView := logView_role (role_tick False.elim h)

theorem logView_readyApply (n : Node) : n.readyApply.logView = n.logView := by
  obtain h | ⟨-, h⟩ := n.readyApply_cases
  · rw [h]
  · rw [h]
    exact logView_emit _ _ rfl

theorem appending_of_due (h : n.queue.hasNextStoreLogs) : n.queue.appending = false := by
  unfold Queue.hasNextStoreLogs at h
  split at h
  · cases h
  · rename_i hx
    exact Bool.not_eq_true _ ▸ hx

theorem ready_logView {events : List Event} (h : n.ready = some (m, events)) :
    (n.queue.hasNextStoreLogs = false ∨ n.queue.logs = []) ∧ m.logView = { n.logView with orders := [] } ∧
        events.filter (fun e => isOrder e.type) = n.logView.orders ∨
      n.queue.hasNextStoreLogs ∧ n.queue.lastLogIndex - n.queue.storedIndex ≤ n.queue.logs.length ∧
        n.queue.logs.take (n.queue.lastLogIndex - n.queue.storedIndex) ≠ [] ∧
        m.logView = { n.logView with
          appending := true
          lastTermStartIndex := (n.termStartOf (n.queue.logs.take (n.queue.lastLogIndex - n.queue.storedIndex))).getD
            n.lastTermStartIndex
          orders := [] } ∧
        events.filter (fun e => isOrder e.type) = n.logView.orders ++
          [n.storeReqOf (n.queue.logs.take (n.queue.lastLogIndex - n.queue.storedIndex))] := by
  obtain ⟨k, hk, hx⟩ := map_eq_some_iff.mp h
  cases hx
  have happly := k.logView_readyApply
  have hout : k.readyApply.events.filter (fun e => isOrder e.type) = k.logView.orders := congrArg LogView.orders happly
  have hm : { k.readyApply with events := [] }.publishReadState.logView = { k.logView with orders := [] } := by
    rw [← happly]
    rfl
  rw [hm, hout]
  obtain ⟨hdue, rfl⟩ | ⟨batch, rfl, hne, hdue, hle, rfl⟩ := readyStore_cases hk
  · exact .inl ⟨hdue, rfl, rfl⟩
  · exact .inr ⟨hdue, hle, hne, rfl, orders_emit _ _ rfl⟩

end Node

variable {start : Nat} {state : RaftState} {opts : Options} {n : Node}

variable (h : newNode start state opts = some n)
include h

theorem newNode_eq_some : n.queue = newQueue state.appliedIndex state.lastLogIndex ∧ n.truncating = false ∧
      n.lastTermStartIndex = ⟨if state.lastTerm = 0 then 1 else state.lastTerm, start⟩ ∧
      n.events = [] ∧ n.replicaSync = ∅ ∧ 1 ≤ n.cfg.term := by
  unfold newNode at h
  split at h
  · cases h
  generalize hT : (if state.lastTerm = 0 then 1 else state.lastTerm) = T at h ⊢
  have hpos : 1 ≤ T := by
    rw [← hT]
    split <;> omega
  cases h
  split
  · exact ⟨rfl, rfl, rfl, rfl, rfl, hpos⟩
  split <;> exact ⟨rfl, rfl, rfl, rfl, rfl, hpos⟩

theorem newNode_logView : n.logView = ⟨[], state.lastLogIndex, state.lastLogIndex, false, false,
      ⟨if state.lastTerm = 0 then 1 else state.lastTerm, start⟩, []⟩ := by
  obtain ⟨hq, ht, hs, he, -⟩ := newNode_eq_some h
  rw [Node.logView, hq, ht, hs, he]
  rfl

end WuKongIM.Raft

import WuKongIM.Lib.Positions
import WuKongIM.Raft.Driver

/-! What one call of a task can do to the storage and to the task, and what one step of a
driven node can be. -/
namespace WuKongIM.Raft
open Option

inductive Driver.Call (d : Driver) (disk : LogStorage) (t : Task) (o : Outcome) : LogStorage → Progress → Prop
  | storeFails (ht : t.req.type = .storeReq) (ho : o ≠ .done) (r : Event)
      (hr : r.type = .storeResp ∧ r.term = 0 ∧ r.reason = .error) : Call d disk t o disk (.response r)
  | termStart (ht : t.req.type = .storeReq) (ho : o = .done) (hc : t.calls = 0) (info : TermStartIndexInfo)
      (hi : t.req.termStartIndexInfo = some info) :
      Call d disk t o (disk.setLeaderTermStartIndex info) (.more { t with calls := 1, logs := [] })
  | append (ht : t.req.type = .storeReq) (ho : o = .done) (hc : t.calls = 0 → t.req.termStartIndexInfo = none) :
      Call d disk t o (disk.appendLogs t.req.logs) (.response
        { type := .storeResp, index := lastIndexOf t.req.logs, logs := t.req.logs, reason := .ok })
  | cutFails (ht : t.req.type = .truncateReq) (ho : o ≠ .done ∨ t.req.index = 0 ∧ t.calls = 0) :
      Call d disk t o disk (.response { type := .truncateResp, reason := .error })
  | cut (ht : t.req.type = .truncateReq) (ho : o = .done) (hc : t.calls = 0) (disk' : LogStorage)
      (h : disk.truncateLogTo d.storage t.req.index = some disk') :
      Call d disk t o disk' (.more { t with calls := 1, logs := [] })
  | cutDone (ht : t.req.type = .truncateReq) (ho : o = .done) (hc : t.calls ≠ 0) :
      Call d disk t o (disk.deleteLeaderTermStartIndexGreaterThanTerm t.req.lastLogTerm) (.response
        { type := .truncateResp, index := t.req.index, reason := .ok })
  | fetching (ht : t.req.type = .getLogsReq) : Call d disk t o disk (t.called [])
  | fetched (ht : t.req.type = .getLogsReq) (r : Event) (hr : r.type = .getLogsResp ∧ r.term = 0)
      (hn : r.toNode = t.req.fromNode ∨ d.kind = .raftGroup ∧ o = .submitFails ∧ t.calls = 0) :
      Call d disk t o disk (.response r)
  | applying (ht : t.req.type = .applyReq) (hc : t.calls = 0) (logs : List Log)
      (hl : logs = disk.getLogs t.req.startIndex t.req.endIndex 0) : Call d disk t o disk (t.called logs)
  | applyFails (ht : t.req.type = .applyReq) (hf : o ≠ .done ∨ t.calls = 0) :
      Call d disk t o disk (.response { type := .applyResp, reason := .error })
  | applyUnneeded (ht : t.req.type = .applyReq) (hk : d.kind = .raftGroup ∧ d.notNeedApplied = true) :
      Call d disk t o disk (.response { type := .applyResp, reason := .ok, index := t.req.endIndex - 1 })
  | applied (ht : t.req.type = .applyReq) (ho : o = .done) (hc : t.calls ≠ 0) :
      Call d disk t o (disk.apply t.logs) (.response { type := .applyResp, reason := .ok, index := lastIndexOf t.logs })

def answerType : EventType → EventType
  | .storeReq => .storeResp
  | .truncateReq => .truncateResp
  | .getLogsReq => .getLogsResp
  | .applyReq => .applyResp
  | _ => .unknown

namespace Driver
variable {d : Driver} {disk disk' : LogStorage} {t : Task} {o : Outcome} {p : Progress} {last : Nat} {r : Event}

private theorem handleStoreReq_call (ht : t.req.type = .storeReq)
    (h : d.handleStoreReq disk t o = some (disk', p)) : d.Call disk t o disk' p := by
  unfold handleStoreReq at h
  split at h
  · split at h
    · cases h
      exact .storeFails ht (by decide) _ ⟨rfl, rfl, rfl⟩
    · cases h
  · split at h
    · cases h
      exact .storeFails ht (by decide) _ ⟨rfl, rfl, rfl⟩
    · cases h
  · split at h
    · rename_i hc hi
      cases h
      rw [Task.called, hc]
      exact .termStart ht rfl hc _ hi
    · rename_i hn
      cases h
      refine .append ht rfl fun hc => ?_
      cases hi : t.req.termStartIndexInfo with
      | none => rfl
      | some info => exact absurd hi (hn info hc)

private theorem handleTruncateReq_call (ht : t.req.type = .truncateReq)
    (h : d.handleTruncateReq disk t o = some (disk', p)) : d.Call disk t o disk' p := by
  unfold handleTruncateReq at h
  split at h
  · split at h
    · cases h
      exact .cutFails ht (.inl (by decide))
    · cases h
  · cases h
    exact .cutFails ht (.inl (by decide))
  · split at h
    · rename_i hc
      split at h
      · rename_i hn
        cases h
        refine .cutFails ht (.inr ⟨?_, hc⟩)
        unfold LogStorage.truncateLogTo at hn
        by_contra h0
        rw [if_neg h0] at hn
        split at hn
        · split at hn
          · cases hn
          · split at hn <;> cases hn
        · split at hn <;> cases hn
      · rename_i hs
        cases h
        rw [Task.called, hc]
        exact .cut ht rfl hc _ hs
    · rename_i hc
      cases h
      exact .cutDone ht rfl hc

private theorem handleGetLogsReq_call (ht : t.req.type = .getLogsReq)
    (h : d.handleGetLogsReq disk last t o = some (disk', p)) : d.Call disk t o disk' p := by
  unfold handleGetLogsReq at h
  split at h
  · split at h
    · rename_i hc
      split at h
      · cases h
        exact .fetched ht _ ⟨rfl, rfl⟩ (.inl rfl)
      · rename_i hk
        cases h
        exact .fetched ht _ ⟨rfl, rfl⟩ (.inr ⟨hk, rfl, hc⟩)
    · cases h
  · split at h
    · cases h
      exact .fetched ht _ ⟨rfl, rfl⟩ (.inl rfl)
    · cases h
      exact .fetched ht _ ⟨rfl, rfl⟩ (.inl rfl)
  · split at h
    · dsimp only at h
      split at h
      · cases h
        exact .fetched ht _ ⟨rfl, rfl⟩ (.inl rfl)
      split at h
      · cases h
        exact .fetched ht _ ⟨rfl, rfl⟩ (.inl rfl)
      · cases h
        exact .fetching ht
    · cases h
      exact .fetched ht _ ⟨rfl, rfl⟩ (.inl rfl)

private theorem handleApplyReq_call (ht : t.req.type = .applyReq)
    (h : d.handleApplyReq disk t o = some (disk', p)) : d.Call disk t o disk' p := by
  unfold handleApplyReq at h
  split at h
  · split at h
    · cases h
      exact .applyFails ht (.inl (by decide))
    · cases h
  · split at h
    · cases h
    · cases h
      exact .applyFails ht (.inl (by decide))
  · split at h
    · rename_i hc
      split at h
      · rename_i hk
        cases h
        exact .applyUnneeded ht hk
      dsimp only at h
      split at h
      · cases h
        exact .applyFails ht (.inr hc)
      · cases h
        exact .applying ht hc _ rfl
    · rename_i hc
      cases h
      exact .applied ht rfl hc

theorem handle_call (h : d.handle disk last t o = some (disk', p)) : d.Call disk t o disk' p := by
  unfold handle at h
  split at h
  case h_1 ht => exact handleStoreReq_call ht h
  case h_2 ht => exact handleTruncateReq_call ht h
  case h_3 ht => exact handleGetLogsReq_call ht h
  case h_4 ht => exact handleApplyReq_call ht h
  case h_5 => cases h

theorem Call.more_req {t' : Task} (h : d.Call disk t o disk' (.more t')) : t'.req = t.req := by
  generalize hp : Progress.more t' = p at h
  cases h <;> cases hp <;> rfl

theorem Call.response_type (h : d.Call disk t o disk' (.response r)) :
    r.type = answerType t.req.type ∧ isResponse r.type ∧ r.term = 0 := by
  generalize hp : Progress.response r = p at h
  cases h with
  | storeFails ht ho r' hr =>
    cases hp
    rw [ht, hr.1]
    exact ⟨rfl, rfl, hr.2.1⟩
  | fetched ht r' hr hn =>
    cases hp
    rw [ht, hr.1]
    exact ⟨rfl, rfl, hr.2⟩
  | append ht | cutFails ht | cutDone ht | applyFails ht | applyUnneeded ht | applied ht =>
    cases hp
    rw [ht]
    exact ⟨rfl, rfl, rfl⟩
  | _ => cases hp

theorem Call.stored (h : d.Call disk t o disk' (.response r)) (ht : t.req.type = .storeReq)
    (hr : r.reason = .ok) : r.logs = t.req.logs ∧ r.index = lastIndexOf t.req.logs := by
  generalize hp : Progress.response r = p at h
  cases h with
  | storeFails _ _ r' hr' =>
    cases hp
    rw [hr'.2.2] at hr
    cases hr
  | append =>
    cases hp
    exact ⟨rfl, rfl⟩
  | fetched ht' | cutFails ht' | cutDone ht' | applyFails ht' | applyUnneeded ht' | applied ht' =>
    rw [ht'] at ht
    cases ht
  | _ => cases hp

end Driver

namespace Driven

inductive Moved (d : Driver) (s : Driven) : Action → Driven → Prop
  | step (e : Event) (he : isResponse e.type = false) (m : Node) (err : Option RaftError)
      (h : s.node.step e = some (m, err)) : Moved d s (.step e) { s with node := m }
  | tick (m : Node) (h : s.node.tick = some m) : Moved d s .tick { s with node := m }
  | ready (lost : List Nat) (m : Node) (events : List Event) (h : s.node.ready = some (m, events)) :
      Moved d s (.ready lost) (s.takeOver m events lost)
  | run (k : Nat) (o : Outcome) (t : Task) (ht : s.pool[k]? = some t) (disk : LogStorage) (p : Progress)
      (h : d.handle s.disk s.node.readState.lastLogIndex t o = some (disk, p)) :
      Moved d s (.run k o) (s.progress k disk p)
  | deliver (k : Nat) (r : Event) (hr : s.inbox[k]? = some r) (m : Node) (err : Option RaftError)
      (h : s.node.step r = some (m, err)) :
      Moved d s (.deliver k) { s with node := m, inbox := s.inbox.eraseIdx k }

theorem moved_of_step {d : Driver} {s t : Driven} {a : Action} (h : s.step d a = some t) : Moved d s a t := by
  cases a with
    rw [step] at h
  | step e =>
    split at h
    · cases h
    rename_i he
    obtain ⟨⟨m, err⟩, hm, rfl⟩ := map_eq_some_iff.mp h
    exact .step e (Bool.not_eq_true _ ▸ he) m err hm
  | tick =>
    obtain ⟨m, hm, rfl⟩ := map_eq_some_iff.mp h
    exact .tick m hm
  | ready lost =>
    split at h
    · cases h
    rename_i m events hm
    split at h
    · cases h
      exact .ready lost m events hm
    · cases h
  | run k o =>
    split at h
    · cases h
    rename_i t ht
    obtain ⟨⟨disk, p⟩, hp, rfl⟩ := map_eq_some_iff.mp h
    exact .run k o t ht disk p hp
  | deliver k =>
    split at h
    · cases h
    rename_i r hr
    obtain ⟨⟨m, err⟩, hm, rfl⟩ := map_eq_some_iff.mp h
    exact .deliver k r hr m err hm

def taskOf (n : Node) (e : Event) : Task := { req := e, leaderLastLogTerm := n.lastTermStartIndex.term }

variable (events : List Event)

private theorem requests_zipIdx : events.filter (fun e => isRequest e.type) =
    (events.zipIdx.filter fun x => isRequest x.1.type).map Prod.fst := by
  have h := List.filter_map (f := Prod.fst) (p := fun e : Event => isRequest e.type) (l := events.zipIdx)
  rwa [List.zipIdx_map_fst] at h

theorem requestsOf_sublist (lost : List Nat) :
    (requestsOf events lost).Sublist (events.filter fun e => isRequest e.type) := by
  rw [requests_zipIdx]
  exact (List.monotone_filter_right _ fun x hx => (Bool.and_eq_true_iff.mp hx).1).map _

theorem requestsOf_nil : requestsOf events [] = events.filter fun e => isRequest e.type := by
  rw [requests_zipIdx, requestsOf]
  simp

@[simp] theorem takeOver_pool (s : Driven) (n : Node) (events : List Event) (lost : List Nat) :
    (s.takeOver n events lost).pool = s.pool ++ (requestsOf events lost).map (taskOf n) := rfl

end Driven
end WuKongIM.Raft

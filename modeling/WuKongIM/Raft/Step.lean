import WuKongIM.Raft.Become

/-! `Step`: what a node does with one event. `none` is a panic; otherwise the answer is the
changed node with the error that `Step` returns, if it returns one. -/
namespace WuKongIM.Raft

abbrev StepResult := Option (Node × Option RaftError)

namespace Node

variable (n : Node)

def done : StepResult := some (n, none)

variable (e : Event)

def canVote : Bool :=
  match e.logs with
  | [] => false
  | candidateLog :: _ =>
    if n.cfg.term > e.term then false
    else if n.voteFor ≠ noneId ∧ n.voteFor ≠ e.fromNode then false
    else if candidateLog.term < n.lastTermStartIndex.term ∨
        candidateLog.term = n.lastTermStartIndex.term ∧ candidateLog.index < n.queue.lastLogIndex then false
    else true

/-- Count a vote; the election is decided as soon as a quorum has answered. -/
def poll : Node :=
  let n := { n with votes := n.votes.insert e.fromNode (e.reason == .ok) }
  let granted := n.votes.entries.countP (·.2)
  if n.votes.entries.length < n.quorum then n
  else if granted ≥ n.quorum then (n.becomeLeader n.cfg.term).sendPing allId
  else n.becomeFollower n.cfg.term noneId

def updateSyncInfo : Node :=
  let info := (n.replicaSync.lookup e.fromNode).getD {}
  let info := { info with syncTick := 0, lastSyncIndex := e.index, storedIndex := e.storedIndex }
  { n with replicaSync := n.replicaSync.insert e.fromNode info }

/-- One below the largest reported index that is less than `maxIndex`; zero lifts the bound. -/
def getMaxLogIndexLessThanParam (maxIndex : Nat) : Nat :=
  let secondMaxIndex := n.replicaSync.entries.foldl (fun second s =>
    if s.2.storedIndex < maxIndex ∨ maxIndex = 0 then
      if second < s.2.storedIndex then s.2.storedIndex else second
    else second) 0
  if secondMaxIndex > 0 then secondMaxIndex - 1 else secondMaxIndex

/-- Do enough of the reports, together with the leader itself, reach `index`? -/
def reportsReach (quorum index : Nat) : List (Sigma fun _ : Nat => SyncInfo) → Nat → Bool
  | [], _ => false
  | s :: rest, count =>
    let count := if s.2.storedIndex ≥ index + 1 then count + 1 else count
    if count + 1 ≥ quorum then true else reportsReach quorum index rest count

/-- The loop over the reported indexes, from the largest down. Every round lowers the
index, so the reported indexes bound the number of rounds. -/
def commitLoop (n : Node) : Nat → Nat → Nat → Nat
  | 0, _, newCommitted => newCommitted
  | fuel + 1, maxLogIndex, newCommitted =>
    let maxLogIndex := n.getMaxLogIndexLessThanParam maxLogIndex
    if maxLogIndex = 0 then newCommitted
    else if maxLogIndex ≤ n.queue.committedIndex then newCommitted
    else if maxLogIndex > n.queue.storedIndex then commitLoop n fuel maxLogIndex newCommitted
    else commitLoop n fuel maxLogIndex
      (if reportsReach n.quorum maxLogIndex n.replicaSync.entries 0 then maxLogIndex else newCommitted)

def committedIndexForLeader : Nat :=
  if n.quorum ≤ 1 then n.queue.storedIndex
  else
    let newCommitted := n.commitLoop (n.getMaxLogIndexLessThanParam 0 + 1) 0 0
    if newCommitted > n.queue.committedIndex then min newCommitted n.queue.storedIndex
    else n.queue.committedIndex

def updateLeaderCommittedIndex : Node :=
  let newCommitted := n.committedIndexForLeader
  if newCommitted > n.queue.committedIndex then
    { n with queue := { n.queue with committedIndex := newCommitted } }
  else n

variable (leaderCommittedIndex : Nat)

def committedIndexForFollow : Nat :=
  if leaderCommittedIndex > n.queue.committedIndex then min leaderCommittedIndex n.queue.storedIndex
  else n.queue.committedIndex

def updateFollowCommittedIndex : Node :=
  if leaderCommittedIndex = 0 ∨ leaderCommittedIndex ≤ n.queue.committedIndex then n
  else
    let newCommittedIndex := n.committedIndexForFollow leaderCommittedIndex
    if newCommittedIndex > n.queue.committedIndex then
      { n with queue := { n.queue with committedIndex := newCommittedIndex } }
    else n

def setRoleSwitching (nodeId : Nat) (switching : Bool) : Node :=
  match n.replicaSync.lookup nodeId with
  | none => n
  | some info => { n with replicaSync := n.replicaSync.insert nodeId { info with roleSwitching := switching } }

/-- Move a migration forward once its target has caught up. -/
def roleSwitchIfNeed : Node :=
  if n.cfg.migrateTo = 0 ∨ n.cfg.migrateFrom = 0 then n
  else if n.cfg.migrateTo ≠ e.fromNode then n
  else if ((n.replicaSync.lookup e.fromNode).getD {}).roleSwitching then n
  else if n.isLearner e.fromNode then
    if n.cfg.migrateFrom = n.cfg.leader then
      if e.index ≥ add64 n.queue.lastLogIndex 1 then
        (n.setRoleSwitching e.fromNode true).sendLearnerToLeaderReq e.fromNode
      else if add64 e.index n.opts.learnerToLeaderMinLogGap > n.queue.lastLogIndex then
        { n with stopPropose := true }
      else n
    else if n.cfg.replicas.length = 1 ∧ e.index > n.queue.lastLogIndex then
      (n.setRoleSwitching e.fromNode true).sendLearnerToFollowerReq e.fromNode
    else if add64 e.index n.opts.learnerToFollowerMinLogGap > n.queue.lastLogIndex then
      (n.setRoleSwitching e.fromNode true).sendLearnerToFollowerReq e.fromNode
    else n
  else if n.cfg.migrateFrom = n.cfg.leader ∧ n.cfg.migrateTo = e.fromNode then
    if e.index ≥ add64 n.queue.lastLogIndex 1 then
      (n.setRoleSwitching e.fromNode true).sendFollowToLeaderReq e.fromNode
    else if add64 e.index n.opts.followerToLeaderMinLogGap > n.queue.lastLogIndex then
      { n with stopPropose := true }
    else n
  else n

def answerEmptySync : Node :=
  let info := (n.replicaSync.lookup e.fromNode).getD {}
  if n.opts.autoSuspend then
    let info := { info with emptySyncTick := info.emptySyncTick + 1 }
    let speed := if info.emptySyncTick > n.opts.suspendAfterEmptySyncTick then Speed.suspend else .fast
    { n with replicaSync := n.replicaSync.insert e.fromNode info }.sendSyncResp e.fromNode e.index [] .ok speed
  else n.sendSyncResp e.fromNode e.index [] .ok .fast

def fetchForReplica : Node :=
  let info := { (n.replicaSync.lookup e.fromNode).getD {} with emptySyncTick := 0 }
  if info.getingLogs then { n with replicaSync := n.replicaSync.insert e.fromNode info }
  else
    { n with replicaSync := n.replicaSync.insert e.fromNode { info with getingLogs := true } }.sendGetLogsReq e

/-- What a synchronisation request changes before it is answered: the report, the committed
index unless a learner asks, and a migration. -/
def recordSyncReq : Node :=
  let isLearner := n.isLearner e.fromNode
  let n := { n with idleTick := 0 }.updateSyncInfo e
  let n := if isLearner then n else n.updateLeaderCommittedIndex
  n.roleSwitchIfNeed e

def stepSyncReq : Node :=
  let n := n.recordSyncReq e
  if (e.reason = .onlySync ∧ e.index > n.queue.storedIndex) ∨ n.queue.storedIndex = 0 then n.answerEmptySync e
  else n.fetchForReplica e

/-- The part of a store response that leader, follower and learner share: the answer clears
the flag, and a success for logs that the queue does not hold panics. -/
def stored : Option Node :=
  let n := { n with queue := { n.queue with appending := false } }
  if e.reason ≠ .ok then some n
  else if e.index > n.queue.lastLogIndex then none
  else (n.queue.storeTo e.index).map fun q => { n with queue := q }

def stepLeader : StepResult :=
  match e.type with
  | .propose =>
    if n.stopPropose then some (n, some .proposalDropped)
    else (n.queue.append e.logs).map fun r => ({ n with idleTick := 0, queue := r.1 }, r.2)
  | .syncReq => (n.stepSyncReq e).done
  | .storeResp =>
    (n.stored e).map fun n =>
      if e.reason = .ok then
        ((if n.quorum ≤ 1 then n.updateLeaderCommittedIndex else n).sendNotifySync allId, none)
      else (n, none)
  | .getLogsResp =>
    let n :=
      match n.replicaSync.lookup e.toNode with
      | none => n
      | some info => { n with replicaSync := n.replicaSync.insert e.toNode { info with getingLogs := false } }
    (n.sendSyncResp e.toNode e.index e.logs e.reason .fast).done
  | .learnerToFollowerResp | .learnerToLeaderResp | .followerToLeaderResp =>
    ({ n with stopPropose := false }.setRoleSwitching e.fromNode false).done
  | .configReq => (n.sendConfigResp e.fromNode n.cfg).done
  | _ => n.done

def hearPing : Node :=
  let n := { n.updateFollowCommittedIndex e.committedIndex with idleTick := 0 }
  if e.configVersion > n.cfg.version then n.sendConfigReq else n

/-- A heartbeat, which is the same for followers and learners up to the role they keep. -/
def stepPing (become : Node → Nat → Nat → Node) : Node :=
  let n := { n with electionElapsed := 0 }
  (if n.cfg.leader = noneId then become n e.term e.fromNode else n).hearPing e

/-- A synchronisation response, which followers and learners treat alike. -/
def stepSyncResp : StepResult :=
  let n := { n with electionElapsed := 0, idleTick := 0, syncRespTimeoutTick := 0, syncing := false, onlySync := true }
  match e.reason with
  | .ok =>
    if e.logs.length > 0 then
      (n.queue.append e.logs).map fun r =>
        match r.2 with
        | some err => ({ n with queue := r.1 }, some err)
        | none => ({ n with queue := r.1 }.updateFollowCommittedIndex e.committedIndex, none)
    else
      ({ n with suspend := if e.speed = Speed.suspend then true else n.suspend }.updateFollowCommittedIndex
        e.committedIndex).done
  | .truncate =>
    if n.truncating then n.done else ({ n with truncating := true }.sendTruncateReq e.index).done
  | _ => n.done

def stepTruncateResp : StepResult :=
  let n := { n with truncating := false }
  if e.reason = .ok then
    if e.index < n.queue.lastLogIndex then
      (n.queue.truncateLogTo e.index).map fun q => ({ n with queue := q }.sendSyncReq, none)
    else n.sendSyncReq.done
  else n.done

def stepStoreRespFollow : StepResult :=
  (n.stored e).map fun n => (if e.reason = .ok then n.sendSyncReq else n, none)

/-- The configuration of the leader, with the local term and with the role left open. -/
def stepConfigResp : Node :=
  n.switchConfig { e.config with term := n.cfg.term, role := .unknown }

def stepFollower : StepResult :=
  match e.type with
  | .propose => some (n, some .notLeader)
  | .ping => (n.stepPing e becomeFollower).done
  | .notifySync => ({ n with idleTick := 0, suspend := false }.sendSyncReq).done
  | .syncResp => n.stepSyncResp e
  | .truncateResp => n.stepTruncateResp e
  | .storeResp => n.stepStoreRespFollow e
  | .configResp => (n.stepConfigResp e).done
  | _ => n.done

/-- A candidate looks at votes only: it ignores every storage response. -/
def stepCandidate : StepResult :=
  match e.type with
  | .propose => some (n, some .notLeader)
  | .voteResp => (n.poll e).done
  | _ => n.done

/-- A learner differs from a follower in the heartbeat's role and in keeping a suspension
when it is told to synchronise. -/
def stepLearner : StepResult :=
  match e.type with
  | .propose => some (n, some .notLeader)
  | .ping => (n.stepPing e becomeLearner).done
  | .notifySync => ({ n with idleTick := 0 }.sendSyncReq).done
  | .syncResp => n.stepSyncResp e
  | .truncateResp => n.stepTruncateResp e
  | .storeResp => n.stepStoreRespFollow e
  | .configResp => (n.stepConfigResp e).done
  | _ => n.done

def stepVoteReq : Node :=
  if n.cfg.role ≠ .learner then
    if n.canVote e then
      { n.sendVoteResp (if e.fromNode = n.opts.nodeId then localNode else e.fromNode) .ok with
        voteFor := e.fromNode
        electionElapsed := 0 }
    else n.sendVoteResp e.fromNode .error
  else n.becomeFollower e.term e.fromNode

def stepEvent : StepResult :=
  match e.type with
  | .confChange => (n.switchConfig e.config).done
  | .campaign => n.campaign.map fun n => (n, none)
  | .voteReq => (n.stepVoteReq e).done
  | .applyResp =>
    if e.reason = .ok then ({ n with queue := n.queue.appliedTo e.index }).done
    else ({ n with queue := { n.queue with applying := false } }).done
  | _ =>
    match n.stepFunc with
    | .leader => n.stepLeader e
    | .follower => n.stepFollower e
    | .candidate => n.stepCandidate e
    | .learner => n.stepLearner e
    | .unknown => n.done

/-- A stale replication event is answered with the current term. -/
def rejectLowerTerm : Node :=
  if e.fromNode ≠ noneId ∧ e.fromNode ≠ localNode ∧ e.fromNode ≠ n.opts.nodeId then
    match e.type with
    | .ping | .notifySync | .syncReq => n.sendTermResp e.fromNode
    | _ => n
  else n

/-- Adopt a higher term; only an event that a leader sends names the leader. -/
def adoptHigherTerm : Node :=
  let leaderId := if e.type = .ping ∨ e.type = .syncResp ∨ e.type = .notifySync then e.fromNode else noneId
  if n.cfg.role = .learner then n.becomeLearner e.term leaderId else n.becomeFollower e.term leaderId

def enterTerm : Node := if e.term > n.cfg.term then n.adoptHigherTerm e else n

def step : StepResult :=
  if e.term ≠ 0 ∧ e.term < n.cfg.term then (n.rejectLowerTerm e).publishReadState.done
  else ((n.enterTerm e).stepEvent e).map fun r => (r.1.publishReadState, r.2)

end Node
end WuKongIM.Raft

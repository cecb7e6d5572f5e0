import WuKongIM.Raft.Step

/-! The clock of a node, and `Ready`, which hands the pending events to the driver. -/
namespace WuKongIM.Raft
namespace Node

variable (n : Node)

def hasSyncReq : Bool := n.events.any (·.type == .syncReq)

def tickSync : Node :=
  if n.syncing then
    let n := { n with syncRespTimeoutTick := n.syncRespTimeoutTick + 1 }
    if n.syncRespTimeoutTick ≥ n.opts.syncRespTimeoutTick then
      { n with syncing := false, syncRespTimeoutTick := 0 }
    else n
  else
    let n := { n with syncElapsed := n.syncElapsed + 1 }
    if n.syncElapsed ≥ n.opts.syncIntervalTick ∧ n.cfg.leader ≠ 0 then
      { (if n.hasSyncReq then n else n.sendSyncReq) with syncElapsed := 0 }
    else n

def tickElection : Option Node :=
  let n := { n with electionElapsed := n.electionElapsed + 1 }
  if n.electionElapsed ≥ n.randomizedElectionTimeout then { n with electionElapsed := 0 }.campaign
  else some n

def sendPingIfNeed (replicaId : Nat) : Node :=
  let info := (n.replicaSync.lookup replicaId).getD {}
  let info := { info with syncTick := info.syncTick + 1 }
  let n := { n with replicaSync := n.replicaSync.insert replicaId info }
  if info.syncTick > n.opts.syncIntervalTick ∧ info.suspend = false then n.sendPing replicaId else n

def tickHeartbeat : Node :=
  if n.opts.electionOn then
    let n := { n with heartbeatElapsed := n.heartbeatElapsed + 1 }
    if n.heartbeatElapsed ≥ n.opts.heartbeatInterval then { n with heartbeatElapsed := 0 }.sendPing allId
    else n
  else
    (n.cfg.replicas ++ n.cfg.learners).foldl (fun m replicaId =>
      if replicaId = m.opts.nodeId then m else m.sendPingIfNeed replicaId) n

def tickFollower : Option Node :=
  let n := if n.suspend then n else n.tickSync
  if n.opts.electionOn then n.tickElection else some n

def tickLearner : Node := if n.suspend then n else n.tickSync

def tickCandidate : Option Node := if n.opts.electionOn then n.tickElection else some n

def tickIdle : Node :=
  let n := { n with idleTick := n.idleTick + 1 }
  if n.opts.autoDestory ∧ n.idleTick > n.opts.destoryAfterIdleTick then { n with idleTick := 0 }.sendDestory
  else n

def tick : Option Node :=
  let n := n.tickIdle
  (match n.tickFnc with
    | .leader => some n.tickHeartbeat
    | .follower => n.tickFollower
    | .candidate => n.tickCandidate
    | .learner => some n.tickLearner
    | .unknown => some n).map publishReadState

def termStartOf (logs : List Log) : Option TermStartIndexInfo :=
  (logs.find? fun log => n.lastTermStartIndex.term ≠ log.term ∨ log.index = 1).map fun log => ⟨log.term, log.index⟩

/-- Take the logs that are due for storing. Only the first start of a term is recorded. -/
def readyStore : Option Node :=
  if n.queue.hasNextStoreLogs then
    n.queue.nextStoreLogs.map fun r =>
      let n := { n with queue := r.1 }
      if r.2.length > 0 then
        match n.termStartOf r.2 with
        | none => n.sendStoreReq r.2 none
        | some info => (n.updateLastTermStartIndex info.term info.index).sendStoreReq r.2 (some info)
      else n
  else some n

def readyApply : Node :=
  if n.queue.hasNextApplyLogs then
    let r := n.queue.nextApplyLogs
    let n := { n with queue := r.1 }
    if r.2.1 > 0 then n.sendApplyReq r.2.1 r.2.2 else n
  else n

def ready : Option (Node × List Event) :=
  n.readyStore.map fun n =>
    let n := n.readyApply
    ({ n with events := [] }.publishReadState, n.events)

inductive Action where
  | step (e : Event)
  | tick
  | ready

def act : Action → Option Node
  | .step e => (n.step e).map (·.1)
  | .tick => n.tick
  | .ready => n.ready.map (·.1)

end Node
end WuKongIM.Raft

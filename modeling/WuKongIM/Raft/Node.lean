import WuKongIM.Raft.Queue

/-! The state of a raft node and the events it sends. Waking the driver has no effect on the
node. -/
namespace WuKongIM.Raft

/-- The options that decide what a node does. The random numbers that the source draws are
read from the sequence `rand`. -/
structure Options where
  nodeId : Nat
  replicas : List Nat := []
  syncIntervalTick : Nat := 2
  syncRespTimeoutTick : Nat := 10
  electionOn : Bool := false
  heartbeatInterval : Nat := 1
  electionInterval : Nat := 10
  learnerToLeaderMinLogGap : Nat := 100
  learnerToFollowerMinLogGap : Nat := 100
  followerToLeaderMinLogGap : Nat := 100
  autoSuspend : Bool := false
  autoDestory : Bool := false
  suspendAfterEmptySyncTick : Nat := 10
  destoryAfterIdleTick : Nat := 18000
  rand : Nat → Nat := fun _ => 0

structure SyncInfo where
  lastSyncIndex : Nat := 0
  storedIndex : Nat := 0
  syncTick : Nat := 0
  getingLogs : Bool := false
  roleSwitching : Bool := false
  emptySyncTick : Nat := 0
  suspend : Bool := false
  deriving DecidableEq, Repr

structure NodeReadState where
  cfg : Config := {}
  lastLogIndex : Nat := 0
  lastLogTerm : Nat := 0
  committedIndex : Nat := 0
  appliedIndex : Nat := 0
  replicaLogIndex : List (Nat × Nat) := []
  deriving DecidableEq, Repr

/-- The part of a node that sending, synchronising and waiting leave alone. -/
structure NodeCore where
  opts : Options
  cfg : Config := {}
  /-- Whose step function is installed; `unknown` is the nil function. -/
  stepFunc : Role := .unknown
  /-- Whose tick function is installed; `unknown` is the nil function. -/
  tickFnc : Role := .unknown
  voteFor : Nat := 0
  votes : AList (fun _ : Nat => Bool) := ∅
  queue : Queue
  lastTermStartIndex : TermStartIndexInfo := {}
  truncating : Bool := false

structure Node extends NodeCore where
  readState : NodeReadState := {}
  events : List Event := []
  syncElapsed : Nat := 0
  heartbeatElapsed : Nat := 0
  electionElapsed : Nat := 0
  randomizedElectionTimeout : Nat := 0
  replicaSync : AList (fun _ : Nat => SyncInfo) := ∅
  onlySync : Bool := false
  stopPropose : Bool := false
  suspend : Bool := false
  idleTick : Nat := 0
  syncing : Bool := false
  syncRespTimeoutTick : Nat := 0
  /-- How many random numbers have been drawn. -/
  draws : Nat := 0

namespace Node

def replicaLogIndex (info : SyncInfo) : Nat :=
  if info.lastSyncIndex > 0 then info.lastSyncIndex - 1 else 0

variable (n : Node)

/-- Publish the snapshot. The source skips the store when the published snapshot already has
these values, so the result is the same. -/
def publishReadState : Node :=
  { n with readState :=
      { cfg := n.cfg
        lastLogIndex := n.queue.lastLogIndex
        lastLogTerm := n.lastTermStartIndex.term
        committedIndex := n.queue.committedIndex
        appliedIndex := n.queue.appliedIndex
        replicaLogIndex := n.replicaSync.entries.map fun s => (s.1, replicaLogIndex s.2) } }

def isLearner (nodeId : Nat) : Bool := n.cfg.learners.contains nodeId

/-- The number of votes, or of stored copies, that decides. -/
def quorum : Nat := n.cfg.replicas.length / 2 + 1

def updateLastTermStartIndex (term index : Nat) : Node :=
  { n with lastTermStartIndex := ⟨term, index⟩ }

def resetRandomizedElectionTimeout : Node :=
  { n with
    randomizedElectionTimeout :=
      n.opts.electionInterval + n.opts.rand n.draws % n.opts.electionInterval
    draws := n.draws + 1 }

def emit (e : Event) : Node := { n with events := n.events ++ [e] }

/-- Lift the suspension of a replica that is told to synchronise. -/
def unsuspend (replicaId : Nat) : Node :=
  match n.replicaSync.lookup replicaId with
  | none => n
  | some info =>
    { n with replicaSync := n.replicaSync.insert replicaId { info with emptySyncTick := 0, suspend := false } }

variable (target : Nat)

def notifySyncEvent : Event :=
  { type := .notifySync, fromNode := n.opts.nodeId, toNode := target, term := n.cfg.term }

def sendNotifySync : Node :=
  if target = allId then
    n.cfg.replicas.foldl (fun m replicaId =>
      if replicaId = m.opts.nodeId then m
      else (m.unsuspend replicaId).emit (m.notifySyncEvent replicaId)) n
  else (n.unsuspend target).emit (n.notifySyncEvent target)

def sendSyncReq : Node :=
  if n.truncating || n.syncing then n
  else
    { n with syncing := true, syncElapsed := 0, idleTick := 0 }.emit
      { type := .syncReq
        fromNode := n.opts.nodeId
        toNode := n.cfg.leader
        term := n.cfg.term
        storedIndex := n.queue.storedIndex + 1
        index := n.queue.lastLogIndex + 1
        lastLogTerm := n.lastTermStartIndex.term
        reason := if n.onlySync then .onlySync else .unknown }

def sendVoteReq : Node :=
  n.emit
    { type := .voteReq
      fromNode := n.opts.nodeId
      toNode := target
      term := n.cfg.term
      logs := [{ id := 0, index := n.queue.lastLogIndex, term := n.lastTermStartIndex.term, data := [] }] }

def sendVoteResp (reason : Reason) : Node :=
  n.emit
    { type := .voteResp
      fromNode := n.opts.nodeId
      toNode := target
      term := n.cfg.term
      reason := reason
      index := n.queue.storedIndex }

def sendTermResp : Node :=
  n.emit { type := .termResp, fromNode := n.opts.nodeId, toNode := target, term := n.cfg.term }

def broadcastPing : Event :=
  { type := .ping
    fromNode := n.opts.nodeId
    toNode := target
    term := n.cfg.term
    index := n.queue.lastLogIndex }

def sendPing : Node :=
  if n.cfg.leader ≠ n.opts.nodeId then n
  else if target ≠ allId then
    n.emit
      { type := .ping
        fromNode := n.opts.nodeId
        toNode := target
        term := n.cfg.term
        index := n.queue.lastLogIndex
        committedIndex := n.queue.committedIndex
        configVersion := n.cfg.version }
  else
    { n with events := n.events ++
        ((n.cfg.replicas ++ n.cfg.learners).filter (· ≠ n.opts.nodeId)).map n.broadcastPing }

def sendStoreReq (logs : List Log) (info : Option TermStartIndexInfo) : Node :=
  n.emit
    { type := .storeReq
      term := n.cfg.term
      toNode := localNode
      logs := logs
      termStartIndexInfo := info }

def sendApplyReq (start stop : Nat) : Node :=
  n.emit
    { type := .applyReq
      fromNode := n.opts.nodeId
      toNode := localNode
      startIndex := start
      endIndex := stop }

def sendGetLogsReq (syncEvent : Event) : Node :=
  n.emit
    { type := .getLogsReq
      fromNode := syncEvent.fromNode
      toNode := localNode
      term := syncEvent.term
      index := syncEvent.index
      storedIndex := n.queue.storedIndex
      lastLogTerm := syncEvent.lastLogTerm
      reason := syncEvent.reason }

def sendSyncResp (target syncIndex : Nat) (logs : List Log) (reason : Reason) (speed : Speed) : Node :=
  n.emit
    { type := .syncResp
      fromNode := n.opts.nodeId
      toNode := target
      term := n.cfg.term
      index := syncIndex
      logs := logs
      committedIndex := n.queue.committedIndex
      reason := reason
      speed := speed }

def sendTruncateReq (index : Nat) : Node :=
  n.emit
    { type := .truncateReq
      toNode := localNode
      lastLogTerm := n.lastTermStartIndex.term
      index := index }

def sendLearnerToLeaderReq (learner : Nat) : Node :=
  n.emit { type := .learnerToLeaderReq, fromNode := learner }

def sendLearnerToFollowerReq (learner : Nat) : Node :=
  n.emit { type := .learnerToFollowerReq, fromNode := learner }

def sendFollowToLeaderReq (follower : Nat) : Node :=
  n.emit { type := .followerToLeaderReq, fromNode := follower }

def sendConfigReq : Node :=
  n.emit { type := .configReq, term := n.cfg.term, fromNode := n.opts.nodeId, toNode := n.cfg.leader }

def sendConfigResp (cfg : Config) : Node :=
  n.emit { type := .configResp, fromNode := n.opts.nodeId, toNode := target, term := n.cfg.term, config := cfg }

def sendDestory : Node := n.emit { type := .destory, toNode := localNode }

end Node
end WuKongIM.Raft

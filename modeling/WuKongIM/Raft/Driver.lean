import WuKongIM.Lib.Run
import WuKongIM.Raft.Storage
import WuKongIM.Raft.Tick

/-! The two drivers of a node, `Raft` and `RaftGroup`. `Ready` hands requests to a pool; the
pool runs them on the storage in any order, one storage call at a time, and the responses
come back in any order.
`none` is a panic. -/
namespace WuKongIM.Raft

inductive DriverKind where
  | raft | raftGroup
  deriving DecidableEq

structure Driver where
  kind : DriverKind
  storage : StorageKind
  maxPerBatch : Nat := 0
  notNeedApplied : Bool := false

/-- How the next call of a task fares: the pool refuses the task, the storage fails, or all is
well. -/
inductive Outcome where
  | submitFails
  | fails
  | done
  deriving DecidableEq

/-- A request with the last log term of the node when the request was taken over, the
number of storage calls made, and the logs that they have read. -/
structure Task where
  req : Event
  leaderLastLogTerm : Nat
  calls : Nat := 0
  logs : List Log := []
  deriving DecidableEq

/-- What a call leaves behind: more calls to make, or the response. -/
inductive Progress where
  | more (t : Task)
  | response (e : Event)

def lastIndexOf (logs : List Log) : Nat := (logs.getLast?.map Log.index).getD 0

def Task.called (t : Task) (logs : List Log) : Progress := .more { t with calls := t.calls + 1, logs := logs }

namespace Driver

variable (d : Driver) (disk : LogStorage)

/-- The start of a term is written before the logs. `RaftGroup` panics when the storage
fails, `Raft` reports the error. -/
def handleStoreReq (t : Task) : Outcome → Option (LogStorage × Progress)
  | .submitFails =>
    if t.calls = 0 then some (disk, .response { type := .storeResp, reason := .error }) else none
  | .fails =>
    match d.kind with
    | .raft =>
      some (disk, .response
        { type := .storeResp, index := lastIndexOf t.req.logs, logs := t.req.logs, reason := .error })
    | .raftGroup => none
  | .done =>
    match t.calls, t.req.termStartIndexInfo with
    | 0, some info => some (disk.setLeaderTermStartIndex info, t.called [])
    | _, _ =>
      some (disk.appendLogs t.req.logs, .response
        { type := .storeResp, index := lastIndexOf t.req.logs, logs := t.req.logs, reason := .ok })

def handleTruncateReq (t : Task) : Outcome → Option (LogStorage × Progress)
  | .submitFails =>
    if t.calls = 0 then some (disk, .response { type := .truncateResp, reason := .error }) else none
  | .fails => some (disk, .response { type := .truncateResp, reason := .error })
  | .done =>
    if t.calls = 0 then
      match disk.truncateLogTo d.storage t.req.index with
      | none => some (disk, .response { type := .truncateResp, reason := .error })
      | some disk => some (disk, t.called [])
    else
      some (disk.deleteLeaderTermStartIndexGreaterThanTerm t.req.lastLogTerm, .response
        { type := .truncateResp, index := t.req.index, reason := .ok })

/-- Where a replica that is behind or ahead has to cut its log; zero stands for nowhere.
`lastLogIndex` is what the leader has published. -/
def getTrunctLogIndex (lastLogIndex leaderLastLogTerm : Nat) (e : Event) : Nat :=
  let leaderLastLogTerm :=
    match d.kind with
    | .raft => leaderLastLogTerm
    | .raftGroup => disk.leaderLastTerm
  if e.lastLogTerm = 0 then 0
  else if e.lastLogTerm = leaderLastLogTerm then
    if e.index > 0 ∧ e.index - 1 > lastLogIndex then lastLogIndex else 0
  else if e.lastLogTerm < leaderLastLogTerm then
    let termStartIndex := disk.getTermStartIndex (disk.leaderTermGreaterEqThan (succ32 e.lastLogTerm))
    if termStartIndex > 0 then termStartIndex - 1 else termStartIndex
  else if d.kind = .raft ∧ e.lastLogTerm ≤ 1 then 0
  else
    let termStartIndex := disk.getTermStartIndex disk.leaderLastTerm
    if termStartIndex > 0 then termStartIndex - 1 else termStartIndex

/-- `RaftGroup` forgets the addressee when the pool refuses the request. -/
def handleGetLogsReq (lastLogIndex : Nat) (t : Task) : Outcome → Option (LogStorage × Progress)
  | .submitFails =>
    if t.calls = 0 then
      match d.kind with
      | .raft =>
        some (disk, .response
          { type := .getLogsResp, toNode := t.req.fromNode, index := t.req.index, reason := .error })
      | .raftGroup => some (disk, .response { type := .getLogsResp, reason := .error })
    else none
  | .fails =>
    if d.kind = .raftGroup ∧ t.calls = 0 ∧ t.req.reason ≠ .onlySync then
      some (disk, .response { type := .getLogsResp, toNode := t.req.fromNode, reason := .error })
    else
      some (disk, .response
        { type := .getLogsResp, toNode := t.req.fromNode, index := t.req.index, reason := .error })
  | .done =>
    if t.calls = 0 ∧ t.req.reason ≠ .onlySync then
      let trunctIndex := d.getTrunctLogIndex disk lastLogIndex t.leaderLastLogTerm t.req
      if trunctIndex > 0 then
        some (disk, .response
          { type := .getLogsResp, toNode := t.req.fromNode, index := trunctIndex, reason := .truncate })
      else if d.kind = .raftGroup ∧ t.req.index > t.req.storedIndex then
        some (disk, .response
          { type := .getLogsResp, toNode := t.req.fromNode, index := t.req.index, reason := .ok })
      else some (disk, t.called [])
    else
      some (disk, .response
        { type := .getLogsResp
          toNode := t.req.fromNode
          index := t.req.index
          logs := disk.getLogs t.req.index (add64 t.req.storedIndex 1) d.maxPerBatch
          reason := .ok })

/-- The logs are read first and handed to the state machine later. `Raft` panics when the
state machine fails. -/
def handleApplyReq (t : Task) : Outcome → Option (LogStorage × Progress)
  | .submitFails =>
    if t.calls = 0 then some (disk, .response { type := .applyResp, reason := .error }) else none
  | .fails =>
    if d.kind = .raft ∧ t.calls > 0 then none
    else some (disk, .response { type := .applyResp, reason := .error })
  | .done =>
    if t.calls = 0 then
      if d.kind = .raftGroup ∧ d.notNeedApplied then
        some (disk, .response { type := .applyResp, reason := .ok, index := t.req.endIndex - 1 })
      else
        let logs := disk.getLogs t.req.startIndex t.req.endIndex 0
        if logs.length = 0 then some (disk, .response { type := .applyResp, reason := .error })
        else some (disk, t.called logs)
    else
      some (disk.apply t.logs, .response { type := .applyResp, reason := .ok, index := lastIndexOf t.logs })

def handle (lastLogIndex : Nat) (t : Task) (o : Outcome) : Option (LogStorage × Progress) :=
  match t.req.type with
  | .storeReq => d.handleStoreReq disk t o
  | .truncateReq => d.handleTruncateReq disk t o
  | .getLogsReq => d.handleGetLogsReq disk lastLogIndex t o
  | .applyReq => d.handleApplyReq disk t o
  | _ => none

end Driver

def isRequest : EventType → Bool
  | .storeReq | .truncateReq | .getLogsReq | .applyReq => true
  | _ => false

def isResponse : EventType → Bool
  | .storeResp | .truncateResp | .getLogsResp | .applyResp => true
  | _ => false

/-- A node with its driver: tasks in the pool, responses on their way back, and the storage. -/
structure Driven where
  node : Node
  pool : List Task := []
  inbox : List Event := []
  disk : LogStorage

namespace Driven

/-- What can happen. `lost` are the places of the events of `Ready` that are overwritten. -/
inductive Action where
  | step (e : Event)
  | tick
  | ready (lost : List Nat)
  | run (k : Nat) (o : Outcome)
  | deliver (k : Nat)

/-- `Ready` returns a part of the node's own buffer. What the node sends while the driver steps an
event for the node itself is written from the start of that buffer, so events behind it can be
lost. -/
def canLose (d : Driver) (n : Node) (events : List Event) (i : Nat) : Bool :=
  (events.take i).any fun e =>
    !isRequest e.type && (e.toNode == localNode || d.kind == .raft && e.toNode == n.opts.nodeId)

def requestsOf (events : List Event) (lost : List Nat) : List Event :=
  (events.zipIdx.filter fun x => isRequest x.1.type && !lost.contains x.2).map Prod.fst

/-- A request keeps the node alive. -/
def takeOver (s : Driven) (n : Node) (events : List Event) (lost : List Nat) : Driven :=
  let requests := requestsOf events lost
  { s with
    node := if requests.length = 0 then n else { n with idleTick := 0 }
    pool := s.pool ++ requests.map fun e => { req := e, leaderLastLogTerm := n.lastTermStartIndex.term } }

def progress (s : Driven) (k : Nat) (disk : LogStorage) : Progress → Driven
  | .more t => { s with pool := s.pool.set k t, disk := disk }
  | .response e => { s with pool := s.pool.eraseIdx k, inbox := s.inbox ++ [e], disk := disk }

/-- One step of the node or of the pool. Responses come from the pool only. -/
def step (d : Driver) (s : Driven) : Action → Option Driven
  | .step e => if isResponse e.type then none else (s.node.step e).map fun r => { s with node := r.1 }
  | .tick => s.node.tick.map fun n => { s with node := n }
  | .ready lost =>
    match s.node.ready with
    | none => none
    | some (n, events) => if lost.all (canLose d n events) then some (s.takeOver n events lost) else none
  | .run k o =>
    match s.pool[k]? with
    | none => none
    | some t =>
      (d.handle s.disk s.node.readState.lastLogIndex t o).map fun r => s.progress k r.1 r.2
  | .deliver k =>
    match s.inbox[k]? with
    | none => none
    | some e => (s.node.step e).map fun r => { s with node := r.1, inbox := s.inbox.eraseIdx k }

def start (d : Driver) (disk : LogStorage) (opts : Options) : Option Driven :=
  let r := disk.getState d.storage
  (newNode (r.1.getTermStartIndex r.2.lastTerm) r.2 opts).map fun n => { node := n, disk := r.1 }

end Driven
end WuKongIM.Raft

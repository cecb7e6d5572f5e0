import WuKongIM.Raft.Driver
import WuKongIM.Raft.QueueSpec

/-! Proposals of package `raft` that wait until they are applied, on the node that leads. `none` is
a panic or a step that is not possible. -/
namespace WuKongIM.Raft

structure ProposeReq where
  id : Nat
  data : List UInt8
  deriving DecidableEq

variable (lastLogIndex term : Nat)

def logsFrom (reqs : List ProposeReq) : List Log :=
  reqs.zipIdx.map fun x => { id := x.1.id, index := add64 (lastLogIndex + 1) x.2, term := term, data := x.1.data }

theorem numbered_logsFrom (reqs : List ProposeReq) (hfits : lastLogIndex + reqs.length ≤ maxUint64) :
    Numbered (lastLogIndex + 1) (logsFrom lastLogIndex term reqs) := by
  have hgen : ∀ k, lastLogIndex + k + reqs.length ≤ maxUint64 →
      Numbered (lastLogIndex + 1 + k) ((reqs.zipIdx k).map fun x =>
        { id := x.1.id, index := add64 (lastLogIndex + 1) x.2, term := term, data := x.1.data }) := by
    clear hfits
    induction reqs with
    | nil => exact fun _ _ => trivial
    | cons req reqs ih =>
      intro k hk
      rw [List.length_cons] at hk
      exact ⟨add64_of_le (by omega), ih (k + 1) (by omega)⟩
  exact hgen 0 hfits

theorem length_logsFrom (reqs : List ProposeReq) : (logsFrom lastLogIndex term reqs).length = reqs.length := by
  rw [logsFrom, List.length_map, List.length_zipIdx]

/-- A registered wait for the application of an index, with the batch of its call and whether
the call is still there: it may have failed, or given up. -/
structure ApplyWait where
  maxIndex : Nat
  logs : List Log
  waiting : Bool

abbrev raftDriver (storage : StorageKind) (maxLogCountPerBatch : Nat) : Driver :=
  { kind := .raft, storage := storage, maxPerBatch := maxLogCountPerBatch }

/-- A driven node that takes proposals. `calls` have seen this node lead and wait for the event
loop. `returned` are the batches of the calls that returned success, whose responses name the id
and the index of each log, and `applied` are the logs that the state machine has been given. -/
structure RaftServer where
  driven : Driven
  pause : Bool := false
  calls : List (List ProposeReq) := []
  progresses : List ApplyWait := []
  returned : List (List Log) := []
  applied : List Log := []

namespace RaftServer

inductive Action where
  | driven (a : Driven.Action)
  | pause
  | resume
  | call (reqs : List ProposeReq)
  | propose (k : Nat)
  | giveUp (k : Nat)

def isLeader (n : Node) : Bool := n.readState.cfg.leader != 0 && n.readState.cfg.leader == n.opts.nodeId

def batchOf (n : Node) (reqs : List ProposeReq) : List Log := logsFrom n.queue.lastLogIndex n.cfg.term reqs

/-- The calls whose last index is applied are woken, and their waits are cleaned up. -/
def didApply (s : RaftServer) (maxLogIndex : Nat) : RaftServer :=
  { s with
    progresses := s.progresses.filter fun p => ¬p.maxIndex ≤ maxLogIndex
    returned := s.returned ++ (s.progresses.filter fun p => p.waiting ∧ p.maxIndex ≤ maxLogIndex).map (·.logs) }

/-- `proposeBatch` within the event loop: register the wait unless the index is applied already,
then step the proposal. When the step fails the wait stays, without its call. -/
def proposeBatch (s : RaftServer) (reqs : List ProposeReq) : Option RaftServer :=
  if s.pause then some s
  else
    let logs := batchOf s.driven.node reqs
    match logs.getLast? with
    | none => none
    | some last =>
      let needWait := s.driven.node.queue.appliedIndex < last.index
      (s.driven.node.step { type := .propose, logs := logs }).map fun r =>
        let s := { s with driven := { s.driven with node := r.1 } }
        if needWait then { s with progresses := s.progresses ++ [⟨last.index, logs, r.2.isNone⟩] }
        else if r.2.isNone then { s with returned := s.returned ++ [logs] }
        else s

def appliedBy (s : Driven) : Driven.Action → List Log
  | .run k .done => ((s.pool[k]?).filter fun t => t.req.type == .applyReq && t.calls != 0).elim [] (·.logs)
  | _ => []

/-- A response to a successful application wakes calls, if its step does not fail. -/
def wakes (s : Driven) : Driven.Action → Bool
  | .deliver k =>
    (s.inbox[k]?).any fun r => r.type == .applyResp && r.reason == .ok && (s.node.step r).any (·.2.isNone)
  | _ => false

/-- While the loop is paused only the pool goes on. -/
def runsPaused : Driven.Action → Bool
  | .run _ _ => true
  | _ => false

def step (d : Driver) (s : RaftServer) : Action → Option RaftServer
  | .driven a =>
    if s.pause && !runsPaused a then none
    else
      (s.driven.step d a).map fun t =>
        let r := { s with driven := t, applied := s.applied ++ appliedBy s.driven a }
        if wakes s.driven a then r.didApply t.node.queue.appliedIndex else r
  | .pause => some { s with pause := true }
  | .resume => some { s with pause := false }
  | .call reqs =>
    if isLeader s.driven.node && !s.pause then some { s with calls := s.calls ++ [reqs] } else none
  | .propose k =>
    match s.calls[k]? with
    | none => none
    | some reqs => proposeBatch { s with calls := s.calls.eraseIdx k } reqs
  | .giveUp k =>
    match s.progresses[k]? with
    | none => none
    | some p => some { s with progresses := s.progresses.set k { p with waiting := false } }

def start (d : Driver) (disk : LogStorage) (opts : Options) : Option RaftServer :=
  (Driven.start d disk opts).map fun s => { driven := s }

end RaftServer
end WuKongIM.Raft

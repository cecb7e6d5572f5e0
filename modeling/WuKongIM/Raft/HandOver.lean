import WuKongIM.Raft.Changes
import WuKongIM.Raft.Propose
import WuKongIM.Raft.RoleChange

/-! How a leader with a configured migration hands over: its node asks for a change of roles when
the member to which the group moves has caught up, the group makes the new configuration and saves
it, and the answer comes back as an event. -/
namespace WuKongIM.Raft

def EventType.asksForLeader : EventType → Bool
  | .learnerToLeaderReq | .followerToLeaderReq => true
  | _ => false

def Node.roleRequests (n : Node) : List Event := n.events.filter fun e => e.type.isRoleRequest

/-- `log` is the whole log of the leader, of which the node keeps the end only, and `target` the log
of the member to which the group moves. A configuration is saved together with what that log was at
the time. -/
structure HandOver where
  node : Node
  log : List Log
  target : List Log
  requests : List Event := []
  pending : List Config := []
  saved : List (Config × List Log) := []

inductive HandOverStep
  /-- Proposals reach the leader. -/
  | propose (reqs : List ProposeReq)
  /-- Any other event of its term, among them the synchronisations of the members and the answers to role requests. -/
  | deliver (e : Event)
  /-- The driver takes the events of the node. -/
  | ready
  /-- The target gets logs of the leader. -/
  | fetch (count : Nat)
  /-- The target, whose log is not that of the leader, is told to cut it. -/
  | truncate (index : Nat)
  /-- The group takes up a role request. The published configuration is that of the node. -/
  | change (i : Nat)
  | save (i : Nat) (succeeds : Bool)

variable (s : HandOver)

def HandOver.step : HandOverStep → Option HandOver
  | .propose reqs =>
    let logs := logsFrom s.node.queue.lastLogIndex s.node.cfg.term reqs
    (s.node.stepLeader { type := .propose, logs := logs }).map fun r =>
      { s with node := r.1, log := if r.2 = none then s.log ++ logs else s.log }
  | .deliver e =>
    if e.type = .propose then none
    else (s.node.stepLeader e).map fun r => { s with node := r.1 }
  | .ready => s.node.ready.map fun r => { s with node := r.1, requests := s.requests ++ r.2.filter fun e => e.type.isRoleRequest }
  | .fetch count => some { s with target := s.target ++ (s.log.drop s.target.length).take count }
  | .truncate index => if s.target <+: s.log then none else some { s with target := s.target.take index }
  | .change i => s.requests[i]?.map fun e =>
    { s with requests := s.requests.eraseIdx i, pending := s.pending ++ (roleChange s.node.cfg e.type e.fromNode).toList }
  | .save i succeeds => s.pending[i]?.map fun cfg =>
    { s with pending := s.pending.eraseIdx i, saved := if succeeds then s.saved ++ [(cfg, s.target)] else s.saved }

structure HandOver.Start (s : HandOver) : Prop where
  last : s.node.queue.lastLogIndex = s.log.length
  stored : s.node.queue.storedIndex ≤ s.node.queue.lastLogIndex
  committed : s.node.queue.committedIndex ≤ s.node.queue.lastLogIndex
  sent : s.node.roleRequests = []
  requests : s.requests = []
  pending : s.pending = []
  saved : s.saved = []

def HandOver.underWay : Bool :=
  ((s.node.roleRequests ++ s.requests).any fun e => e.type.asksForLeader) ||
    (s.pending ++ s.saved.map Prod.fst).any fun cfg => cfg.leader ≠ s.node.cfg.leader

/-- The target has what it reports, and this is the log of the leader, as far as it goes. -/
def HandOver.Reports (e : Event) : Prop :=
  e.type = .syncReq → e.fromNode = s.node.cfg.migrateTo →
    e.index ≤ s.target.length + 1 ∧ s.target <+: s.log ∧ s.log.length < maxUint64
  deriving Decidable

/-- Proposals that come while another leader is under way are refused, and the reports of the target
hold when they are handled. Indexes do not run out. -/
def HandOver.careful : HandOverStep → Bool
  | .propose reqs => s.node.stopPropose || !s.underWay && decide (s.log.length + reqs.length ≤ maxUint64)
  | .deliver e => decide (s.Reports e)
  | _ => true

/-- The new leader has all that the old one has committed, and leads in a later term. -/
def HandOver.Lossless (saved : Config × List Log) : Prop :=
  s.log.take s.node.queue.committedIndex <+: saved.2 ∧ s.node.cfg.term < saved.1.term

end WuKongIM.Raft

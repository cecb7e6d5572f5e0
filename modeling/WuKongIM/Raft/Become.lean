import WuKongIM.Raft.Node

/-! Role changes: the four `Become` functions, the construction of a node, the start of an
election and the switch to another configuration. -/
namespace WuKongIM.Raft
namespace Node

variable (n : Node)

def reset : Node :=
  { n with
    electionElapsed := 0
    randomizedElectionTimeout := 0
    voteFor := noneId
    votes := ∅
    stopPropose := false
    replicaSync := ∅
    onlySync := false
    suspend := false }.resetRandomizedElectionTimeout

/-- A leader that becomes a candidate panics. -/
def becomeCandidate : Option Node :=
  if n.cfg.role = .leader then none
  else
    let n := { n with cfg := { n.cfg with term := succ32 n.cfg.term }, stepFunc := .candidate }.reset
    some { n with
      tickFnc := .candidate
      voteFor := n.opts.nodeId
      cfg := { n.cfg with leader := 0, role := .candidate } }.publishReadState

def becomeFollower (term leaderId : Nat) : Node :=
  let n := { n with cfg := { n.cfg with term := term }, stepFunc := .follower }.reset
  { n with
    tickFnc := .follower
    voteFor := noneId
    cfg := { n.cfg with leader := leaderId, role := .follower } }.publishReadState

def becomeLeader (term : Nat) : Node :=
  let n := { n with cfg := { n.cfg with term := term }, stepFunc := .leader }.reset
  { n with
    tickFnc := .leader
    cfg := { n.cfg with leader := n.opts.nodeId, role := .leader } }.publishReadState

def becomeLearner (term leaderId : Nat) : Node :=
  let n := { n with cfg := { n.cfg with term := term }, stepFunc := .learner }.reset
  { n with
    tickFnc := .learner
    voteFor := noneId
    cfg := { n.cfg with leader := leaderId, role := .learner } }.publishReadState

def campaign : Option Node :=
  if n.cfg.leader = n.opts.nodeId then some (n.becomeFollower n.cfg.term 0)
  else
    n.becomeCandidate.map fun n =>
      n.cfg.replicas.foldl (fun m nodeId =>
        if nodeId = m.opts.nodeId then m.sendVoteReq localNode else m.sendVoteReq nodeId) n

/-- The two branches of `roleChangeIfNeed`: the first role of a node, and a changed role,
leader or term. -/
def roleChangeIfNeed (oldCfg newCfg : Config) : Node :=
  if oldCfg.role = .unknown ∧ newCfg.role = .unknown ∧ newCfg.replicas.length > 0 then
    if newCfg.replicas = [n.opts.nodeId] then n.becomeLeader newCfg.term
    else if newCfg.leader ≠ 0 ∧ newCfg.leader = n.opts.nodeId then n.becomeLeader newCfg.term
    else if newCfg.replicas.contains n.opts.nodeId then n.becomeFollower newCfg.term newCfg.leader
    else if newCfg.learners.contains n.opts.nodeId then n.becomeLearner newCfg.term newCfg.leader
    else n
  else if oldCfg.role ≠ newCfg.role ∨ oldCfg.leader ≠ newCfg.leader ∨ oldCfg.term ≠ newCfg.term then
    if newCfg.leader = n.opts.nodeId then n.becomeLeader newCfg.term
    else
      match if newCfg.role = .unknown then oldCfg.role else newCfg.role with
      | .leader => n.becomeLeader newCfg.term
      | .follower => n.becomeFollower newCfg.term newCfg.leader
      | .learner => n.becomeLearner newCfg.term newCfg.leader
      | _ => n
  else n

/-- The configuration that `switchConfig` installs: a lower or missing term is replaced by
the current one, and an unknown role is derived from the membership. -/
def completeConfig (newCfg : Config) : Config :=
  let newCfg := if newCfg.term < n.cfg.term then { newCfg with term := n.cfg.term } else newCfg
  if newCfg.role ≠ .unknown then newCfg
  else
    let newCfg := { newCfg with role := n.cfg.role }
    let newCfg :=
      if newCfg.leader = 0 ∧ newCfg.replicas.contains n.cfg.leader then { newCfg with leader := n.cfg.leader }
      else newCfg
    if newCfg.learners.contains n.opts.nodeId then { newCfg with role := .learner }
    else if n.cfg.role = .learner ∧ newCfg.replicas.contains n.opts.nodeId then { newCfg with role := .follower }
    else if n.cfg.role = .leader ∧ newCfg.leader ≠ n.opts.nodeId then { newCfg with role := .follower }
    else newCfg

/-- A configuration of a lower version is refused and changes nothing. -/
def switchConfig (newCfg : Config) : Node :=
  if n.cfg.version > newCfg.version then n
  else
    let oldCfg := n.cfg
    let newCfg := n.completeConfig newCfg
    let n := { n with votes := ∅, replicaSync := ∅ }.resetRandomizedElectionTimeout
    { n with cfg := newCfg }.roleChangeIfNeed oldCfg newCfg

end Node

/-- A node that starts from what its storage holds. It panics when more is applied than held. -/
def newNode (lastTermStartLogIndex : Nat) (raftState : RaftState) (opts : Options) : Option Node :=
  if raftState.appliedIndex > raftState.lastLogIndex then none
  else
    let term := if raftState.lastTerm = 0 then 1 else raftState.lastTerm
    let n : Node :=
      { opts := opts
        cfg := { replicas := opts.replicas, term := term }
        queue := newQueue raftState.appliedIndex raftState.lastLogIndex }
    let n := n.resetRandomizedElectionTimeout.updateLastTermStartIndex term lastTermStartLogIndex
    some
      (if n.cfg.replicas = [opts.nodeId] then n.becomeLeader n.cfg.term
      else if n.cfg.replicas.length > 0 then n.becomeFollower n.cfg.term noneId
      else n).publishReadState

end WuKongIM.Raft

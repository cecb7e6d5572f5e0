import WuKongIM.Lib.Entries
import WuKongIM.Nodes.ClusterConfig

/-! How the leaders of slots and of channels are elected: the replicas are asked for their last
logs, and the one with the most recent log is taken. Go walks through a map in any order; a map
stands here as the list of its entries in the order of a walk. -/
namespace WuKongIM.Nodes
open Lib

structure LastLog where
  logIndex : UInt64 := 0
  logTerm : UInt32 := 0
  term : UInt32 := 0
  deriving DecidableEq

structure SlotInfo extends LastLog where
  slotId : SlotId
  deriving DecidableEq

structure SlotLogInfoResp where
  nodeId : NodeId
  slots : List SlotInfo

/-- For each node that answered, what it said of a slot. -/
abbrev SlotLogInfos := List (NodeId × (SlotId → Option SlotInfo))

abbrev Reply := NodeId × LastLog

def LastLog.newer (best candidate : LastLog) : Bool :=
  candidate.logTerm > best.logTerm || candidate.logTerm == best.logTerm && candidate.logIndex > best.logIndex

variable (best candidate : Reply)

/-- A candidate whose term is lower is not considered. -/
def consider : Reply :=
  if candidate.2.term < best.2.term then best else if best.2.newer candidate.2 then candidate else best

/-- In a slot the first candidate is taken as it is. -/
def considerSlot : Reply := if best.1 = 0 then candidate else consider best candidate

def repliesOf (infos : SlotLogInfos) (slotId : SlotId) : List Reply :=
  infos.filterMap fun e => (e.2 slotId).map fun info => (e.1, info.toLastLog)

/-- The leader that is wished for, if it has answered; it is looked for in a walk of its own. -/
def expectedReply (st : Option Slot) (infos : SlotLogInfos) (slotId : SlotId) : Option Reply :=
  st.bind fun st =>
    if st.expectLeader ≠ 0 ∧ st.expectLeader ≠ st.leader then
      (repliesOf infos slotId).find? fun reply => reply.1 = st.expectLeader
    else none

/-- The two walks go through the same map. -/
def electionSlotLeaderBySlot (st : Option Slot) (first second : SlotLogInfos) (slotId : SlotId) : NodeId :=
  ((repliesOf second slotId).foldl considerSlot ((expectedReply st first slotId).getD (0, {}))).1

variable (resps : List SlotLogInfoResp)

def slotQuorum (slotId : SlotId) : Nat :=
  (resps.flatMap SlotLogInfoResp.slots).countP fun info => info.slotId = slotId

def quorateInfos (quorum : Nat) (resp : SlotLogInfoResp) (slotId : SlotId) : Option SlotInfo :=
  if slotQuorum resps slotId < quorum then none else resp.slots.reverse.find? fun info => info.slotId = slotId

/-- The least number of answers is taken from the options and not from the slot. -/
def collectSlotLogInfo (slotMaxReplicaCount : UInt32) (resps : List SlotLogInfoResp) : SlotLogInfos :=
  setEntries [] (resps.map fun resp => (resp.nodeId, quorateInfos resps (slotMaxReplicaCount.toNat / 2 + 1) resp))

/-- What the leader of the configuration knows: the configuration, and which version of it each node
has. -/
structure ClusterView where
  config : Config
  nodeConfigVersion : NodeId → UInt64
  slotMaxReplicaCount : UInt32

structure Walks where
  first : SlotId → SlotLogInfos → SlotLogInfos
  second : SlotId → SlotLogInfos → SlotLogInfos
  leaders : List (SlotId × NodeId) → List (SlotId × NodeId)
  first_perm : ∀ id m, (first id m).Perm m
  second_perm : ∀ id m, (second id m).Perm m
  leaders_perm : ∀ m, (leaders m).Perm m

variable (v : ClusterView) (w : Walks)

/-- A replica is asked for a slot when it is online; if it has an older configuration, the election
is given up. -/
def askReplica (slotId : SlotId) (asked : List (NodeId × List SlotId)) (replicaId : NodeId) :
    Option (List (NodeId × List SlotId)) :=
  if !v.config.nodeOnline replicaId then some asked
  else if v.nodeConfigVersion replicaId < v.config.version then none
  else some (setEntry asked replicaId ((asked.lookup replicaId).getD [] ++ [slotId]))

def askForSlot (requests : List (NodeId × List SlotId) × List SlotId) (slot : Slot) :
    Option (List (NodeId × List SlotId) × List SlotId) :=
  if slot.status ≠ .candidate then some requests
  else (slot.replicas.foldlM (askReplica v slot.id) requests.1).map fun asked => (asked, requests.2 ++ [slot.id])

/-- The nodes that are asked, with the slots that each one is asked for, and the slots that are
elected for. -/
def electionRequests (slots : List Slot) : Option (List (NodeId × List SlotId) × List SlotId) :=
  slots.foldlM (askForSlot v) ([], [])

def calculateSlotLeader (infos : SlotLogInfos) (slotIds : List SlotId) : List (SlotId × NodeId) :=
  setEntries [] (slotIds.map fun id =>
    (id, electionSlotLeaderBySlot (v.config.slot id) (w.first id infos) (w.second id infos) id))

variable (respond : List (NodeId × List SlotId) → List SlotLogInfoResp) (slots : List Slot)

/-- The leaders that are elected for the slots, from the answers to the requests. Nothing is elected
when nobody is asked or nobody answers. -/
def slotLeaders : List (SlotId × NodeId) :=
  match electionRequests v slots with
  | none => []
  | some (asked, ids) =>
    if asked = [] then []
    else if (respond asked).isEmpty then []
    else calculateSlotLeader v w (collectSlotLogInfo v.slotMaxReplicaCount (respond asked)) ids

/-- The slot with its new leader. A node to which the slot was moved has arrived. -/
def electedSlot (slot : Slot) (newLeaderId : NodeId) : Slot :=
  let newSlot := { slot with leader := newLeaderId, term := slot.term + 1, expectLeader := 0, status := .normal }
  if newSlot.migrateTo ≠ 0 ∧ newSlot.migrateTo = newLeaderId then
    { newSlot with migrateFrom := 0, migrateTo := 0, learners := newSlot.learners.erase newLeaderId }
  else newSlot

/-- The slot that is proposed for an elected leader: none when there is no leader, and none when the
leader is the old one. -/
def newSlot (elected : SlotId × NodeId) : Option Slot :=
  if elected.2 = 0 then none
  else (slots.find? fun s => s.id = elected.1).bind fun slot =>
    if slot.leader ≠ elected.2 then some (electedSlot slot elected.2) else none

def handleSlotElection : List Slot :=
  (w.leaders (slotLeaders v w respond slots)).filterMap (newSlot slots)

/-- `handleSlotLeaderElection`: the slots that are candidates. -/
def electionSlots (c : Config) : List Slot := c.slots.filter fun s => s.status = .candidate

structure ChannelClusterConfig where
  replicaMaxCount : UInt16 := 0
  replicas : List NodeId := []
  learners : List NodeId := []
  leaderId : NodeId := 0
  term : UInt32 := 0
  migrateFrom : NodeId := 0
  migrateTo : NodeId := 0
  confVersion : UInt64 := 0
  deriving DecidableEq

/-- The scan starts with an empty log, so that a replica without logs is never taken. -/
def electionNewLeader (replies : List Reply) : NodeId := (replies.foldl consider (0, {})).1

inductive SwitchError
  | noReplicaLastLogInfos | notEnoughReplicaLastLogInfos | noNewLeader
  deriving DecidableEq

/-- `online` says which nodes are online, `respond` what the nodes that are asked answer, in the
order of the walk. -/
def switchLeaderIfNeed (online : NodeId → Bool) (respond : List NodeId → List Reply)
    (cfg : ChannelClusterConfig) : Except SwitchError (Option ChannelClusterConfig) :=
  if cfg.leaderId ≠ 0 ∧ online cfg.leaderId then .ok none
  else
    let replies := respond (cfg.replicas.filter online)
    if replies.isEmpty then .error .noReplicaLastLogInfos
    else if replies.length < cfg.replicaMaxCount.toNat / 2 + 1 then .error .notEnoughReplicaLastLogInfos
    else if electionNewLeader replies = 0 then .error .noNewLeader
    else .ok (some { cfg with leaderId := electionNewLeader replies, term := cfg.term + 1 })

end WuKongIM.Nodes

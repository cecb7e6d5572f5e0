import WuKongIM.Lib.Entries
import WuKongIM.Nodes.ClusterConfig

/-! Slots move to a node that joins, and to a node to which an operator moves them. -/
namespace WuKongIM.Nodes
open Lib

variable (c : Config)

def Config.allowVoteNodes : List Node := c.nodes.filter Node.allowVote

def Slot.migrating (slot : Slot) (fromNodeId toNodeId : NodeId) : Slot :=
  { slot with migrateFrom := fromNodeId, migrateTo := toNodeId, learners := slot.learners ++ [toNodeId] }

/-- How many nodes, or slots, each one of `count` gets of `total`, the last one perhaps less. -/
def shareOf (total count : UInt32) : UInt32 := if total % count > 0 then total / count + 1 else total / count

def countUp (m : List (NodeId × ℕ)) (nodeId : NodeId) : List (NodeId × ℕ) := setEntry m nodeId ((m.lookup nodeId).getD 0 + 1)

/-- How many of its slots each node gives away: `migrateFromCountMap`, and
`migrateSlotLeaderFromCountMap`. -/
def surplus (counts : List (NodeId × ℕ)) (avg : ℕ) : List (NodeId × ℕ) :=
  (counts.filter fun e => e.2 > avg).map fun e => (e.1, e.2 - avg)

/-- The slots that move, and how many slots and led slots the node still gives away. -/
structure Giving where
  migrateSlots : List Slot
  fromSlotCount : ℕ
  fromSlotLeaderCount : ℕ

def giveSlot (joiningId nodeId : NodeId) (g : Giving) (slot : Slot) : Giving :=
  if slot.id ∈ g.migrateSlots.map Slot.id then g
  else if g.fromSlotCount > 0 ∧ g.fromSlotLeaderCount > 0 ∧ slot.leader = nodeId then
    { migrateSlots := g.migrateSlots ++ [slot.migrating slot.leader joiningId]
      fromSlotCount := g.fromSlotCount - 1
      fromSlotLeaderCount := g.fromSlotLeaderCount - 1 }
  else if g.fromSlotCount > 0 ∧ nodeId ∈ slot.replicas then
    { g with migrateSlots := g.migrateSlots ++ [slot.migrating nodeId joiningId], fromSlotCount := g.fromSlotCount - 1 }
  else g

/-- The loop over the voting nodes; what a node has given away is counted in
`migrateFromCountMap`. -/
def giveSlots (joiningId : NodeId) (slots : List Slot) (fromLeaders : List (NodeId × ℕ)) :
    List Node → List Slot → List (NodeId × ℕ) → List Slot
  | [], migrateSlots, _ => migrateSlots
  | node :: nodes, migrateSlots, fromCounts =>
    let fromSlotCount := (fromCounts.lookup node.id).getD 0
    if fromSlotCount = 0 then giveSlots joiningId slots fromLeaders nodes migrateSlots fromCounts
    else
      let g := slots.foldl (giveSlot joiningId node.id) ⟨migrateSlots, fromSlotCount, (fromLeaders.lookup node.id).getD 0⟩
      giveSlots joiningId slots fromLeaders nodes g.migrateSlots (setEntry fromCounts node.id g.fromSlotCount)

/-- The slots that move to the node: all of them if they have too few replicas, else a share of
them. A share of no voting node is a division by zero, which ends the process. -/
def joiningSlots (joiningId : NodeId) (firstSlot : Slot) : Option (List Slot) :=
  let slotCount := UInt32.ofNat c.slots.length
  let voteNodeCount := UInt32.ofNat c.allowVoteNodes.length
  if UInt32.ofNat firstSlot.replicas.length < c.slotReplicaCount then
    some (c.slots.map fun slot => slot.migrating joiningId joiningId)
  else if voteNodeCount = 0 then none
  else
    let leaderCounts := c.slots.foldl (fun m slot => countUp m slot.leader) []
    let slotCounts := c.slots.foldl (fun m slot => slot.replicas.foldl countUp m) [(joiningId, 0)]
    some (giveSlots joiningId c.slots (surplus leaderCounts (shareOf slotCount voteNodeCount).toNat) c.allowVoteNodes []
      (surplus slotCounts (shareOf (slotCount * c.slotReplicaCount) voteNodeCount).toNat))

/-- The node that joins and the slots that are proposed for it. Nothing is proposed without slots,
without a node that joins or without slots that move. -/
def handleNodeJoining : Option (NodeId × List Slot) :=
  match c.slots, c.nodes.find? fun n => n.status = .joining with
  | firstSlot :: _, some joiningNode =>
    match joiningSlots c joiningNode.id firstSlot with
    | none | some [] => none
    | some migrateSlots => some (joiningNode.id, migrateSlots)
  | _, _ => none

def setJoined (nodeId : NodeId) : List Node → List Node
  | [] => []
  | n :: rest => if n.id = nodeId then { n with status := .joined } :: rest else n :: setJoined nodeId rest

/-- The first slot with the number of the new one is replaced; without one, the new slot is
added. -/
def replaceOrAddSlot (slots : List Slot) (new : Slot) : List Slot :=
  if new.id ∈ slots.map Slot.id then replaceSlot slots new else slots ++ [new]

/-- The handler of `CMDTypeNodeJoined`. -/
def Config.updateNodeJoined (nodeId : NodeId) (slots : List Slot) : Config :=
  { c with nodes := setJoined nodeId c.nodes, slots := slots.foldl replaceOrAddSlot c.slots }

/-- May an operator have the slot moved so? -/
def slotMigrateAllowed (slot : Slot) (migrateFrom migrateTo : NodeId) : Bool :=
  decide (migrateFrom ∈ slot.replicas) && !(decide (migrateTo ∈ slot.replicas) && decide (migrateFrom ≠ slot.leader)) &&
    !(decide (migrateFrom = 0) || decide (migrateTo = 0)) && decide (migrateFrom ≠ migrateTo)

/-- A node that has no replica of the slot learns it first. -/
def Slot.startMigrate (slot : Slot) (fromNodeId toNodeId : NodeId) : Slot :=
  if toNodeId ∈ slot.replicas then { slot with migrateFrom := fromNodeId, migrateTo := toNodeId }
  else slot.migrating fromNodeId toNodeId

def startMigrate (slotId : SlotId) (fromNodeId toNodeId : NodeId) : List Slot → List Slot
  | [] => []
  | slot :: rest =>
    if slot.id = slotId ∧ slot.migrateFrom = 0 ∧ slot.migrateTo = 0 then slot.startMigrate fromNodeId toNodeId :: rest
    else slot :: startMigrate slotId fromNodeId toNodeId rest

/-- The handler of `CMDTypeSlotMigrate`. -/
def Config.updateSlotMigrate (slotId : SlotId) (fromNodeId toNodeId : NodeId) : Config :=
  { c with slots := startMigrate slotId fromNodeId toNodeId c.slots }

end WuKongIM.Nodes

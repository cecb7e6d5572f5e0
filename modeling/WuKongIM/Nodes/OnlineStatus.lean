import WuKongIM.Lib.Allotment
import WuKongIM.Lib.Entries
import WuKongIM.Nodes.ClusterConfig

/-! What becomes of the slots when a node comes or goes. -/
namespace WuKongIM.Nodes
open Lib

/-- How many slots each node leads that leads any. A walk through the map goes in any order. -/
def nodeSlotLeaderCountMap (slots : List Slot) : List (NodeId × ℕ) :=
  slots.foldl (fun m slot => setEntry m slot.leader ((m.lookup slot.leader).getD 0 + 1)) []

variable (c : Config) (nodeId : NodeId) (avg : ℕ)

/-- How many slots a node should lead. Without an online node the program divides by zero. -/
def avgSlotLeaderCount : Option UInt32 :=
  let onlineNodeCount := UInt32.ofNat c.allowVoteAndJoinedOnlineNodes.length
  if onlineNodeCount = 0 then none else some (c.slotCount / onlineNodeCount)

def Slot.settled (slot : Slot) : Bool :=
  decide (slot.migrateFrom = 0) && decide (slot.migrateTo = 0) && decide (slot.status ≠ .candidate)

def Slot.candidateFor (slot : Slot) (nId : NodeId) : Slot := { slot with status := .candidate, expectLeader := nId }

/-- The inner loop for a slot: the first node of the walk that does not lead too many slots. -/
def pickLeader (slot : Slot) (current : ℕ) : List (NodeId × ℕ) → Option NodeId
  | [] => none
  | (nId, slotLeaderCount) :: rest =>
    if nId = nodeId then pickLeader slot current rest
    else if current ≤ 0 then none
    else if slotLeaderCount > avg then pickLeader slot current rest
    else if slot.settled then some nId
    else pickLeader slot current rest

def candidates (o : Orders Slot NodeId) : List Slot → List (NodeId × ℕ) → ℕ → List Slot
  | [], _, _ => []
  | slot :: slots, counts, current =>
    if slot.leader ≠ nodeId then candidates o slots counts current
    else match pickLeader nodeId avg slot current (o.walk slot counts) with
      | some nId => slot.candidateFor nId :: candidates o slots (bump counts nId) (current - 1)
      | none => candidates o slots counts current

def offlineSlots (o : Orders Slot NodeId) : Option (List Slot) :=
  (avgSlotLeaderCount c).map fun avg =>
    let counts := nodeSlotLeaderCountMap c.slots
    candidates nodeId avg.toNat o c.slots counts ((counts.lookup nodeId).getD 0)

/-- The slots of a leader that are moved to the node, and how many more the node needs. -/
def moveFrom (nId : NodeId) : List Slot → ℕ → ℕ → List Slot × ℕ
  | [], _, need => ([], need)
  | slot :: slots, exported, need =>
    if slot.leader = nId ∧ exported > 0 ∧ need > 0 ∧ slot.migrateFrom = 0 ∧ slot.migrateTo = 0 ∧ nodeId ∈ slot.replicas then
      let rest := moveFrom nId slots (exported - 1) (need - 1)
      ({ slot with migrateFrom := nId, migrateTo := nodeId } :: rest.1, rest.2)
    else moveFrom nId slots exported need

def moves (slots : List Slot) : List (NodeId × ℕ) → ℕ → List Slot
  | [], _ => []
  | (nId, slotLeaderCount) :: rest, need =>
    if slotLeaderCount < avg then moves slots rest need
    else if need ≤ 0 then []
    else if nId = nodeId then moves slots rest need
    else
      let moved := moveFrom nodeId nId slots (slotLeaderCount - avg) need
      moved.1 ++ moves slots rest moved.2

def onlineSlots (walk : List (NodeId × ℕ) → List (NodeId × ℕ)) : Option (List Slot) :=
  (avgSlotLeaderCount c).map fun avg =>
    let counts := nodeSlotLeaderCountMap c.slots
    let current := (counts.lookup nodeId).getD 0
    if current ≥ avg.toNat then [] else moves nodeId avg.toNat c.slots (walk counts) (avg.toNat - current)

end WuKongIM.Nodes

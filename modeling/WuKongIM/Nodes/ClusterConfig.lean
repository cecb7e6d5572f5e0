import Mathlib.Data.List.Basic

/-! The configuration of the cluster: its nodes and its slots. -/
namespace WuKongIM.Nodes
open List

abbrev NodeId := UInt64
abbrev SlotId := UInt32

inductive NodeStatus
  | unknown | willJoin | joining | joined
  deriving DecidableEq

inductive SlotStatus
  | normal | candidate | leaderTransfer
  deriving DecidableEq

structure Node where
  id : NodeId
  online : Bool := false
  allowVote : Bool := false
  status : NodeStatus := .unknown
  deriving DecidableEq

/-- A node of number zero is none. -/
structure Slot where
  id : SlotId
  leader : NodeId := 0
  term : UInt32 := 0
  replicas : List NodeId := []
  learners : List NodeId := []
  migrateFrom : NodeId := 0
  migrateTo : NodeId := 0
  expectLeader : NodeId := 0
  status : SlotStatus := .normal
  deriving DecidableEq

structure Config where
  version : UInt64 := 0
  slotCount : UInt32 := 0
  slotReplicaCount : UInt32 := 0
  nodes : List Node := []
  slots : List Slot := []

variable (c : Config)

def Config.slot (id : SlotId) : Option Slot := c.slots.find? fun s => s.id = id

def Config.nodeOnline (nodeId : NodeId) : Bool := ((c.nodes.find? fun n => n.id = nodeId).map Node.online).getD false

def Config.allowVoteAndJoinedOnlineNodes : List Node :=
  c.nodes.filter fun n => n.allowVote && decide (n.status = .joined) && n.online

def setOnline (nodeId : NodeId) (online : Bool) : List Node → List Node
  | [] => []
  | n :: rest => if n.id = nodeId then { n with online } :: rest else n :: setOnline nodeId online rest

variable (c : Config)

/-- The handler of `CMDTypeNodeOnlineStatusChange`. -/
def Config.updateNodeOnlineStatus (nodeId : NodeId) (online : Bool) : Config :=
  { c with nodes := setOnline nodeId online c.nodes }

def replaceSlot (slots : List Slot) (new : Slot) : List Slot :=
  match slots with
  | [] => []
  | s :: rest => if s.id = new.id then new :: rest else s :: replaceSlot rest new

/-- The handler of `CMDTypeSlotUpdate`. -/
def Config.updateSlots (slots : List Slot) : Config := { c with slots := slots.foldl replaceSlot c.slots }

theorem find?_replaceSlot (slots : List Slot) (new : Slot) (id : SlotId) :
    ((replaceSlot slots new).find? fun s => s.id = id) =
      if id = new.id then (slots.find? fun s => s.id = id).map fun _ => new else slots.find? fun s => s.id = id := by
  induction slots with
  | nil => simp [replaceSlot]
  | cons s rest ih =>
    rw [replaceSlot]
    by_cases hs : s.id = new.id
    · by_cases hid : id = new.id
      · simp [hid, hs]
      · simp [hid, Ne.symm hid, hs]
    rw [if_neg hs]
    by_cases hhere : s.id = id
    · have hid : id ≠ new.id := hhere ▸ hs
      simp [hhere, hid]
    · simp [hhere, ih]

theorem Config.slot_updateSlots (news : List Slot) (id : SlotId) : (c.updateSlots news).slot id =
      (c.slot id).map fun s => ((news.reverse.find? fun new => new.id = id).getD s) := by
  have hgen (slots : List Slot) : ((news.foldl replaceSlot slots).find? fun s => s.id = id) =
      (slots.find? fun s => s.id = id).map fun s => ((news.reverse.find? fun new => new.id = id).getD s) := by
    induction news generalizing slots with
    | nil => simp
    | cons new news ih =>
      rw [foldl_cons, ih, find?_replaceSlot, reverse_cons, find?_append]
      by_cases hid : id = new.id
      · subst hid
        cases slots.find? fun s => s.id = new.id <;> cases news.reverse.find? fun s => s.id = new.id <;> simp
      · cases slots.find? fun s => s.id = id <;> cases news.reverse.find? fun s => s.id = id <;> simp [hid, Ne.symm hid]
  exact hgen c.slots

theorem Config.slot_of_mem {c : Config} {news : List Slot} {new : Slot} (hmem : new ∈ news)
    (huniq : ∀ n ∈ news, n.id = new.id → n = new) : (c.updateSlots news).slot new.id = (c.slot new.id).map fun _ => new := by
  have hfind : (news.reverse.find? fun n => n.id = new.id) = some new := by
    obtain ⟨n, hn⟩ : ∃ n, (news.reverse.find? fun n => n.id = new.id) = some n := by
      refine Option.isSome_iff_exists.mp (find?_isSome.mpr ⟨new, mem_reverse.mpr hmem, by simp⟩)
    have hid := find?_some hn
    rw [hn, huniq n (mem_reverse.mp (mem_of_find?_eq_some hn)) (of_decide_eq_true hid)]
  rw [Config.slot_updateSlots, hfind]
  rfl

theorem Config.slot_of_not_mem {c : Config} {news : List Slot} {id : SlotId}
    (h : ∀ n ∈ news, n.id ≠ id) : (c.updateSlots news).slot id = c.slot id := by
  have hfind : (news.reverse.find? fun n => n.id = id) = none :=
    find?_eq_none.mpr fun n hn => by simpa using h n (mem_reverse.mp hn)
  rw [Config.slot_updateSlots, hfind]
  simp

end WuKongIM.Nodes

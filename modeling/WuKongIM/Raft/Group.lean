import WuKongIM.Lib.Run
import WuKongIM.Raft.Tick

/-! A group of nodes that exchange messages. Everything `Ready` returned stays in the
network, so a message can be delayed, overtaken, delivered again or never delivered. -/
namespace WuKongIM.Raft

structure Group where
  replicas : List Nat
  nodes : Nat → Node
  net : List Event

namespace Group

/-- The messages between nodes, in a group whose configuration is fixed. -/
def isPeerMessage : EventType → Bool
  | .voteReq | .voteResp | .ping | .syncReq | .syncResp | .notifySync | .termResp => true
  | _ => false

/-- What a driver, a storage or a client hands to its own node, always without a term. -/
def isLocalEvent : EventType → Bool
  | .propose | .storeResp | .truncateResp | .getLogsResp | .applyResp
  | .learnerToLeaderResp | .learnerToFollowerResp | .followerToLeaderResp => true
  | _ => false

/-- Events to the local node come back to their sender. -/
def addressedTo (i : Nat) (e : Event) : Bool :=
  e.toNode == i || (e.toNode == localNode && e.fromNode == i)

inductive Action where
  | tick (i : Nat)
  | campaign (i : Nat)
  | ready (i : Nat)
  | deliver (i k : Nat)
  | stepLocal (i : Nat) (e : Event)

def Action.node : Action → Nat
  | .tick i | .campaign i | .ready i | .deliver i _ | .stepLocal i _ => i

variable (g : Group)

def set (i : Nat) (n : Node) : Group := { g with nodes := Function.update g.nodes i n }

def stepNode : Action → Option Group
  | .tick i => (g.nodes i).tick.map (g.set i)
  | .campaign i => ((g.nodes i).step { type := .campaign }).map fun r => g.set i r.1
  | .ready i => (g.nodes i).ready.map fun r => { g.set i r.1 with net := g.net ++ r.2 }
  | .deliver i k =>
    match g.net[k]? with
    | none => none
    | some e =>
      if isPeerMessage e.type && addressedTo i e then ((g.nodes i).step e).map fun r => g.set i r.1 else none
  | .stepLocal i e =>
    if isLocalEvent e.type && e.term == 0 then ((g.nodes i).step e).map fun r => g.set i r.1 else none

/-- Only the nodes of the group act. -/
def step (a : Action) : Option Group := if a.node ∈ g.replicas then g.stepNode a else none

end Group
end WuKongIM.Raft

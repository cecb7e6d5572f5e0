import WuKongIM.Raft.Tick

/-! Quiet changes of a node: its core stays, and what it sends carries no vote and asks nothing of
its storage. -/
namespace WuKongIM.Raft

/-- The events of a quiet change, as a node with this core sends them. -/
inductive Chatter (c : NodeCore) : Event → Prop
  | notifySync (target : Nat) (h : target ≠ c.opts.nodeId) :
      Chatter c { type := .notifySync, fromNode := c.opts.nodeId, toNode := target, term := c.cfg.term }
  | syncReq (reason : Reason) :
      Chatter c
        { type := .syncReq
          fromNode := c.opts.nodeId
          toNode := c.cfg.leader
          term := c.cfg.term
          storedIndex := c.queue.storedIndex + 1
          index := c.queue.lastLogIndex + 1
          lastLogTerm := c.lastTermStartIndex.term
          reason := reason }
  | termResp (target : Nat) :
      Chatter c { type := .termResp, fromNode := c.opts.nodeId, toNode := target, term := c.cfg.term }
  | ping (target committed version : Nat) (h : target ≠ c.opts.nodeId)
      (hm : target ∈ c.cfg.replicas ++ c.cfg.learners) (hl : c.cfg.leader = c.opts.nodeId)
        (hc : committed ≤ c.queue.committedIndex) (hv : version ≤ c.cfg.version) :
      Chatter c
        { type := .ping
          fromNode := c.opts.nodeId
          toNode := target
          term := c.cfg.term
          index := c.queue.lastLogIndex
          committedIndex := committed
          configVersion := version }
  | syncResp (target syncIndex : Nat) (logs : List Log) (reason : Reason) (speed : Speed) :
      Chatter c
        { type := .syncResp
          fromNode := c.opts.nodeId
          toNode := target
          term := c.cfg.term
          index := syncIndex
          logs := logs
          committedIndex := c.queue.committedIndex
          reason := reason
          speed := speed }
  | configReq :
      Chatter c { type := .configReq, term := c.cfg.term, fromNode := c.opts.nodeId, toNode := c.cfg.leader }
  | configResp (target : Nat) (cfg : Config) :
      Chatter c
        { type := .configResp, fromNode := c.opts.nodeId, toNode := target, term := c.cfg.term, config := cfg }
  | learnerToLeaderReq (learner : Nat) : Chatter c { type := .learnerToLeaderReq, fromNode := learner }
  | learnerToFollowerReq (learner : Nat) : Chatter c { type := .learnerToFollowerReq, fromNode := learner }
  | followerToLeaderReq (follower : Nat) : Chatter c { type := .followerToLeaderReq, fromNode := follower }
  | destory : Chatter c { type := .destory, toNode := localNode }

structure Quiet (n m : Node) : Prop where
  core : m.toNodeCore = n.toNodeCore
  sent : ∃ new, m.events = n.events ++ new ∧ ∀ e ∈ new, Chatter n.toNodeCore e

namespace Quiet
variable {n m k : Node}

theorem of_events (hc : m.toNodeCore = n.toNodeCore) (he : m.events = n.events) : Quiet n m :=
  ⟨hc, [], by simp [he], by simp⟩

theorem refl (n : Node) : Quiet n n := of_events rfl rfl

theorem trans (h : Quiet n m) (h' : Quiet m k) : Quiet n k := by
  obtain ⟨new, he, hp⟩ := h.sent
  obtain ⟨new', he', hp'⟩ := h'.sent
  rw [h.core] at hp'
  refine ⟨h'.core.trans h.core, new ++ new', by rw [he', he, List.append_assoc], ?_⟩
  intro e hm
  exact (List.mem_append.mp hm).elim (hp e) (hp' e)

instance : Std.Refl Quiet := ⟨Quiet.refl⟩

instance : IsTrans Node Quiet := ⟨fun _ _ _ => Quiet.trans⟩

end Quiet
end WuKongIM.Raft

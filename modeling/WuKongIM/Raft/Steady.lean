import WuKongIM.Raft.Changes
import WuKongIM.Raft.Group

/-! Steady changes: the node keeps its term, role, leader, vote and count of votes, and sends no
vote. -/
namespace WuKongIM.Raft
open Relation List

/-- An event that grants no vote, as a node with this core sends it. -/
structure Voteless (c : NodeCore) (e : Event) : Prop where
  resp : e.type = .voteResp → e.reason ≠ .ok
  peer : Group.isPeerMessage e.type = true → e.fromNode = c.opts.nodeId ∧ e.term = c.cfg.term
  ping : e.type = .ping → e.toNode ≠ c.opts.nodeId ∧ e.toNode ∈ c.cfg.replicas ++ c.cfg.learners

theorem Chatter.voteless {c : NodeCore} {e : Event} (h : Chatter c e) : Voteless c e := by
  cases h <;> constructor <;> simp_all [Group.isPeerMessage]

theorem Voteless.congr {c d : NodeCore} {e : Event} (ho : d.opts = c.opts) (hc : d.cfg = c.cfg)
    (h : Voteless d e) : Voteless c e := by
  refine ⟨h.resp, ?_, ?_⟩
  · rw [← ho, ← hc]
    exact h.peer
  · rw [← ho, ← hc]
    exact h.ping

structure Steady (n m : Node) : Prop where
  opts : m.opts = n.opts
  cfg : m.cfg = n.cfg
  stepFunc : m.stepFunc = n.stepFunc
  tickFnc : m.tickFnc = n.tickFnc
  voteFor : m.voteFor = n.voteFor
  votes : m.votes = n.votes
  sent : ∃ new, m.events = n.events ++ new ∧ ∀ e ∈ new, Voteless n.toNodeCore e

theorem Quiet.steady {n m : Node} (h : Quiet n m) : Steady n m := by
  obtain ⟨new, he, hp⟩ := h.sent
  exact ⟨by rw [h.core], by rw [h.core], by rw [h.core], by rw [h.core], by rw [h.core], by rw [h.core],
    new, he, fun e hm => (hp e hm).voteless⟩

namespace Steady
variable {n m k : Node}

theorem trans (h : Steady n m) (h' : Steady m k) : Steady n k := by
  obtain ⟨new, he, hp⟩ := h.sent
  obtain ⟨new', he', hp'⟩ := h'.sent
  refine ⟨h'.opts.trans h.opts, h'.cfg.trans h.cfg, h'.stepFunc.trans h.stepFunc, h'.tickFnc.trans h.tickFnc,
    h'.voteFor.trans h.voteFor, h'.votes.trans h.votes, new ++ new', by rw [he', he, append_assoc], ?_⟩
  intro e hm
  exact (mem_append.mp hm).elim (hp e) fun hn => (hp' e hn).congr h.opts h.cfg

theorem of_ballot (ho : m.opts = n.opts) (hc : m.cfg = n.cfg) (hs : m.stepFunc = n.stepFunc)
    (ht : m.tickFnc = n.tickFnc) (hf : m.voteFor = n.voteFor) (hv : m.votes = n.votes)
    (he : m.events = n.events) : Steady n m :=
  ⟨ho, hc, hs, ht, hf, hv, [], by simp [he], by simp⟩

theorem of_emit {e : Event} (h : Steady n m) (he : Voteless n.toNodeCore e) : Steady n (m.emit e) := by
  refine h.trans ⟨rfl, rfl, rfl, rfl, rfl, rfl, [e], rfl, ?_⟩
  intro x hx
  rw [mem_singleton.mp hx]
  exact he.congr h.opts.symm h.cfg.symm

instance : Std.Refl Steady := ⟨fun n => (Quiet.refl n).steady⟩

instance : IsTrans Node Steady := ⟨fun _ _ _ => Steady.trans⟩

end Steady

theorem Node.steady_queue (n : Node) (q : Queue) : Steady n { n with queue := q } := .of_ballot rfl rfl rfl rfl rfl rfl rfl

theorem LogChange.steady {n m : Node} (h : LogChange n m) : Steady n m := by
  cases h with
  | calm h =>
    cases h with
    | note h => exact h.quiet.steady
    | fetch r info q hl hq =>
      refine Steady.of_emit (.of_ballot rfl rfl rfl rfl rfl rfl rfl) ?_
      constructor <;> simp [Group.isPeerMessage, hq.1]
    | commit => exact n.steady_queue _
  | queue => exact n.steady_queue _
  | truncating => exact .of_ballot rfl rfl rfl rfl rfl rfl rfl
  | order =>
    refine Steady.of_emit (Quiet.refl n).steady ?_
    constructor <;> simp [Group.isPeerMessage]

theorem LogChanges.steady {n m : Node} (h : LogChanges n m) : Steady n m :=
  reflTransGen_le_of_le (r := Steady) (fun _ _ hx => LogChange.steady hx) n m h

variable (n : Node)

theorem Node.steady_stepPing (e : Event) (become : Node → Nat → Nat → Node)
    (h : n.cfg.leader ≠ noneId) : Steady n (n.stepPing e become) := by
  unfold stepPing
  dsimp only
  rw [if_neg h]
  refine trans ?_ (calms_hearPing _ e).log.steady
  exact .of_ballot rfl rfl rfl rfl rfl rfl rfl

theorem Node.steady_readyStore {n m : Node} (h : n.readyStore = some m) : Steady n m := by
  obtain ⟨-, rfl⟩ | ⟨batch, -, -, -, -, rfl⟩ := readyStore_cases h
  · exact (Quiet.refl m).steady
  · refine Steady.of_emit (.of_ballot rfl rfl rfl rfl rfl rfl rfl) ?_
    constructor <;> simp [storeReqOf, Group.isPeerMessage]

theorem Node.steady_readyApply : Steady n n.readyApply := by
  obtain h | ⟨-, h⟩ := n.readyApply_cases
  · rw [h]
    exact (Quiet.refl n).steady
  · rw [h]
    refine Steady.of_emit (n.steady_queue _) ?_
    constructor <;> simp [Group.isPeerMessage]

end WuKongIM.Raft

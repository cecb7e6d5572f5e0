import WuKongIM.Raft.ApplyFlight
import WuKongIM.Raft.Commit
import WuKongIM.Raft.Roles

/-! What never goes back on a node: its term, the version of its configuration, and the indexes up
to which its log is committed and applied. -/
namespace WuKongIM.Raft
open Lib Relation List Option

structure Climbs (n m : Node) : Prop where
  term : n.cfg.term ≤ m.cfg.term
  version : n.cfg.version ≤ m.cfg.version
  committed : n.queue.committedIndex ≤ m.queue.committedIndex

namespace Climbs
variable {n m k : Node}

theorem refl (n : Node) : Climbs n n := ⟨le_refl _, le_refl _, le_refl _⟩

theorem trans (h : Climbs n m) (h' : Climbs m k) : Climbs n k :=
  ⟨h.term.trans h'.term, h.version.trans h'.version, h.committed.trans h'.committed⟩

theorem of_cfg (hc : m.cfg = n.cfg) (hq : n.queue.committedIndex ≤ m.queue.committedIndex) : Climbs n m :=
  ⟨by rw [hc], by rw [hc], hq⟩

theorem of_core (h : m.toNodeCore = n.toNodeCore) : Climbs n m := of_cfg (by rw [h]) (by rw [h])

instance : Std.Refl Climbs := ⟨refl⟩

instance : IsTrans Node Climbs := ⟨fun _ _ _ => trans⟩

end Climbs

variable {P : Event → Prop} {n m : Node}

theorem Calm.climbs (h : Calm P n m) : Climbs n m := by
  cases h with
  | note h => exact .of_core h.quiet.core
  | fetch => exact .of_core rfl
  | commit i h => exact .of_cfg rfl (le_of_lt h)

theorem LogChange.climbs (h : LogChange n m) : Climbs n m := by
  cases h with
  | calm h => exact h.climbs
  | queue q h => exact .of_cfg rfl (le_of_eq h.committedIndex.symm)
  | truncating | order => exact .of_cfg rfl (le_refl _)

theorem RoleMove.climbs (h : RoleMove True n m) : Climbs n m := by
  cases h with
  | calm h => exact h.climbs
  | become _ hq _ _ _ _ hterm hv => exact ⟨hterm trivial, hv, by rw [hq]⟩
  | vote _ _ _ hc _ hq => exact .of_cfg hc (by rw [hq])

theorem Changes.climbs (h : Changes True n m) : Climbs n m := by
  refine reflTransGen_le_of_le (fun _ _ hx => ?_) n m h
  cases hx with
  | log h | role h => exact h.climbs

variable {n m : Node} {e : Event} {err : Option RaftError}

theorem Node.applied_step (he : e.type = .applyResp) (h : n.step e = some (m, err)) :
    Climbs n m ∧ n.queue.appliedIndex ≤ m.queue.appliedIndex ∧
      (m.queue.appliedIndex = n.queue.appliedIndex ∨ e.reason = .ok ∧ m.queue.appliedIndex = e.index) ∧
      m.events = n.events := by
  obtain ⟨-, rfl⟩ | ⟨-, k, hk, rfl⟩ := step_cases h
  · have hr : n.rejectLowerTerm e = n := by
      unfold rejectLowerTerm
      rw [he]
      split <;> rfl
    rw [hr]
    exact ⟨.of_core rfl, le_refl _, .inl rfl, rfl⟩
  · have hclimbs : Climbs n (n.enterTerm e) := (n.role_enterTerm e).change.climbs
    obtain ⟨-, -, hqueue, hevents, -⟩ := n.enterTerm_frame e
    rw [← hqueue, ← hevents]
    unfold stepEvent at hk
    rw [he] at hk
    dsimp only at hk
    split at hk
    · rename_i hok
      cases hk
      rw [Queue.appliedTo_eq]
      refine ⟨hclimbs.trans (.of_cfg rfl (le_refl _)), Nat.le_max_left _ _, ?_, rfl⟩
      exact (max_choice _ _).imp id fun hmax => ⟨hok, hmax⟩
    · cases hk
      exact ⟨hclimbs.trans (.of_cfg rfl (le_refl _)), le_refl _, .inl rfl, rfl⟩

/-- A node with the requests to apply logs that `Ready` has handed over. -/
structure Served where
  node : Node
  applies : List Event := []

namespace Served
variable {s t : Served}

def step (s : Served) : Node.Action → Option Served
  | .step e => (s.node.step e).map fun r => { s with node := r.1 }
  | .tick => s.node.tick.map fun n => { s with node := n }
  | .ready => s.node.ready.map fun r => ⟨r.1, s.applies ++ r.2.filter (·.type == .applyReq)⟩

/-- The events that nodes and drivers produce: only local events have no term, and an application
that succeeded answers a request that reaches further. The term does not wrap around. -/
def Produced (s : Served) : Node.Action → Prop
  | .step e => (e.term = 0 → Group.isLocalEvent e.type = true ∨ e.type = .confChange ∨ e.type = .campaign) ∧
      (e.type = .applyResp → e.reason = .ok → ∃ req ∈ s.applies, e.index < req.endIndex) ∧
      (e.type = .campaign → (s.node.enterTerm e).cfg.term < maxUint32)
  | .tick => s.node.cfg.term < maxUint32
  | .ready => True

instance (s : Served) (a : Node.Action) : Decidable (s.Produced a) :=
  match a with
  | .step e => inferInstanceAs (Decidable ((e.term = 0 → _ ∨ _ ∨ _) ∧
      (_ → _ → ∃ req ∈ s.applies, e.index < req.endIndex) ∧ (_ → _ < maxUint32)))
  | .tick => Nat.decLt _ _
  | .ready => isTrue trivial

abbrev Reached : Served → Prop :=
  Reach (fun s => ∃ start state opts n, newNode start state opts = some n ∧ s = { node := n }) step Produced

structure Grows (s t : Served) : Prop where
  climbs : Climbs s.node t.node
  applied : s.node.queue.appliedIndex ≤ t.node.queue.appliedIndex

/-- No request reaches beyond what is committed. -/
structure ApplySound (s : Served) : Prop where
  term : 1 ≤ s.node.cfg.term
  applied : s.node.queue.appliedIndex ≤ s.node.queue.committedIndex
  quiet : ∀ e ∈ s.node.events, e.type ≠ .applyReq
  applies : ∀ req ∈ s.applies, req.endIndex ≤ s.node.queue.committedIndex + 1

private theorem keeps {m : Node} (h : s.ApplySound) (hc : Climbs s.node m)
    (ha : m.queue.appliedIndex ≤ max s.node.queue.appliedIndex s.node.queue.committedIndex)
    (hq : ∀ e ∈ m.events, e.type ≠ .applyReq) : { s with node := m }.ApplySound := by
  have h1 := h.applied
  have h2 := hc.committed
  refine ⟨h.term.trans hc.term, by dsimp only; omega, hq, fun req hr => ?_⟩
  have := h.applies req hr
  dsimp only
  omega

private theorem quiet_of_flagMove {n m : Node} (hf : FlagMove n m)
    (h : ∀ e ∈ n.events, e.type ≠ .applyReq) : ∀ e ∈ m.events, e.type ≠ .applyReq := by
  obtain ⟨new, he, hn⟩ := hf.sent
  intro e hm
  rw [he] at hm
  exact (mem_append.mp hm).elim (h e) (hn e)

theorem ApplySound.step {a : Node.Action} (h : s.ApplySound) (hp : s.Produced a)
    (hst : s.step a = some t) : t.ApplySound ∧ s.Grows t := by
  cases a with
  | step e =>
    obtain ⟨⟨m, err⟩, hm, rfl⟩ := map_eq_some_iff.mp hst
    dsimp only
    by_cases ht : e.type = .applyResp
    · obtain ⟨hc, hle, hidx, hev⟩ := Node.applied_step ht hm
      refine ⟨keeps h hc ?_ (hev.symm ▸ h.quiet), hc, hle⟩
      rcases hidx with hidx | ⟨hok, hidx⟩
      · omega
      · obtain ⟨req, hr, hlt⟩ := hp.2.1 ht hok
        have := h.applies req hr
        omega
    · have hchanges : Changes True s.node m := by
        refine Node.changes_step ht (fun _ hty h0 => ?_) (fun _ => hp.2.2) hm
        have hlocal := hp.1 h0
        rcases hty with hty | hty <;> rw [hty] at hlocal <;> simp [Group.isLocalEvent] at hlocal
      have hc := hchanges.climbs
      have hf := hchanges.flagMove
      have hi := hf.appliedIndex
      exact ⟨keeps h hc (by omega) (quiet_of_flagMove hf h.quiet), hc, le_of_eq hi.symm⟩
  | tick =>
    obtain ⟨m, hm, rfl⟩ := map_eq_some_iff.mp hst
    have hc := (Node.role_tick (fun _ => hp) hm).change.climbs
    have hf := Node.tick_flagMove hm
    have hi := hf.appliedIndex
    exact ⟨keeps h hc (by omega) (quiet_of_flagMove hf h.quiet), hc, le_of_eq hi.symm⟩
  | ready =>
    obtain ⟨⟨m, events⟩, hm, rfl⟩ := map_eq_some_iff.mp hst
    obtain ⟨hev, hi, hcom, -, hcfg, hasks⟩ := Node.ready_applies hm h.quiet
    have hc : Climbs s.node m := .of_cfg hcfg (le_of_eq hcom.symm)
    refine ⟨⟨h.term.trans hc.term, ?_, ?_, fun req hr => ?_⟩, hc, le_of_eq hi.symm⟩
    · have := h.applied
      dsimp only
      omega
    · rw [hev]
      exact forall_mem_nil _
    · rw [hcom]
      rcases mem_append.mp hr with hr | hr
      · exact h.applies req hr
      obtain ⟨hmem, hty⟩ := mem_filter.mp hr
      have hty : req.type = .applyReq := beq_iff_eq.mp hty
      obtain ⟨-, hno⟩ | ⟨-, -, sent, q, rfl, hno, -, hend⟩ := hasks
      · exact absurd hty (hno req hmem)
      · rcases mem_append.mp hmem with hmem | hmem
        · exact absurd hty (hno req hmem)
        · rw [mem_singleton.mp hmem, hend]

theorem start_applySound {start : Nat} {state : RaftState} {opts : Options} {n : Node}
    (h : newNode start state opts = some n) : ({ node := n } : Served).ApplySound := by
  obtain ⟨hq, -, -, he, -, hterm⟩ := newNode_eq_some h
  refine ⟨hterm, by rw [hq]; exact le_refl _, ?_, forall_mem_nil _⟩
  rw [he]
  exact forall_mem_nil _

/-- In every run the term is at least one, no more is applied than committed, and from every state
on nothing goes back. -/
theorem node_monotone (h : Reached s) :
    1 ≤ s.node.cfg.term ∧ s.node.queue.appliedIndex ≤ s.node.queue.committedIndex ∧
      ∀ t, Reach (· = s) step Produced t → s.Grows t := by
  have hs : s.ApplySound := by
    refine h.invariant ApplySound ?_ fun _ _ _ h hp hst => (h.step hp hst).1
    rintro _ ⟨start, state, opts, n, hn, rfl⟩
    exact start_applySound hn
  refine ⟨hs.term, hs.applied, fun t ht => ?_⟩
  have hboth : t.ApplySound ∧ s.Grows t := by
    refine ht.invariant (fun t => t.ApplySound ∧ s.Grows t) ?_ ?_
    · rintro _ rfl
      exact ⟨hs, .refl _, le_refl _⟩
    · intro u a v hu hp hst
      obtain ⟨hv, hg⟩ := hu.1.step hp hst
      exact ⟨hv, hu.2.climbs.trans hg.climbs, hu.2.applied.trans hg.applied⟩
  exact hboth.2

private def soloRun : List Node.Action :=
  [.step { type := .propose, logs := [⟨7, 1, 1, [1]⟩] }, .ready, .step { type := .storeResp, reason := .ok, index := 1 },
    .ready, .step { type := .applyResp, reason := .ok, index := 1 }]

/-- A node alone in its group commits a proposal and has it applied. -/
theorem node_monotone_applied : ∃ s : Served, s.node.queue.appliedIndex = 1 ∧ 1 ≤ s.node.cfg.term ∧
    s.node.queue.appliedIndex ≤ s.node.queue.committedIndex ∧ ∀ t, Reach (· = s) step Produced t → s.Grows t := by
  obtain ⟨n, hn⟩ : ∃ n, newNode 0 ⟨0, 0, 0⟩ { nodeId := 1, replicas := [1] } = some n := ⟨_, rfl⟩
  have hr : Reached { node := n } := .init ⟨_, _, _, n, hn, rfl⟩
  obtain ⟨s, hs, hp⟩ := hr.exists_of_run soloRun (fun s => s.node.queue.appliedIndex = 1) (by cases hn; decide +kernel)
  exact ⟨s, hp, node_monotone hs⟩

end Served
end WuKongIM.Raft

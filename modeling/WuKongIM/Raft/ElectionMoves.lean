import WuKongIM.Raft.Ballot

/-! Every step of the group is a sequence of moves of the election, as long as no node that
has heard of a leader of its term still votes in that term. -/
namespace WuKongIM.Raft
open Lib Relation List Option

theorem Node.steady_sendVoteReq (n : Node) (target : Nat) : Steady n (n.sendVoteReq target) := by
  refine (Quiet.refl n).steady.of_emit ?_
  constructor <;> simp [Group.isPeerMessage]

theorem Node.steady_requestVotes (l : List Nat) (n : Node) : Steady n (l.foldl (fun m nodeId =>
      if nodeId = m.opts.nodeId then m.sendVoteReq localNode else m.sendVoteReq nodeId) n) := by
  induction l generalizing n with
  | nil => exact (Quiet.refl n).steady
  | cons a l ih =>
    refine Steady.trans ?_ (ih _)
    dsimp only
    split
    all_goals exact n.steady_sendVoteReq _

theorem Node.steady_refuse (n : Node) (e : Event) : Steady n (n.sendVoteResp e.fromNode .error) := by
  refine (Quiet.refl n).steady.of_emit ?_
  constructor <;> simp

namespace Group

/-- The group may take the shape `g'` in an election that has moved on from `s`. -/
def Moves (g : Group) (s : Election.State Nat) (g' : Group) : Prop :=
  ∃ t, ReflTransGen (Election.Move g.replicas) s t ∧ g'.Tracks t

/-- What reaches a node: a message of the group, or an event of its own driver. -/
structure Arrives (replicas : List Nat) (s : Election.State Nat) (i : Nat) (e : Event) : Prop where
  honest : Honest replicas s e
  kind : isPeerMessage e.type = true ∧ addressedTo i e = true ∨
    (isLocalEvent e.type = true ∨ e.type = .campaign) ∧ e.term = 0

namespace Tracks
variable {g : Group} {s : Election.State Nat} {i : Nat} {m : Node} {e : Event}

private theorem then_steady {n : Node} (h : g.Moves s (g.set i n)) (hi : i ∈ g.replicas)
    (hs : Steady n m) : g.Moves s (g.set i m) := by
  obtain ⟨t, hm, ht⟩ := h
  refine ⟨t, hm, ?_⟩
  rw [← g.set_set i n]
  refine ht.steady hi ?_
  rw [g.set_nodes]
  exact hs

private theorem of_steady (h : g.Tracks s) (hi : i ∈ g.replicas) (hs : Steady (g.nodes i) m) :
    g.Moves s (g.set i m) := ⟨s, .refl, h.steady hi hs⟩

private theorem of_move {t : Election.State Nat} {g' : Group} (hm : Election.Move g.replicas s t)
    (h : g'.Tracks t) : g.Moves s g' := ⟨t, .single hm, h⟩

variable (h : g.Tracks s) (hi : i ∈ g.replicas) {err : Option RaftError}
include h hi

theorem campaign (hroom : (g.nodes i).cfg.term < maxUint32) (hc : (g.nodes i).campaign = some m) :
    g.Moves s (g.set i m) := by
  have hv := h.voter i hi
  unfold Node.campaign at hc
  split at hc
  · rename_i hl
    rw [hv.nodeId, hv.leads] at hl
    cases hc
    obtain ⟨t, hm, ht⟩ := h.follow hi (g.nodes i).cfg.term 0
      (fun hx => (h.ids i hi).1 hx.symm) (.inr ⟨rfl, .inl (by rw [hl]; exact nofun)⟩)
    exact of_move hm ht
  · obtain ⟨k, hk, rfl⟩ := map_eq_some_iff.mp hc
    obtain ⟨t, hm, ht⟩ := h.stand hi hroom hk
    exact then_steady (of_move hm ht) hi (Node.steady_requestVotes _ k)

section
variable (he : Honest g.replicas s e)
include he

theorem stepVoteReq (ht : e.type = .voteReq) (hT : e.term = (g.nodes i).cfg.term)
    (hok : (g.nodes i).canVote e → (g.nodes i).cfg.leader = noneId) : g.Moves s (g.set i ((g.nodes i).stepVoteReq e)) := by
  have hv := h.voter i hi
  by_cases hc : (g.nodes i).canVote e
  · obtain ⟨t, hm, htr⟩ := h.grant hi he ht hT hc (hok hc)
    exact of_move hm htr
  · rw [Node.stepVoteReq, if_pos hv.not_learner, if_neg hc]
    exact h.of_steady hi (Node.steady_refuse _ e)

theorem stepPing (ht : e.type = .ping) (ha : addressedTo i e) (hT : e.term = (g.nodes i).cfg.term) :
    g.Moves s (g.set i ((g.nodes i).stepPing e Node.becomeFollower)) := by
  by_cases hl : (g.nodes i).cfg.leader = noneId
  · obtain ⟨hto, hne⟩ := he.ping ht
    have hfrom := (he.peer (by rw [ht]; rfl)).1
    have hfi : e.fromNode ≠ i := by
      simp only [addressedTo, Bool.or_eq_true, Bool.and_eq_true, beq_iff_eq] at ha
      rcases ha with ha | ⟨ha, -⟩
      · exact fun hx => hne (ha.trans hx.symm)
      · exact absurd ha (h.ids _ hto).2.2
    have h1 := h.steady hi (.of_ballot rfl rfl rfl rfl rfl rfl rfl)
    obtain ⟨t, hm, htr⟩ := h1.follow hi e.term e.fromNode hfi
      (.inr ⟨by rw [set_nodes]; exact hT.symm, .inr (h.ids _ hfrom).1⟩)
    rw [set_set, set_nodes] at htr
    refine then_steady (of_move hm htr) hi ?_
    unfold Node.stepPing
    dsimp only
    rw [if_pos hl]
    exact (Node.calms_hearPing _ e).log.steady
  · exact h.of_steady hi (Node.steady_stepPing _ e _ hl)

theorem poll (ht : e.type = .voteResp)
    (hr : (g.nodes i).cfg.role = .candidate) (ha : addressedTo i e)
    (hT : e.term = (g.nodes i).cfg.term) : g.Moves s (g.set i ((g.nodes i).poll e)) := by
  have h1 := h.tally hi he ht hT ha
  have hn := g.set_nodes i { g.nodes i with votes := (g.nodes i).votes.insert e.fromNode (e.reason == .ok) }
  unfold Node.poll
  dsimp only
  split
  · exact ⟨s, .refl, h1⟩
  split
  · rename_i hq
    obtain ⟨t, hm, htr⟩ := h1.win hi (by rw [hn]; exact hr) (by rw [hn]; exact hq)
    rw [hn, set_set] at htr
    refine then_steady (of_move hm htr) hi (Node.notes_sendPing _ allId (.inl rfl)).quiet.steady
  · obtain ⟨t, hm, htr⟩ := h1.follow hi (g.nodes i).cfg.term noneId
      (fun hx => (h.ids i hi).1 hx.symm)
      (.inr ⟨by rw [hn], .inl (by rw [hn]; exact fun hx => nomatch hr.symm.trans hx)⟩)
    rw [hn, set_set] at htr
    exact of_move hm htr

end

theorem stepEvent (ha : Arrives g.replicas s i e)
    (hT : isPeerMessage e.type → e.term = (g.nodes i).cfg.term)
    (hok : e.type = .voteReq → (g.nodes i).canVote e → (g.nodes i).cfg.leader = noneId)
    (hroom : e.type = .campaign → (g.nodes i).cfg.term < maxUint32)
    (hs : (g.nodes i).stepEvent e = some (m, err)) : g.Moves s (g.set i m) := by
  have hv := h.voter i hi
  have haddr : isPeerMessage e.type → addressedTo i e := by
    intro hp
    rcases ha.kind with hk | ⟨hk | hk, -⟩
    · exact hk.2
    · cases he : e.type <;> simp [he, isPeerMessage, isLocalEvent] at hp hk
    · rw [hk] at hp
      cases hp
  unfold Node.stepEvent at hs
  split at hs
  · rename_i ht
    rcases ha.kind with hk | ⟨hk | hk, -⟩ <;> simp [ht, isPeerMessage, isLocalEvent] at hk
  · rename_i ht
    obtain ⟨k, hk, hx⟩ := map_eq_some_iff.mp hs
    cases hx
    exact h.campaign hi (hroom ht) hk
  · rename_i ht
    cases hs
    exact h.stepVoteReq hi ha.honest ht (hT (by rw [ht]; rfl)) (hok ht)
  · split at hs
    · cases hs
      exact h.of_steady hi (Node.steady_queue _ _)
    · cases hs
      exact h.of_steady hi (Node.steady_queue _ _)
  · rw [hv.stepFunc] at hs
    rcases hv.role with hk | hk | hk <;> rw [hk] at hs <;> dsimp only at hs
    · by_cases hp : e.type = .ping
      · have hpeer : isPeerMessage e.type := by rw [hp]; rfl
        rw [Node.stepFollower, hp] at hs
        cases hs
        exact h.stepPing hi ha.honest hp (haddr hpeer) (hT hpeer)
      · refine h.of_steady hi (Node.stepFollower_logStep hp (by simp [Node.synchronises, hv.stepFunc, hk]) ?_ hs).log.steady
        intro hc
        rcases ha.kind with hk | ⟨hk | hk, -⟩ <;> simp [hc, isPeerMessage, isLocalEvent] at hk
    · unfold Node.stepCandidate at hs
      split at hs
      · cases hs
        exact h.of_steady hi (Quiet.refl _).steady
      · rename_i hp
        have hpeer : isPeerMessage e.type := by rw [hp]; rfl
        cases hs
        exact h.poll hi ha.honest hp hk (haddr hpeer) (hT hpeer)
      · cases hs
        exact h.of_steady hi (Quiet.refl _).steady
    · exact h.of_steady hi (Node.stepLeader_logStep (hv.stepFunc.trans (by rw [hk])) hs).log.steady

theorem step (ha : Arrives g.replicas s i e)
    (hok : e.type = .voteReq → e.term = (g.nodes i).cfg.term → (g.nodes i).canVote e → (g.nodes i).cfg.leader = noneId)
    (hroom : e.type = .campaign → (g.nodes i).cfg.term < maxUint32)
    (hs : (g.nodes i).step e = some (m, err)) : g.Moves s (g.set i m) := by
  have hv := h.voter i hi
  obtain ⟨-, rfl⟩ | ⟨hlow, k, hk, rfl⟩ := Node.step_cases hs
  · exact h.of_steady hi (Node.notes_rejected _ e).quiet.steady
  refine then_steady ?_ hi (Node.quiet_publish k).steady
  unfold Node.enterTerm at hk
  split at hk
  · rename_i hgt
    have hpeer : isPeerMessage e.type := by
      rcases ha.kind with hp | ⟨-, hp⟩
      · exact hp.1
      · omega
    obtain ⟨hfrom, -, hle⟩ := ha.honest.peer hpeer
    have hfi : e.fromNode ≠ i := by
      rintro rfl
      rw [h.ballot _ hi] at hle
      exact absurd hle (not_le.mpr hgt)
    rw [Node.adoptHigherTerm, if_neg hv.not_learner] at hk
    obtain ⟨t, hm, ht⟩ := h.follow hi e.term
      (if e.type = .ping ∨ e.type = .syncResp ∨ e.type = .notifySync then e.fromNode else noneId)
      (by split; exacts [hfi, fun hx => (h.ids i hi).1 hx.symm]) (.inl hgt)
    obtain ⟨u, hu, hut⟩ := ht.stepEvent hi ⟨ha.honest.grow (.of_move hm), ha.kind⟩
      (fun _ => by rw [set_nodes]; rfl) (by
        intro hvr _
        rw [set_nodes]
        change (if e.type = .ping ∨ e.type = .syncResp ∨ e.type = .notifySync then e.fromNode else noneId) = noneId
        rw [if_neg (by simp [hvr])])
      (fun hc => by rw [hc] at hpeer; cases hpeer) (by rw [set_nodes]; exact hk)
    rw [set_set] at hut
    exact ⟨u, .head hm hu, hut⟩
  · have hT : isPeerMessage e.type → e.term = (g.nodes i).cfg.term := by
      intro hp
      have h1 := (ha.honest.peer hp).2.1
      omega
    exact h.stepEvent hi ha hT (fun hvr => hok hvr (hT (by rw [hvr]; rfl))) hroom hk

theorem tick (hroom : (g.nodes i).cfg.term < maxUint32) (hc : (g.nodes i).tick = some m) :
    g.Moves s (g.set i m) := by
  obtain ⟨k, ⟨j, hj, hk⟩, rfl⟩ := Node.tick_cases hc
  have h1 := h.steady hi hj.quiet.steady
  refine then_steady ?_ hi (Node.quiet_publish k).steady
  rcases hk with rfl | hk
  · exact ⟨s, .refl, h1⟩
  · have hcfg : j.cfg = (g.nodes i).cfg := congrArg NodeCore.cfg hj.quiet.core
    have h2 := h1.campaign hi (by rwa [set_nodes, hcfg]) (by rw [set_nodes]; exact hk)
    rwa [set_set] at h2

private theorem flush : ({ g.set i { g.nodes i with events := [] }.publishReadState with
      net := g.net ++ (g.nodes i).events } : Group).Tracks s := by
  have hcleared := h.update hi (m := { g.nodes i with events := [] }.publishReadState) [] { h.voter i hi with }
    (nil_subset _) (.refl s) (h.ballot i hi) (fun _ _ => rfl) h.granting (forall_mem_nil _) (h.counted i hi)
  refine { hcleared with sent := ?_ }
  rintro e (hnet | hnode)
  · rcases mem_append.mp hnet with hold | hnew
    · exact h.sent e (.inl hold)
    · exact h.sent e (.inr ⟨i, hi, hnew⟩)
  · exact hcleared.sent e (.inr hnode)

theorem ready {sent : List Event} (hc : (g.nodes i).ready = some (m, sent)) :
    { g.set i m with net := g.net ++ sent }.Tracks s := by
  obtain ⟨k, hk, hx⟩ := map_eq_some_iff.mp hc
  cases hx
  have h1 := h.steady hi ((Node.steady_readyStore hk).trans k.steady_readyApply)
  have h2 := h1.flush hi
  rw [set_nodes, set_set] at h2
  exact h2

end Tracks

/-- The step makes no node that has heard of a leader of its term vote in that term, and no node
runs out of terms. -/
def keepsVote (g : Group) : Action → Bool
  | .tick i | .campaign i => (g.nodes i).cfg.term < maxUint32
  | .deliver i k =>
    match g.net[k]? with
    | none => true
    | some e =>
      !(e.type == .voteReq && e.term == (g.nodes i).cfg.term && (g.nodes i).canVote e &&
        (g.nodes i).cfg.leader != noneId)
  | _ => true

theorem Tracks.stepNode {g g' : Group} {s : Election.State Nat} {a : Action} (h : g.Tracks s)
    (hi : a.node ∈ g.replicas) (hok : g.keepsVote a) (hs : g.stepNode a = some g') :
    g'.replicas = g.replicas ∧ g.Moves s g' := by
  cases a with
  | tick i =>
    obtain ⟨m, hm, rfl⟩ := map_eq_some_iff.mp hs
    exact ⟨rfl, h.tick hi (of_decide_eq_true hok) hm⟩
  | campaign i =>
    obtain ⟨⟨m, err⟩, hm, rfl⟩ := map_eq_some_iff.mp hs
    refine ⟨rfl, h.step hi (e := { type := .campaign }) ⟨⟨?_, ?_, ?_⟩, .inr ⟨.inr rfl, rfl⟩⟩ nofun
      (fun _ => of_decide_eq_true hok) hm⟩
    all_goals exact nofun
  | ready i =>
    obtain ⟨⟨m, sent⟩, hm, rfl⟩ := map_eq_some_iff.mp hs
    exact ⟨rfl, s, .refl, h.ready hi hm⟩
  | deliver i k =>
    cases hk : g.net[k]? with
    | none => simp [Group.stepNode, hk] at hs
    | some e =>
      simp only [Group.stepNode, hk] at hs
      split at hs
      · rename_i ha
        rw [Bool.and_eq_true] at ha
        obtain ⟨⟨m, err⟩, hm, rfl⟩ := map_eq_some_iff.mp hs
        refine ⟨rfl, h.step hi ⟨h.sent e (.inl (mem_of_getElem? hk)), .inl ha⟩ ?_ ?_ hm⟩
        · intro hv hT hc
          simpa [keepsVote, hk, hv, hT, hc] using hok
        · intro hc
          rw [hc] at ha
          cases ha.1
      · cases hs
  | stepLocal i e =>
    simp only [Group.stepNode] at hs
    split at hs
    · rename_i ha
      simp only [Bool.and_eq_true, beq_iff_eq] at ha
      obtain ⟨⟨m, err⟩, hm, rfl⟩ := map_eq_some_iff.mp hs
      have hl := ha.1
      refine ⟨rfl, h.step hi ⟨⟨?_, ?_, ?_⟩, .inr ⟨.inl ha.1, ha.2⟩⟩ ?_ ?_ hm⟩
      · intro hp
        cases he : e.type <;> simp [he, isPeerMessage, isLocalEvent] at hp hl
      all_goals
        intro hp
        simp [hp, isLocalEvent] at hl
    · cases hs

end Group
end WuKongIM.Raft

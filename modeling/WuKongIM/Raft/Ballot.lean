import WuKongIM.Lib.Election
import WuKongIM.Raft.Steady

/-! The group of nodes as an election by majority: the ballot of a node, what the messages
say about the votes granted, and the moves that role changes and votes stand for. -/
namespace WuKongIM.Raft
open Lib List Function

def Node.rank : Role → Election.Rank
  | .leader => .leader
  | .candidate => .candidate
  | _ => .follower

def Node.ballot (n : Node) : Election.Ballot Nat where
  term := n.cfg.term
  rank := rank n.cfg.role
  heard := n.cfg.leader != noneId
  vote := if n.voteFor = noneId then none else some n.voteFor

structure Node.IsVoter (n : Node) (i : Nat) (replicas : List Nat) : Prop where
  nodeId : n.opts.nodeId = i
  replicas : n.cfg.replicas = replicas
  learners : n.cfg.learners = []
  term : 1 ≤ n.cfg.term
  role : n.cfg.role = .follower ∨ n.cfg.role = .candidate ∨ n.cfg.role = .leader
  stepFunc : n.stepFunc = n.cfg.role
  tickFnc : n.tickFnc = n.cfg.role
  leads : n.cfg.leader = i ↔ n.cfg.role = .leader

theorem Node.IsVoter.not_learner {n : Node} {i : Nat} {replicas : List Nat}
    (h : n.IsVoter i replicas) : n.cfg.role ≠ .learner := by
  rcases h.role with hk | hk | hk <;> rw [hk] <;> exact nofun

def IsNodeId (i : Nat) : Prop := i ≠ noneId ∧ i ≠ allId ∧ i ≠ localNode
  deriving Decidable

/-- What a message that a node of the group sent says about the election. -/
structure Honest (replicas : List Nat) (s : Election.State Nat) (e : Event) : Prop where
  peer : Group.isPeerMessage e.type = true →
    e.fromNode ∈ replicas ∧ 1 ≤ e.term ∧ e.term ≤ (s.ballot e.fromNode).term
  ping : e.type = .ping → e.toNode ∈ replicas ∧ e.toNode ≠ e.fromNode
  grant : e.type = .voteResp → e.reason = .ok →
    ∃ c ∈ replicas, e.toNode = (if c = e.fromNode then localNode else c) ∧ s.granted e.fromNode c e.term

namespace Group

variable (g : Group)

def Sent (e : Event) : Prop := e ∈ g.net ∨ ∃ i ∈ g.replicas, e ∈ (g.nodes i).events

/-- The group is in the election's state `s`. -/
structure Tracks (g : Group) (s : Election.State Nat) : Prop where
  ids : ∀ r ∈ g.replicas, IsNodeId r
  voter : ∀ i ∈ g.replicas, (g.nodes i).IsVoter i g.replicas
  ballot : ∀ i ∈ g.replicas, s.ballot i = (g.nodes i).ballot
  granting : ∀ v c T, s.granted v c T → v ∈ g.replicas
  sent : ∀ e, g.Sent e → Honest g.replicas s e
  counted : ∀ i ∈ g.replicas, (g.nodes i).cfg.role = .candidate →
    ∀ u, (g.nodes i).votes.lookup u = some true → s.granted u i (g.nodes i).cfg.term

theorem set_set (i : Nat) (n m : Node) : (g.set i n).set i m = g.set i m := by
  simp [set]

theorem set_nodes (i : Nat) (n : Node) : (g.set i n).nodes i = n := update_self ..

theorem set_nodes_of_ne {i j : Nat} (n : Node) (h : j ≠ i) : (g.set i n).nodes j = g.nodes j :=
  update_of_ne h ..

end Group

structure Grows (s t : Election.State Nat) : Prop where
  term : ∀ j, (s.ballot j).term ≤ (t.ballot j).term
  granted : ∀ v c T, s.granted v c T → t.granted v c T

variable {s t : Election.State Nat} {e : Event} {replicas : List Nat}

theorem Honest.grow (h : Honest replicas s e)
    (hg : Grows s t) : Honest replicas t e := by
  refine ⟨?_, h.ping, ?_⟩
  · intro hp
    obtain ⟨hf, h1, h2⟩ := h.peer hp
    exact ⟨hf, h1, h2.trans (hg.term _)⟩
  · intro ht hr
    obtain ⟨c, hc, hto, hgr⟩ := h.grant ht hr
    exact ⟨c, hc, hto, hg.granted _ _ _ hgr⟩

theorem Grows.refl (s : Election.State Nat) : Grows s s := ⟨fun _ => le_rfl, fun _ _ _ h => h⟩

theorem Grows.put {s : Election.State Nat} {i : Nat} {b : Election.Ballot Nat}
    (h : (s.ballot i).term ≤ b.term) : Grows s (s.put i b) := by
  refine ⟨?_, fun _ _ _ hg => hg⟩
  intro j
  by_cases hj : j = i
  · rw [hj, s.put_self]
    exact h
  · rw [s.put_of_ne b hj]

theorem Grows.grant (s : Election.State Nat) (i c : Nat) : Grows s (s.grant i c) := by
  refine ⟨?_, fun _ _ _ hg => .inl hg⟩
  intro j
  by_cases hj : j = i
  · rw [hj, s.grant_self]
  · rw [s.grant_of_ne c hj]

theorem Grows.of_move (h : Election.Move replicas s t) : Grows s t := by
  cases h with
  | follow i T heard hT =>
    refine .put ?_
    dsimp only
    rcases hT with hT | ⟨hT, -⟩ <;> omega
  | stand i => exact .put (Nat.le_succ _)
  | grant i c hh hv hc => exact .grant ..
  | win i q hr hq hg => exact .put le_rfl

namespace Group.Tracks
variable {g : Group} {s t : Election.State Nat} {i : Nat} {m : Node}

section
variable (h : g.Tracks s) (hi : i ∈ g.replicas)
include h hi

theorem update (new : List Event) (hm : m.IsVoter i g.replicas)
    (he : m.events ⊆ (g.nodes i).events ++ new) (hg : Grows s t) (hb : t.ballot i = m.ballot)
    (ho : ∀ j, j ≠ i → t.ballot j = s.ballot j) (hv : ∀ v c T, t.granted v c T → v ∈ g.replicas)
    (hn : ∀ e ∈ new, Honest g.replicas t e)
    (hc : m.cfg.role = .candidate → ∀ u, m.votes.lookup u = some true → t.granted u i m.cfg.term) : (g.set i m).Tracks t := by
  refine ⟨h.ids, ?_, ?_, hv, ?_, ?_⟩
  · intro j hj
    by_cases hji : j = i
    · rw [hji, set_nodes]
      exact hm
    · rw [g.set_nodes_of_ne m hji]
      exact h.voter j hj
  · intro j hj
    by_cases hji : j = i
    · rw [hji, set_nodes]
      exact hb
    · rw [ho j hji, g.set_nodes_of_ne m hji]
      exact h.ballot j hj
  · rintro e (hnet | ⟨j, hj, hje⟩)
    · exact (h.sent e (.inl hnet)).grow hg
    by_cases hji : j = i
    · rw [hji, set_nodes] at hje
      rcases mem_append.mp (he hje) with hold | hnew
      · exact (h.sent e (.inr ⟨i, hi, hold⟩)).grow hg
      · exact hn e hnew
    · rw [g.set_nodes_of_ne m hji] at hje
      exact (h.sent e (.inr ⟨j, hj, hje⟩)).grow hg
  · intro j hj hr u hu
    by_cases hji : j = i
    · subst hji
      rw [set_nodes] at hr hu ⊢
      exact hc hr u hu
    · rw [g.set_nodes_of_ne m hji] at hr hu ⊢
      exact hg.granted _ _ _ (h.counted j hj hr u hu)

theorem term_eq : (s.ballot i).term = (g.nodes i).cfg.term := by
  rw [h.ballot i hi]
  rfl

theorem steady (hs : Steady (g.nodes i) m) : (g.set i m).Tracks s := by
  have hv := h.voter i hi
  have hb := h.ballot i hi
  obtain ⟨new, he, hn⟩ := hs.sent
  have hterm := h.term_eq hi
  refine h.update hi new ?_ (he ▸ Subset.refl _) (.refl s) ?_ (fun _ _ => rfl) h.granting ?_ ?_
  · constructor
    · rw [hs.opts]; exact hv.nodeId
    · rw [hs.cfg]; exact hv.replicas
    · rw [hs.cfg]; exact hv.learners
    · rw [hs.cfg]; exact hv.term
    · rw [hs.cfg]; exact hv.role
    · rw [hs.stepFunc, hs.cfg]; exact hv.stepFunc
    · rw [hs.tickFnc, hs.cfg]; exact hv.tickFnc
    · rw [hs.cfg]; exact hv.leads
  · rw [hb, Node.ballot, Node.ballot, hs.cfg, hs.voteFor]
  · intro e hm
    have hl := hn e hm
    refine ⟨?_, ?_, ?_⟩
    · intro hp
      obtain ⟨hf, ht⟩ := hl.peer hp
      rw [hf, ht, hv.nodeId, hterm]
      exact ⟨hi, hv.term, le_rfl⟩
    · intro hp
      obtain ⟨hto, hmem⟩ := hl.ping hp
      rw [hv.replicas, hv.learners, append_nil] at hmem
      rw [(hl.peer (by rw [hp]; rfl)).1]
      exact ⟨hmem, hto⟩
    · intro ht hr
      exact absurd hr (hl.resp ht)
  · rw [hs.cfg, hs.votes]
    exact h.counted i hi

theorem follow (T leaderId : Nat) (hl : leaderId ≠ i) (hT : (g.nodes i).cfg.term < T ∨ (g.nodes i).cfg.term = T ∧
      ((g.nodes i).cfg.role ≠ .follower ∨ leaderId ≠ noneId)) :
    ∃ t, Election.Move g.replicas s t ∧ (g.set i ((g.nodes i).becomeFollower T leaderId)).Tracks t := by
  have hv := h.voter i hi
  have hb := h.ballot i hi
  have hterm := h.term_eq hi
  have hrank : (g.nodes i).cfg.role ≠ .follower → (s.ballot i).rank ≠ .follower := by
    intro hr
    rw [hb]
    rcases hv.role with hk | hk | hk
    · exact absurd hk hr
    all_goals simp [Node.ballot, Node.rank, hk]
  have hle : (s.ballot i).term ≤ T := by
    rcases hT with hT | ⟨hT, _⟩ <;> omega
  refine ⟨_, .follow i T (leaderId != noneId) ?_, ?_⟩
  · rw [hterm]
    rcases hT with hT | ⟨hT, hr | hr⟩
    · exact .inl hT
    · exact .inr ⟨hT, .inl (hrank hr)⟩
    · exact .inr ⟨hT, .inr (by simpa using hr)⟩
  · have hpos := hv.term
    refine h.update hi [] ⟨hv.nodeId, hv.replicas, hv.learners, ?_, .inl rfl, rfl, rfl, ?_⟩
      (subset_append_left ..) (.put hle) ?_ ?_ h.granting (forall_mem_nil _) nofun
    · change 1 ≤ T
      omega
    · exact ⟨fun hx => absurd hx hl, nofun⟩
    · exact s.put_self ..
    · exact fun j hj => s.put_of_ne _ hj

theorem stand (hroom : (g.nodes i).cfg.term < maxUint32) (hm : (g.nodes i).becomeCandidate = some m) :
    ∃ t, Election.Move g.replicas s t ∧ (g.set i m).Tracks t := by
  have hv := h.voter i hi
  have hid := (h.ids i hi).1
  have hterm := h.term_eq hi
  unfold Node.becomeCandidate at hm
  rw [succ32_of_lt hroom] at hm
  split at hm
  · cases hm
  cases hm
  refine ⟨_, .stand i, ?_⟩
  refine h.update hi [] ⟨hv.nodeId, hv.replicas, hv.learners, Nat.le_add_left .., .inr (.inl rfl), rfl, rfl, ?_⟩
    (subset_append_left ..) (.put (Nat.le_succ _)) ?_ ?_ h.granting (forall_mem_nil _) ?_
  · exact ⟨fun hx => absurd hx.symm hid, nofun⟩
  · rw [hterm]
    simpa [Node.ballot, Node.rank, Node.publishReadState, Node.reset,
      Node.resetRandomizedElectionTimeout, hv.nodeId, noneId] using hid
  · exact fun j hj => s.put_of_ne _ hj
  · intro _ u hu
    cases hu

theorem grant (he : Honest g.replicas s e)
    (ht : e.type = .voteReq) (hT : e.term = (g.nodes i).cfg.term) (hc : (g.nodes i).canVote e)
    (hl : (g.nodes i).cfg.leader = noneId) :
    ∃ t, Election.Move g.replicas s t ∧ (g.set i ((g.nodes i).stepVoteReq e)).Tracks t := by
  have hv := h.voter i hi
  have hb := h.ballot i hi
  obtain ⟨hfrom, -, hle⟩ := he.peer (by rw [ht]; rfl)
  have hfid := (h.ids _ hfrom).1
  have hvote : (g.nodes i).voteFor = noneId ∨ (g.nodes i).voteFor = e.fromNode := by
    unfold Node.canVote at hc
    split at hc
    · cases hc
    split at hc
    · cases hc
    split at hc
    · cases hc
    rename_i hx
    by_cases h0 : (g.nodes i).voteFor = noneId
    · exact .inl h0
    · exact .inr (not_not.mp fun hne => hx ⟨h0, hne⟩)
  refine ⟨s.grant i e.fromNode, .grant i e.fromNode ?_ ?_ ?_, ?_⟩
  · rw [hb]
    simp [Node.ballot, hl]
  · rw [hb]
    rcases hvote with h0 | h0
    · exact .inl (by simp [Node.ballot, h0])
    · exact .inr (by simp [Node.ballot, h0, hfid])
  · have : (s.ballot i).term = e.term := by rw [hb, hT]; rfl
    omega
  · rw [Node.stepVoteReq, if_pos hv.not_learner, if_pos hc]
    refine h.update hi
      [{ type := .voteResp, fromNode := (g.nodes i).opts.nodeId,
         toNode := if e.fromNode = (g.nodes i).opts.nodeId then localNode else e.fromNode,
         term := (g.nodes i).cfg.term, reason := .ok, index := (g.nodes i).queue.storedIndex }]
      { hv with } (Subset.refl _) (.grant ..)
      ?_ (fun j hj => s.grant_of_ne _ hj) ?_ ?_ ?_
    · rw [s.grant_self, hb]
      simp [Node.ballot, Node.sendVoteResp, Node.emit, hfid]
    · rintro v c T (hg | ⟨rfl, -, -⟩)
      · exact h.granting v c T hg
      · exact hi
    · intro x hx
      rw [mem_singleton.mp hx]
      have hterm : (g.nodes i).cfg.term = (s.ballot i).term := by rw [hb]; rfl
      refine ⟨?_, nofun, ?_⟩
      · intro _
        rw [hv.nodeId]
        refine ⟨hi, hv.term, ?_⟩
        rw [s.grant_self]
        exact hterm.le
      · intro _ _
        refine ⟨e.fromNode, hfrom, rfl, .inr ⟨hv.nodeId, rfl, hterm⟩⟩
    · intro hk u hu
      exact .inl (h.counted i hi hk u hu)

theorem tally (he : Honest g.replicas s e)
    (ht : e.type = .voteResp) (hT : e.term = (g.nodes i).cfg.term) (ha : addressedTo i e) :
    (g.set i { g.nodes i with votes := (g.nodes i).votes.insert e.fromNode (e.reason == .ok) }).Tracks s := by
  have hv := h.voter i hi
  refine h.update hi [] { hv with }
    (subset_append_left ..) (.refl s) (h.ballot i hi) (fun _ _ => rfl) h.granting
    (forall_mem_nil _) ?_
  intro hk u hu
  by_cases hue : u = e.fromNode
  · subst hue
    have hok : e.reason = .ok := by simpa using hu
    obtain ⟨c, hc, hto, hg⟩ := he.grant ht hok
    have hci : c = i := by
      simp only [addressedTo, Bool.or_eq_true, Bool.and_eq_true, beq_iff_eq] at ha
      by_cases hcf : c = e.fromNode
      · rw [if_pos hcf] at hto
        rcases ha with ha | ⟨_, ha⟩
        · exact absurd (ha.symm.trans hto) (h.ids i hi).2.2
        · exact hcf.trans ha
      · rw [if_neg hcf] at hto
        rcases ha with ha | ⟨ha, _⟩
        · exact hto.symm.trans ha
        · exact absurd (hto.symm.trans ha) (h.ids c hc).2.2
    rw [hci, hT] at hg
    exact hg
  · rw [AList.lookup_insert_ne hue] at hu
    exact h.counted i hi hk u hu

end

private theorem granted_voters (votes : AList fun _ : Nat => Bool) :
    ∃ q : Finset Nat, q.card = votes.entries.countP (·.2) ∧ ∀ u ∈ q, votes.lookup u = some true := by
  have hnd : ((votes.entries.filter (·.2)).map Sigma.fst).Nodup :=
    (filter_sublist.map Sigma.fst).nodup votes.nodupKeys
  refine ⟨((votes.entries.filter (·.2)).map Sigma.fst).toFinset, ?_, ?_⟩
  · rw [toFinset_card_of_nodup hnd, length_map, countP_eq_length_filter]
  intro u hu
  obtain ⟨⟨k, b⟩, hk, rfl⟩ := mem_map.mp (mem_toFinset.mp hu)
  obtain ⟨hin, hb⟩ := mem_filter.mp hk
  exact AList.mem_lookup_iff.mpr (by simpa [show b from hb] using hin)

theorem win (h : g.Tracks s) (hi : i ∈ g.replicas) (hr : (g.nodes i).cfg.role = .candidate)
    (hq : (g.nodes i).quorum ≤ (g.nodes i).votes.entries.countP (·.2)) :
    ∃ t, Election.Move g.replicas s t ∧ (g.set i ((g.nodes i).becomeLeader (g.nodes i).cfg.term)).Tracks t := by
  have hv := h.voter i hi
  have hb := h.ballot i hi
  have hterm := h.term_eq hi
  have hid := (h.ids i hi).1
  obtain ⟨q, hcard, hgr⟩ := granted_voters (g.nodes i).votes
  have hgr' : ∀ u ∈ q, s.granted u i (s.ballot i).term := by
    intro u hu
    rw [hterm]
    exact h.counted i hi hr u (hgr u hu)
  refine ⟨_, .win i q ?_ ⟨fun u hu => h.granting u i _ (hgr' u hu), ?_⟩ hgr', ?_⟩
  · rw [hb]
    simp [Node.ballot, Node.rank, hr]
  · rw [hcard, ← hv.replicas]
    exact hq
  · refine h.update hi [] ⟨hv.nodeId, hv.replicas, hv.learners, hv.term, .inr (.inr rfl), rfl, rfl, ?_⟩
      (subset_append_left ..) (.put le_rfl) ?_ (fun j hj => s.put_of_ne _ hj) h.granting
      (forall_mem_nil _) nofun
    · exact ⟨fun _ => rfl, fun _ => hv.nodeId⟩
    · rw [hterm]
      simpa [Node.ballot, Node.rank, Node.becomeLeader, Node.publishReadState, Node.reset,
        Node.resetRandomizedElectionTimeout, hv.nodeId] using hid

end Group.Tracks
end WuKongIM.Raft

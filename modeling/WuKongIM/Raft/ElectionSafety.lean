import WuKongIM.Raft.ElectionMoves

/-! Election safety. A node that has heard of a leader keeps no vote, so a late request of the
same term can still win it over; without such votes a term has one leader. -/
namespace WuKongIM.Raft
open Lib List Option

structure Node.IsStarted (n : Node) (i : Nat) (replicas : List Nat) (T : Nat) : Prop where
  nodeId : n.opts.nodeId = i
  replicas : n.cfg.replicas = replicas
  learners : n.cfg.learners = []
  term : n.cfg.term = T
  role : n.cfg.role = .follower
  stepFunc : n.stepFunc = .follower
  tickFnc : n.tickFnc = .follower
  leader : n.cfg.leader = noneId
  events : n.events = []

theorem newNode_isStarted {start : Nat} {state : RaftState} {opts : Options} {n : Node}
    (h : newNode start state opts = some n) (hr : n.cfg.role = .follower) :
    n.IsStarted opts.nodeId opts.replicas (if state.lastTerm = 0 then 1 else state.lastTerm) := by
  unfold newNode at h
  split at h
  · cases h
  generalize (if state.lastTerm = 0 then 1 else state.lastTerm) = T at h ⊢
  cases h
  split at hr
  · cases hr
  split at hr
  · rename_i h1 h2
    rw [if_neg h1, if_pos h2]
    exact ⟨rfl, rfl, rfl, rfl, rfl, rfl, rfl, rfl, rfl⟩
  · cases hr

namespace Group

structure IsStarted (g : Group) : Prop where
  ids : ∀ r ∈ g.replicas, IsNodeId r
  net : g.net = []
  nodes : ∃ T, 1 ≤ T ∧ ∀ i ∈ g.replicas, (g.nodes i).IsStarted i g.replicas T

/-- Node `v` has sent its vote for `c` in term `T`; a vote for itself goes to the local node. -/
def Granted (g : Group) (v c T : Nat) : Prop :=
  ∃ e, g.Sent e ∧ e.type = .voteResp ∧ e.reason = .ok ∧ e.fromNode = v ∧ e.term = T ∧
    e.toNode = if c = v then localNode else c

def CanWin (g : Group) (c T : Nat) : Prop :=
  c ∈ g.replicas ∧ (g.nodes c).cfg.term = T ∧ ((g.nodes c).cfg.role = .candidate ∨ (g.nodes c).cfg.role = .leader)

structure ElectionSafe (g : Group) : Prop where
  leader : ∀ a ∈ g.replicas, ∀ b ∈ g.replicas, (g.nodes a).cfg.role = .leader →
    (g.nodes b).cfg.role = .leader → (g.nodes a).cfg.term = (g.nodes b).cfg.term → a = b
  vote : ∀ v c d T, g.Granted v c T → g.Granted v d T → g.CanWin c T → g.CanWin d T → c = d

private def beforeElection (g : Group) : Election.State Nat where
  ballot i := if i ∈ g.replicas then (g.nodes i).ballot else ⟨0, .follower, false, none⟩
  granted _ _ _ := False

variable {g : Group} {s : Election.State Nat}

private theorem IsStarted.tracks (h : g.IsStarted) : g.Tracks g.beforeElection := by
  obtain ⟨T, hT, hn⟩ := h.nodes
  refine ⟨h.ids, ?_, ?_, fun _ _ _ hg => hg.elim, ?_, ?_⟩
  · intro i hi
    have hs := hn i hi
    have hid := (h.ids i hi).1
    refine ⟨hs.nodeId, hs.replicas, hs.learners, by rw [hs.term]; exact hT, .inl hs.role,
      hs.stepFunc.trans hs.role.symm, hs.tickFnc.trans hs.role.symm, ?_⟩
    rw [hs.leader, hs.role]
    exact ⟨fun hx => absurd hx.symm hid, nofun⟩
  · intro i hi
    exact if_pos hi
  · rintro e (hnet | ⟨i, hi, he⟩)
    · rw [h.net] at hnet
      exact absurd hnet not_mem_nil
    · rw [(hn i hi).events] at he
      exact absurd he not_mem_nil
  · intro i hi hr
    rw [(hn i hi).role] at hr
    cases hr

/-- What the nodes and messages show is a state that moves of the election lead to from one in which
all are followers and nothing is granted. -/
def RefinesElection (g : Group) : Prop := ∃ start s : Election.State Nat,
  (∀ i, (start.ballot i).rank = .follower) ∧ (∀ v c T, ¬start.granted v c T) ∧
    Relation.ReflTransGen (Election.Move g.replicas) start s ∧ g.Tracks s

private theorem IsStarted.refines (h : g.IsStarted) : g.RefinesElection := by
  obtain ⟨T, -, hn⟩ := h.nodes
  refine ⟨_, _, fun i => ?_, fun _ _ _ hg => hg, .refl, h.tracks⟩
  by_cases hi : i ∈ g.replicas
  · simp [beforeElection, if_pos hi, Node.ballot, Node.rank, (hn i hi).role]
  · simp [beforeElection, if_neg hi]

private theorem RefinesElection.step {g' : Group} {a : Action} (h : g.RefinesElection)
    (hok : g.keepsVote a) (hs : g.step a = some g') : g'.RefinesElection := by
  obtain ⟨start, s, hf, hg, hm, ht⟩ := h
  unfold Group.step at hs
  split at hs
  · rename_i ha
    obtain ⟨hr, t, hmore, ht⟩ := ht.stepNode ha hok hs
    exact ⟨start, t, hf, hg, hr ▸ hm.trans hmore, ht⟩
  · cases hs

/-- As long as no node that has heard of a leader votes in the same term, and terms do not run out,
the group refines the election by majority. -/
theorem refines_election (h : Reach IsStarted step (fun g a => g.keepsVote a = true) g) : g.RefinesElection :=
  h.invariant RefinesElection (fun _ hg => hg.refines) fun _ _ _ hg hok hs => hg.step hok hs

private theorem exists_election (h : Reach IsStarted step (fun g a => g.keepsVote a) g) :
    ∃ s, g.Tracks s ∧ Election.Inv g.replicas s := by
  obtain ⟨start, s, hf, hg, hm, ht⟩ : g.RefinesElection :=
    h.invariant RefinesElection (fun _ hg => hg.refines) fun _ _ _ hg hok hs => hg.step hok hs
  exact ⟨s, ht, (Election.Inv.start hf hg).moves hm⟩

private theorem Tracks.granted (h : g.Tracks s) {v c T : Nat}
    (hc : c ∈ g.replicas) (hg : g.Granted v c T) : s.granted v c T := by
  obtain ⟨e, he, ht, hr, rfl, rfl, hto⟩ := hg
  obtain ⟨d, hd, hto', hgr⟩ := (h.sent e he).grant ht hr
  have hcd : d = c := by
    rw [hto] at hto'
    have hcl := (h.ids c hc).2.2
    have hdl := (h.ids d hd).2.2
    split at hto' <;> split at hto'
    · exact (‹d = _›).trans (‹c = _›).symm
    · exact absurd hto'.symm hdl
    · exact absurd hto' hcl
    · exact hto'.symm
  exact hcd ▸ hgr

private theorem Tracks.alive (h : g.Tracks s) {c T : Nat} (hc : g.CanWin c T) : s.Alive c T := by
  obtain ⟨hm, ht, hr⟩ := hc
  rw [Election.State.Alive, h.ballot c hm]
  refine ⟨ht, ?_⟩
  rcases hr with hr | hr <;> simp [Node.ballot, Node.rank, hr]

/-- As long as no node that has heard of a leader votes in the same term, and terms do not run out,
no term has two leaders, and no vote is given to two candidates that can still win. -/
theorem election_safety (h : Reach IsStarted step (fun g a => g.keepsVote a = true) g) :
    g.ElectionSafe := by
  obtain ⟨s, ht, hi⟩ := exists_election h
  constructor
  · intro a ha b hb hra hrb hT
    have ea := ht.ballot a ha
    have eb := ht.ballot b hb
    refine hi.leader_unique ?_ ?_ ?_
    · simp [ea, Node.ballot, Node.rank, hra]
    · simp [eb, Node.ballot, Node.rank, hrb]
    · rw [ea, eb]
      exact hT
  · intro v c d T hc hd hac had
    by_contra hne
    exact hi.once v c d T (ht.granted hac.1 hc) (ht.granted had.1 hd) hne ⟨ht.alive hac, ht.alive had⟩

def three : Group where
  replicas := [1, 2, 3]
  nodes i := (newNode 0 ⟨0, 0, 0⟩ { nodeId := i, replicas := [1, 2, 3] }).getD
    { opts := { nodeId := i }, queue := newQueue 0 0 }
  net := []

private theorem three_isStarted : three.IsStarted := by
  refine ⟨by decide, rfl, 1, le_rfl, ?_⟩
  have hn : ∀ i ∈ [1, 2, 3], (three.nodes i).cfg.role = .follower ∧
      newNode 0 ⟨0, 0, 0⟩ { nodeId := i, replicas := [1, 2, 3] } = some (three.nodes i) :=
    forall_mem_cons.mpr ⟨⟨rfl, rfl⟩,
      forall_mem_cons.mpr ⟨⟨rfl, rfl⟩, forall_mem_singleton.mpr ⟨rfl, rfl⟩⟩⟩
  exact fun i hi => newNode_isStarted (hn i hi).2 (hn i hi).1

private def electOne : List Action :=
  [.campaign 1, .ready 1, .deliver 1 0, .deliver 3 2, .ready 1, .ready 3, .deliver 1 3, .deliver 1 4]

private theorem exists_elected :
    ∃ g, Reach IsStarted step (fun g a => g.keepsVote a) g ∧ (g.nodes 1).cfg.role = .leader := by
  have h0 : Reach IsStarted step (fun g a => g.keepsVote a) three := .init three_isStarted
  exact h0.exists_of_run electOne _ (by decide +kernel)

theorem refines_election_elected : ∃ g : Group, (g.nodes 1).cfg.role = .leader ∧ g.RefinesElection := by
  obtain ⟨g, hg, hr⟩ := exists_elected
  exact ⟨g, hr, refines_election hg⟩

theorem election_safety_elected : ∃ g : Group, (g.nodes 1).cfg.role = .leader ∧ g.ElectionSafe := by
  obtain ⟨g, hg, hr⟩ := exists_elected
  exact ⟨g, hr, election_safety hg⟩

/-- Node 1 is elected and announces it to nobody yet; then node 1 votes for node 2. -/
private def electTwo : List Action :=
  [.campaign 1, .ready 1, .campaign 2, .ready 2, .deliver 1 0, .deliver 3 2, .ready 1, .ready 3, .deliver 1 6,
    .deliver 1 7, .deliver 1 3, .ready 1, .deliver 2 4, .ready 2, .deliver 2 11, .deliver 2 10]

/-- The leader of a term votes for another candidate of that term, which becomes its second
leader. -/
theorem election_safety_fails : ¬∀ g, Reach IsStarted step (fun _ _ => True) g → g.ElectionSafe := by
  intro hall
  have h0 : Reach IsStarted step (fun _ _ => True) three := .init three_isStarted
  obtain ⟨g, hg, hr⟩ := h0.exists_of_run electTwo
    (fun g => (g.nodes 1).cfg.role = .leader ∧ (g.nodes 2).cfg.role = .leader ∧
      (g.nodes 1).cfg.term = (g.nodes 2).cfg.term ∧ 1 ∈ g.replicas ∧ 2 ∈ g.replicas) (by decide +kernel)
  obtain ⟨h1, h2, hT, hm1, hm2⟩ := hr
  exact absurd ((hall g hg).leader 1 hm1 2 hm2 h1 h2 hT) (by decide)

end Group
end WuKongIM.Raft

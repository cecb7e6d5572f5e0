import WuKongIM.Raft.StoreFlight

/-! The panics on a store response and on the bounds of the queue, over whole runs of a node with
its driver. -/
namespace WuKongIM.Raft
open Lib List Option

variable {n : Node} {e : Event}

/-- The only panics of a step: a campaign of a leader, and the bounds of the queue. -/
theorem Node.stepEvent_isSome (hc : e.type ≠ .campaign) (ha : n.appends e → (n.queue.append e.logs).isSome)
    (ht : n.synchronises → e.type = .truncateResp → e.reason = .ok → e.index < n.queue.lastLogIndex →
      (n.queue.truncateLogTo e.index).isSome) (hs : e.type = .storeResp → (n.stored e).isSome) : (n.stepEvent e).isSome := by
  have hsync : n.synchronises → e.type = .syncResp → (n.stepSyncResp e).isSome := by
    intro hy hx
    unfold stepSyncResp
    dsimp only
    split
    case h_1 hr =>
      split
      · rw [isSome_map]
        exact ha (by simp [appends, hy, hx, hr])
      · rfl
    case h_2 => split <;> rfl
    case h_3 => rfl
  have htrunc : n.synchronises → e.type = .truncateResp → (n.stepTruncateResp e).isSome := by
    intro hy hx
    unfold stepTruncateResp
    dsimp only
    split
    · rename_i hr
      split
      · rename_i hi
        rw [isSome_map]
        exact ht hy hx hr hi
      · rfl
    · rfl
  have hstore : e.type = .storeResp → (n.stepStoreRespFollow e).isSome := by
    intro hx
    rw [stepStoreRespFollow, isSome_map]
    exact hs hx
  unfold stepEvent
  split
  · rfl
  · exact absurd ‹_› hc
  · rfl
  · split <;> rfl
  · split
    case h_1 hl =>
      unfold stepLeader
      split
      case h_1 hx =>
        split
        · rfl
        · rename_i hp
          rw [isSome_map]
          exact ha (by simp [appends, hl, hx, hp])
      case h_3 hx =>
        rw [isSome_map]
        exact hs hx
      all_goals rfl
    case h_2 hf =>
      have hy : n.synchronises := by simp [synchronises, hf]
      unfold stepFollower
      split
      case h_4 hx => exact hsync hy hx
      case h_5 hx => exact htrunc hy hx
      case h_6 hx => exact hstore hx
      all_goals rfl
    case h_3 =>
      unfold stepCandidate
      split <;> rfl
    case h_4 hf =>
      have hy : n.synchronises := by simp [synchronises, hf]
      unfold stepLearner
      split
      case h_4 hx => exact hsync hy hx
      case h_5 hx => exact htrunc hy hx
      case h_6 hx => exact hstore hx
      all_goals rfl
    case h_5 => rfl

namespace Driven
variable {d : Driver} {s t : Driven} {m : Node} {events : List Event} {err : Option RaftError}

structure StoreSound (s : Driven) : Prop where
  one : s.OneAtATime
  flight : StoreFlight s.node.logView s.pool s.inbox

/-- An event that makes the node cut its queue spares the batches in flight, and one that makes it
append does not let the indexes run out. -/
def SparesBatches (s : Driven) (e : Event) : Prop :=
  (∀ i ∈ s.node.cutIndex e, SparesFlight s.node.queue s.pool s.inbox i) ∧
    ((s.node.enterTerm e).appends e → s.node.queue.Fits e.logs)
  deriving Decidable

/-- The side condition of a run: every event that the node steps spares the batches. -/
def sparesBatches (s : Driven) : Action → Bool
  | .step e => decide (s.SparesBatches e)
  | .deliver k => (s.inbox[k]?).all fun r => decide (s.SparesBatches r)
  | _ => true

private theorem storeFlight_nodeStep {inbox : List Event}
    (h : StoreFlight s.node.logView s.pool inbox) (hsub : ∀ r ∈ inbox, r ∈ s.inbox)
    (hok : s.SparesBatches e) (hstore : e.type = .storeResp → inFlight s.pool inbox .storeReq = 0 ∧
      (e.reason = .ok → (e.logs ≠ [] ∧ e.logs <+: s.node.queue.logs) ∧ e.index = lastIndexOf e.logs))
    (hm : s.node.step e = some (m, err)) : StoreFlight m.logView s.pool inbox := by
  by_cases hlow : e.term ≠ 0 ∧ e.term < s.node.cfg.term
  · rw [Node.step, if_pos hlow] at hm
    cases hm
    rw [(s.node.notes_rejected e).quiet.logView]
    exact h
  · obtain ⟨-, hv⟩ | hmove := Node.step_logMove hm
    · rw [hv]
      exact h
    have hq := s.node.queue_enterTerm e
    refine StoreFlight.logMove ((s.node.logView_enterTerm e).symm ▸ h) ?_ (hq.symm ▸ hok.2) (hq.symm ▸ hstore) hmove
    intro i hi
    rw [hq]
    have hs := hok.1 i (by rwa [Node.cutIndex, if_neg hlow])
    exact ⟨hs.1, hs.2.1, fun r hr => hs.2.2 r (hsub r hr)⟩

theorem StoreSound.step {a : Action} (h : s.StoreSound) (hok : s.sparesBatches a)
    (hst : s.step d a = some t) : t.StoreSound := by
  refine ⟨h.one.step hst, ?_⟩
  cases moved_of_step hst with
  | step e he m err hm =>
    refine storeFlight_nodeStep (s := s) h.flight (fun r hr => hr) (of_decide_eq_true hok) ?_ hm
    intro ht
    rw [ht] at he
    cases he
  | tick m hm =>
    rw [Node.logView_tick hm]
    exact h.flight
  | ready lost m events hm =>
    rw [takeOver_logView]
    exact h.flight.ready h.one hm
  | run k o u hu disk p hp =>
    have hc := Driver.handle_call hp
    cases p with
    | more u' => exact h.flight.more hu hc.more_req
    | response r => exact h.flight.answer hu hc
  | deliver k r hr m err hm =>
    have hmem := mem_of_getElem? hr
    have hok' : s.SparesBatches r := by
      rw [sparesBatches, hr] at hok
      exact of_decide_eq_true hok
    exact storeFlight_nodeStep (s := s) h.flight.taken (fun x hx => mem_of_mem_eraseIdx hx) hok'
      (fun ht => ⟨(OneFlight.taken h.one hr).2.1 ht, h.flight.stored r hmem ht⟩) hm

theorem start_storeSound {disk : LogStorage} {opts : Options} (h : start d disk opts = some s) : s.StoreSound := by
  refine ⟨start_oneAtATime h, ?_⟩
  obtain ⟨n, hn, rfl⟩ := map_eq_some_iff.mp h
  rw [newNode_logView hn]
  exact ⟨rfl, trivial, fun u hu => (nomatch hu), fun r hr => (nomatch hr)⟩

/-- The store responses under way fit the queue, and nothing that spares the batches in flight
panics. -/
structure StoreSafe (s : Driven) : Prop where
  stored_le : s.node.queue.storedIndex ≤ s.node.queue.lastLogIndex
  /-- A successful response names an index that the queue reaches. -/
  bound : ∀ r ∈ s.inbox, r.type = .storeResp → r.reason = .ok → r.index ≤ s.node.queue.lastLogIndex
  /-- It marks the logs of its batch as stored and no others, unless the role ignores it. -/
  marks : ∀ r ∈ s.inbox, r.type = .storeResp → r.reason = .ok → ∀ m err, s.node.step r = some (m, err) →
    m.queue.logs = s.node.queue.logs ∧ m.queue.storedIndex = s.node.queue.storedIndex ∨
      s.node.queue.logs = r.logs ++ m.queue.logs ∧ m.queue.storedIndex = r.index
  ready : s.node.ready.isSome = true
  step : ∀ e, isResponse e.type = false ∨ e ∈ s.inbox → s.SparesBatches e → e.type ≠ .campaign →
    (s.node.step e).isSome = true

section
variable (h : s.StoreSound) {r : Event}
include h

private theorem StoreSound.ready_isSome : s.node.ready.isSome := by
  have hl := h.flight.sound
  unfold Node.ready Node.readyStore
  split
  · unfold Queue.nextStoreLogs
    split
    · rfl
    rw [if_neg]
    · rfl
    · have := hl.last
      omega
  · rfl

private theorem StoreSound.bound (hr : r ∈ s.inbox) (ht : r.type = .storeResp) (hk : r.reason = .ok) :
    r.index = s.node.queue.storedIndex + r.logs.length ∧ r.index ≤ s.node.queue.lastLogIndex ∧
      ∃ rest, s.node.queue.logs = r.logs ++ rest := by
  obtain ⟨⟨hne, hp⟩, hi⟩ := h.flight.stored r hr ht hk
  have hlast := h.flight.last
  rw [lastIndexOf_head h.flight.numbered hp hne] at hi
  obtain ⟨rest, hrest⟩ := hp
  change r.logs ++ rest = s.node.queue.logs at hrest
  change r.index = s.node.queue.storedIndex + r.logs.length at hi
  change s.node.queue.lastLogIndex = s.node.queue.storedIndex + s.node.queue.logs.length at hlast
  refine ⟨hi, ?_, rest, hrest.symm⟩
  rw [← hrest, length_append] at hlast
  omega

private theorem StoreSound.marks (hr : r ∈ s.inbox) (ht : r.type = .storeResp)
    (hk : r.reason = .ok) (hm : s.node.step r = some (m, err)) :
    m.queue.logs = s.node.queue.logs ∧ m.queue.storedIndex = s.node.queue.storedIndex ∨
      s.node.queue.logs = r.logs ++ m.queue.logs ∧ m.queue.storedIndex = r.index := by
  obtain ⟨⟨hne, hp⟩, -⟩ := h.flight.stored r hr ht hk
  obtain ⟨hi, -, rest, hrest⟩ := h.bound hr ht hk
  have hmove := Node.step_logMove_of_zero (h.one.answers r hr).2 hm
  generalize hv : m.logView = v at hmove
  have hlogs : m.queue.logs = v.logs := congrArg LogView.logs hv
  have hstored : m.queue.storedIndex = v.storedIndex := congrArg LogView.storedIndex hv
  rw [hlogs, hstored]
  cases hmove with
  | same => exact .inl ⟨rfl, rfl⟩
  | append q err ha =>
    rw [Node.appends, ht] at ha
    simp at ha
  | order hs he | cut q hs he => cases ht.symm.trans he.1
  | uncut hs he => cases ht.symm.trans he
  | stored q hs he hle hq =>
    rw [hi, h.flight.sound.storeTo hrest hne] at hq
    cases hq
    exact .inr ⟨hrest, hi.symm⟩
  | unstored hs he => exact absurd hk he.2

private theorem StoreSound.step_isSome
    (he : isResponse e.type = false ∨ e ∈ s.inbox) (hok : s.SparesBatches e)
    (hc : e.type ≠ .campaign) : (s.node.step e).isSome := by
  have hq := s.node.queue_enterTerm e
  have hsound := h.flight.sound
  unfold Node.step
  split
  · rfl
  rename_i hlow
  rw [isSome_map]
  have hcut : ∀ i ∈ (s.node.enterTerm e).cuts e, ((s.node.enterTerm e).queue.truncateLogTo i).isSome := by
    intro i hi
    rw [hq]
    exact Queue.truncateLogTo_isSome hsound (hok.1 i (by rwa [Node.cutIndex, if_neg hlow])).1.1
  apply Node.stepEvent_isSome hc
  · intro ha
    refine Queue.append_isSome fun i hi => hcut i ?_
    have hne : e.type ≠ .truncateResp := by
      intro hx
      rw [Node.appends, hx] at ha
      simp at ha
    rw [Node.cuts, if_neg fun hx => hne hx.2.1, if_pos ha]
    exact hi
  · intro hs ht hr hi
    apply hcut
    rw [Node.cuts, if_pos ⟨hs, ht, hr, hi⟩]
    rfl
  · intro ht
    have hmem : e ∈ s.inbox := he.resolve_left (by rw [ht]; decide)
    rw [s.node.enterTerm_zero (h.one.answers e hmem).2]
    unfold Node.stored
    split
    · rfl
    rename_i hr
    have hr : e.reason = .ok := not_not.mp hr
    obtain ⟨hi, hle, rest, hrest⟩ := h.bound hmem ht hr
    rw [if_neg (Nat.not_lt.mpr hle), isSome_map]
    change (s.node.queue.storeTo e.index).isSome
    rw [hi, hsound.storeTo hrest (h.flight.stored e hmem ht hr).1.1]
    rfl

end

/-- Over every run in which no cut reaches into a batch on its way to the storage, or below the
stored index while logs wait in memory, no store response and no bound of the queue panics. -/
theorem store_safe (h : Reached d (fun s a => s.sparesBatches a = true) s) : s.StoreSafe := by
  have hs : s.StoreSound :=
    h.invariant StoreSound (fun s ⟨disk, opts, hs⟩ => start_storeSound hs) fun s a t hs hok ht => hs.step hok ht
  refine ⟨?_, fun r hr ht hk => (hs.bound hr ht hk).2.1, fun r hr ht hk m err hm => hs.marks hr ht hk hm,
    hs.ready_isSome, fun e he hok hc => hs.step_isSome he hok hc⟩
  have hlast := hs.flight.sound.last
  omega

def follower : Option Driven := start ⟨.raft, .slot, 0, false⟩ {} { nodeId := 1, replicas := [1, 2] }

variable (term first count : Nat)

def logsOf : List Log := (List.range count).map fun k => ⟨first + k, first + k, term, []⟩

def syncLogs : Event :=
  { type := .syncResp, fromNode := 2, toNode := 1, term := term, reason := .ok, logs := logsOf term first count }

def syncTruncate (term index : Nat) : Event :=
  { type := .syncResp, fromNode := 2, toNode := 1, term := term, reason := .truncate, index := index }

/-- A cut right behind the batch in flight: its response is still good. -/
theorem store_safe_cut : ∃ s : Driven, s.inbox.map (·.index) = [3] ∧ s.node.queue.lastLogIndex = 3 ∧ s.StoreSafe := by
  obtain ⟨s0, h0⟩ : ∃ s, follower = some s := ⟨_, rfl⟩
  have hr : Reached _ (fun s a => s.sparesBatches a) s0 := .init ⟨_, _, h0⟩
  obtain ⟨s, hs, hp⟩ := hr.exists_of_run
    [.step (syncLogs 1 1 3), .ready [], .step (syncLogs 1 4 2), .step (syncTruncate 1 3), .ready [],
      .run 1 .done, .run 1 .done, .deliver 0, .run 0 .done, .run 0 .done]
    (fun s => s.inbox.map (·.index) = [3] ∧ s.node.queue.lastLogIndex = 3) (by cases h0; decide +kernel)
  exact ⟨s, hp.1, hp.2, store_safe hs⟩

/-- A truncation that overtakes a store: the response names an index that is no longer there, and
stepping it panics. -/
theorem store_safe_fails : ¬∀ d s, Reached d (fun _ _ => True) s → s.StoreSafe := by
  intro hall
  obtain ⟨s0, h0⟩ : ∃ s, follower = some s := ⟨_, rfl⟩
  have hr : Reached _ (fun _ _ => True) s0 := .init ⟨_, _, h0⟩
  obtain ⟨s, hs, hp⟩ := hr.exists_of_run
    [.step (syncLogs 1 1 3), .ready [], .step (syncTruncate 1 1), .ready [], .run 0 .done,
      .run 0 .done, .run 0 .done, .run 0 .done, .deliver 1]
    (fun s => ∃ r ∈ s.inbox, r.type = .storeResp ∧ r.reason = .ok ∧ s.node.queue.lastLogIndex < r.index)
    (by cases h0; decide +kernel)
  obtain ⟨r, hr, htype, hok, hlt⟩ := hp
  exact absurd ((hall _ s hs).bound r hr htype hok) (Nat.not_le.mpr hlt)

/-- Over every run, cuts and lost requests included: a batch is on its way only while the node waits
for one, and so is a truncation, one of each at a time. -/
theorem one_request_at_a_time (h : Reached d (fun _ _ => True) s) : s.OneAtATime :=
  h.invariant OneAtATime (fun _ ⟨_, _, hs⟩ => start_oneAtATime hs) fun _ _ _ hs _ ht => hs.step ht

theorem one_request_at_a_time_both : ∃ s : Driven,
    s.pool.map (·.req.type) = [.storeReq, .truncateReq] ∧ s.OneAtATime := by
  obtain ⟨s0, h0⟩ : ∃ s, follower = some s := ⟨_, rfl⟩
  have hr : Reached _ (fun _ _ => True) s0 := .init ⟨_, _, h0⟩
  obtain ⟨s, hs, hp⟩ := hr.exists_of_run [.step (syncLogs 1 1 3), .ready [], .step (syncTruncate 1 1), .ready []]
    (fun s => s.pool.map (·.req.type) = [.storeReq, .truncateReq]) (by cases h0; decide +kernel)
  exact ⟨s, hp, one_request_at_a_time hs⟩

end Driven
end WuKongIM.Raft

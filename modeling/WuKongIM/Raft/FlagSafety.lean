import WuKongIM.Raft.Flags
import WuKongIM.Raft.StoreSafety

/-! The flags of a node that stand for work of its storage, over whole runs: a flag that is set
waits for a response that is still to come, and the response clears it. -/
namespace WuKongIM.Raft
open Lib List Option LogView

/-- The flags that block storing, synchronising, applying, and fetching logs for a replica. -/
inductive Flag where
  | appending
  | truncating
  | applying
  | getingLogs (replica : Nat)

variable {f : Flag}

def Flag.request : Flag → Event → Prop
  | appending, e => e.type = .storeReq
  | truncating, e => e.type = .truncateReq
  | applying, e => e.type = .applyReq
  | getingLogs r, e => e.type = .getLogsReq ∧ e.fromNode = r

def Flag.response : Flag → Event → Prop
  | appending, e => e.type = .storeResp
  | truncating, e => e.type = .truncateResp
  | applying, e => e.type = .applyResp
  | getingLogs r, e => e.type = .getLogsResp ∧ e.toNode = r

variable {e : Event}

theorem Flag.isResponse_of_response (h : f.response e) : isResponse e.type := by
  cases f with
  | getingLogs r =>
    rw [h.1]
    rfl
  | _ =>
    rw [h]
    rfl

theorem Flag.isRequest_of_request (h : f.request e) : isRequest e.type := by
  cases f with
  | getingLogs r =>
    rw [h.1]
    rfl
  | _ =>
    rw [h]
    rfl

namespace Node
variable {n m : Node} {err : Option RaftError}

def flag (n : Node) : Flag → Bool
  | .appending => n.queue.appending
  | .truncating => n.truncating
  | .applying => n.queue.applying
  | .getingLogs r => n.getingLogs r

def hears (n : Node) (e : Event) : Bool :=
  (e.type != .storeResp || n.stores) && (e.type != .truncateResp || n.synchronises)

def FetchesAsLeader (n : Node) : Prop := ∀ r, n.getingLogs r = true → n.stepFunc = .leader

private theorem step_raises (he : e.type ≠ .applyResp) (h : n.step e = some (m, err))
    (hf : m.flag f) : n.flag f ∨ ∃ q ∈ m.events, f.request q := by
  have hmove := step_flagMove he h
  have hview : m.queue.appending → n.queue.appending := by
    intro hx
    obtain ⟨-, hv⟩ | hm := step_logMove h
    · exact (congrArg appending hv).symm.trans hx
    have hn := congrArg appending (n.logView_enterTerm e)
    have hx : m.logView.appending := hx
    generalize m.logView = v at hm hx
    cases hm with
    | stored | unstored => cases hx
    | _ => exact hn.symm.trans hx
  cases f with
  | appending => exact .inl (hview hf)
  | applying => exact .inl (hmove.applying.symm.trans hf)
  | getingLogs r =>
    obtain ⟨-, hg⟩ | ⟨-, hq⟩ := hmove.geting r hf
    · exact .inl hg
    · exact .inr hq
  | truncating =>
    obtain ⟨-, hv⟩ | hm := step_logMove h
    · exact .inl ((congrArg truncating hv).symm.trans hf)
    have hn := congrArg truncating (n.logView_enterTerm e)
    have hx : m.logView.truncating := hf
    have ho : ∀ q ∈ m.logView.orders, q ∈ m.events := fun q hq => (mem_filter.mp hq).1
    generalize m.logView = v at hm hx ho
    cases hm with
    | order => exact .inr ⟨_, ho _ (mem_append_right _ (mem_singleton_self _)), rfl⟩
    | cut | uncut => cases hx
    | _ => exact .inl (hn.symm.trans hx)

/-- A step keeps what was sent, fetches as a leader only, and has sent the request of a flag that it
sets. -/
theorem step_flags (h0 : e.type = .applyResp → e.term = 0) (h : n.step e = some (m, err)) :
    (∀ q ∈ n.events, q ∈ m.events) ∧ (n.FetchesAsLeader → m.FetchesAsLeader) ∧
      ∀ f, m.flag f → n.flag f ∨ ∃ q ∈ m.events, f.request q := by
  by_cases he : e.type = .applyResp
  · obtain ⟨rfl, -⟩ := step_applyResp he (h0 he) h
    refine ⟨fun q hq => hq, fun hl => hl, fun f hf => .inl ?_⟩
    cases f with
    | applying =>
      rw [Queue.appliedTo_eq] at hf
      split at hf <;> cases hf
    | appending =>
      rw [Queue.appliedTo_eq] at hf
      split at hf <;> exact hf
    | truncating | getingLogs => exact hf
  · have hmove := step_flagMove he h
    refine ⟨fun q hq => hmove.mem_events hq, fun hl r hr => ?_, fun f hf => step_raises he h hf⟩
    obtain ⟨hf, hg⟩ | ⟨hx, -⟩ := hmove.geting r hr
    · exact hf.trans (hl r hg)
    · exact hx

theorem step_clears (hl : n.FetchesAsLeader) (hh : n.hears e) (h0 : e.term = 0) (hr : f.response e)
    (h : n.step e = some (m, err)) : m.flag f = false := by
  have hm := step_logMove_of_zero h0 h
  unfold step at h
  rw [if_neg fun hx => hx.1 h0, n.enterTerm_zero h0] at h
  obtain ⟨⟨k, err'⟩, hs, hx⟩ := map_eq_some_iff.mp h
  cases hx
  cases f with
  | appending =>
    have hr : e.type = .storeResp := hr
    have hst : n.stores := by simpa [hears, hr] using hh
    change k.publishReadState.logView.appending = false
    generalize k.publishReadState.logView = v at hm
    cases hm with
    | same hx => exact absurd (hx hr) (by rw [hst]; decide)
    | append q err ha =>
      rw [appends, hr] at ha
      simp at ha
    | order _ he | cut q _ he => cases hr.symm.trans he.1
    | uncut _ he => cases hr.symm.trans he
    | stored | unstored => rfl
  | truncating =>
    have hr : e.type = .truncateResp := hr
    have hsy : n.synchronises := by simpa [hears, hr] using hh
    change k.publishReadState.logView.truncating = false
    generalize k.publishReadState.logView = v at hm
    cases hm with
    | same _ hx => exact absurd (hx hr) (by rw [hsy]; decide)
    | append q err ha =>
      rw [appends, hr] at ha
      simp at ha
    | order _ he | stored q _ he | unstored _ he => cases hr.symm.trans he.1
    | cut | uncut => rfl
  | applying =>
    rw [stepEvent, hr] at hs
    dsimp only at hs
    split at hs
    · cases hs
      change (n.queue.appliedTo e.index).applying = false
      rw [Queue.appliedTo_eq]
    · cases hs
      rfl
  | getingLogs r =>
    obtain ⟨hr, rfl⟩ := hr
    rw [stepEvent, hr] at hs
    dsimp only at hs
    split at hs
    case h_1 =>
      rw [stepLeader, hr] at hs
      cases hs
      split
      · rename_i hn
        change n.getingLogs e.toNode = false
        rw [getingLogs, hn]
        rfl
      · change ((AList.insert e.toNode _ n.replicaSync).lookup e.toNode).any _ = false
        rw [AList.lookup_insert]
        rfl
    all_goals
      rename_i hrole
      have hn : n.getingLogs e.toNode = false := by
        rw [Bool.eq_false_iff]
        intro hx
        cases hrole.symm.trans (hl _ hx)
      first
        | rw [stepFollower, hr] at hs
          cases hs
          exact hn
        | rw [stepCandidate, hr] at hs
          cases hs
          exact hn
        | rw [stepLearner, hr] at hs
          cases hs
          exact hn
        | cases hs
          exact hn

variable {events : List Event}

theorem ready_raises (h : n.ready = some (m, events)) :
    n.events <+: events ∧ m.replicaSync = n.replicaSync ∧ m.stepFunc = n.stepFunc ∧
      ∀ f, m.flag f → n.flag f ∨ ∃ q ∈ events, Flag.request f q := by
  have hview := ready_logView h
  obtain ⟨k, hk, hx⟩ := map_eq_some_iff.mp h
  cases hx
  have hstore : n.events <+: k.events ∧ k.replicaSync = n.replicaSync ∧ k.stepFunc = n.stepFunc ∧
      k.queue.applying = n.queue.applying := by
    obtain ⟨-, rfl⟩ | ⟨batch, -, -, -, -, rfl⟩ := readyStore_cases hk
    · exact ⟨prefix_refl _, rfl, rfl, rfl⟩
    · exact ⟨prefix_append _ _, rfl, rfl, rfl⟩
  have happly : k.events <+: k.readyApply.events ∧ k.readyApply.replicaSync = k.replicaSync ∧
      k.readyApply.stepFunc = k.stepFunc ∧
      (k.readyApply.queue.applying → k.queue.applying ∨ ∃ q ∈ k.readyApply.events, q.type = .applyReq) := by
    obtain hx | ⟨-, hx⟩ := k.readyApply_cases
    · rw [hx]
      exact ⟨prefix_refl _, rfl, rfl, .inl⟩
    · rw [hx]
      exact ⟨prefix_append _ _, rfl, rfl,
        fun _ => .inr ⟨_, mem_append_right _ (mem_singleton_self _), rfl⟩⟩
  have hsync : k.readyApply.replicaSync = n.replicaSync := happly.2.1.trans hstore.2.1
  refine ⟨hstore.1.trans happly.1, hsync, happly.2.2.1.trans hstore.2.2.1, fun f hf => ?_⟩
  cases f with
  | appending =>
    obtain ⟨-, hv, -⟩ | ⟨-, -, -, -, ho⟩ := hview
    · exact .inl ((congrArg appending hv).symm.trans hf)
    · refine .inr ⟨_, (mem_filter.mp (ho ▸ mem_append_right _ (mem_singleton_self _))).1, ?_⟩
      rfl
  | truncating =>
    left
    obtain ⟨-, hv, -⟩ | ⟨-, -, -, hv, -⟩ := hview
    all_goals exact (congrArg truncating hv).symm.trans hf
  | applying =>
    obtain hx | hq := happly.2.2.2 hf
    · exact .inl (hstore.2.2.2.symm.trans hx)
    · exact .inr hq
  | getingLogs r =>
    left
    change (n.replicaSync.lookup r).any _
    rw [← hsync]
    exact hf

end Node

namespace Driven
variable {d : Driver} {s t : Driven} {m : Node} {disk : LogStorage} {o : Outcome} {u : Task}

/-- A request of the flag waits for the driver or for the pool, or its response is on its way. -/
def Awaits (s : Driven) (f : Flag) : Prop :=
  (∃ q ∈ s.node.events, f.request q) ∨ (∃ u ∈ s.pool, f.request u.req) ∨ ∃ r ∈ s.inbox, f.response r

theorem awaits_takeOver (h : (∃ q ∈ events, f.request q) ∨ (∃ u ∈ s.pool, f.request u.req) ∨
    ∃ r ∈ s.inbox, f.response r) : (s.takeOver m events []).Awaits f := by
  rcases h with ⟨q, hq, hf⟩ | ⟨u, hu, hf⟩ | hr
  · refine .inr (.inl ⟨taskOf m q, ?_, hf⟩)
    rw [takeOver_pool, requestsOf_nil]
    exact mem_append_right _ (mem_map_of_mem (mem_filter.mpr ⟨hq, f.isRequest_of_request hf⟩))
  · exact .inr (.inl ⟨u, mem_append_left _ hu, hf⟩)
  · exact .inr (.inr hr)

theorem response_of_call {disk disk' : LogStorage} {r : Event} (h : d.Call disk u o disk' (.response r))
    (hok : d.kind = .raftGroup → o = .submitFails → u.calls = 0 → ¬∃ x, f = .getingLogs x)
    (hf : f.request u.req) : f.response r := by
  obtain ⟨htype, -⟩ := h.response_type
  cases f with
  | getingLogs x =>
    obtain ⟨ht, hn⟩ := hf
    rw [ht] at htype
    refine ⟨htype, ?_⟩
    generalize hp : Progress.response r = p at h
    cases h with
    | fetched _ r' _ hto =>
      cases hp
      obtain hto | ⟨hk, ho, hc⟩ := hto
      · exact hto.trans hn
      · exact absurd ⟨x, rfl⟩ (hok hk ho hc)
    | storeFails ht' | append ht' | cutFails ht' | cutDone ht' | applyFails ht' | applyUnneeded ht' | applied ht' =>
      cases ht.symm.trans ht'
    | _ => cases hp
  | appending | truncating | applying =>
    rw [hf] at htype
    exact htype

/-- The side condition of a run: every storage response is stepped in a role that hears it, the
pool of `RaftGroup` refuses no request for logs that a replica waits for, and no request of
`Ready` is overwritten. -/
def hearsStorage (d : Driver) (s : Driven) : Action → Bool
  | .ready lost => lost.isEmpty
  | .deliver k => (s.inbox[k]?).all s.node.hears
  | .run k .submitFails =>
    (s.pool[k]?).all fun u =>
      !(d.kind == .raftGroup && u.req.type == .getLogsReq && s.node.getingLogs u.req.fromNode)
  | _ => true

structure FlagSound (s : Driven) : Prop where
  leads : s.node.FetchesAsLeader
  answers : ∀ r ∈ s.inbox, r.term = 0
  awaits : ∀ f, s.node.flag f = true → s.Awaits f

private theorem FlagSound.nodeStep {err : Option RaftError} {inbox : List Event} (h : s.FlagSound)
    (h0 : e.type = .applyResp → e.term = 0) (hin : ∀ r ∈ inbox, r ∈ s.inbox)
    (hkeep : ∀ f, ¬f.response e → ∀ r ∈ s.inbox, Flag.response f r → r ∈ inbox)
    (hclear : ∀ f, Flag.response f e → m.flag f = false) (hm : s.node.step e = some (m, err)) :
    FlagSound { s with node := m, inbox := inbox } := by
  obtain ⟨hsent, hlead, hraise⟩ := Node.step_flags h0 hm
  refine ⟨hlead h.leads, fun r hr => h.answers r (hin r hr), ?_⟩
  intro f hf
  have hne : ¬f.response e := fun hx => nomatch (hclear f hx).symm.trans hf
  obtain hn | hq := hraise f hf
  · rcases h.awaits f hn with ⟨q, hq, hx⟩ | hu | ⟨r, hr, hx⟩
    · exact .inl ⟨q, hsent q hq, hx⟩
    · exact .inr (.inl hu)
    · exact .inr (.inr ⟨r, hkeep f hne r hr hx, hx⟩)
  · exact .inl hq

private theorem FlagSound.run {k : Nat} {p : Progress} (h : s.FlagSound)
    (hok : s.hearsStorage d (.run k o)) (hu : s.pool[k]? = some u) (hc : d.Call s.disk u o disk p) :
    (s.progress k disk p).FlagSound := by
  cases p with
  | more u' =>
    refine ⟨h.leads, h.answers, fun f hf => ?_⟩
    rcases h.awaits f hf with hq | ⟨w, hw, hx⟩ | hr
    · exact .inl hq
    · by_cases hwu : w = u
      · subst hwu
        refine .inr (.inl ⟨u', mem_set_self hu u', ?_⟩)
        rw [hc.more_req]
        exact hx
      · exact .inr (.inl ⟨w, mem_set_of_ne hu u' hw hwu, hx⟩)
    · exact .inr (.inr hr)
  | response r =>
    refine ⟨h.leads, forall_mem_append.mpr ⟨h.answers, forall_mem_singleton.mpr hc.response_type.2.2⟩, fun f hf => ?_⟩
    · rcases h.awaits f hf with hq | ⟨w, hw, hx⟩ | ⟨x, hx, hfx⟩
      · exact .inl hq
      · by_cases hwu : w = u
        · subst hwu
          refine .inr (.inr ⟨r, mem_append_right _ (mem_singleton_self _), ?_⟩)
          refine response_of_call hc ?_ hx
          rintro hk rfl - ⟨y, rfl⟩
          -- the refused request would be the one that the flag waits for
          rw [hearsStorage, hu] at hok
          obtain ⟨ht, rfl⟩ := hx
          have hg : s.node.getingLogs w.req.fromNode := hf
          simp [hk, ht, hg] at hok
        · exact .inr (.inl ⟨w, (mem_eraseIdx_ne hu hwu).mpr hw, hx⟩)
      · exact .inr (.inr ⟨x, mem_append_left _ hx, hfx⟩)

theorem FlagSound.step {a : Action} (h : s.FlagSound) (hok : s.hearsStorage d a)
    (hst : s.step d a = some t) : t.FlagSound := by
  cases moved_of_step hst with
  | step e he m err hm =>
    refine FlagSound.nodeStep h ?_ (fun r hr => hr) (fun f _ r hr _ => hr) ?_ hm
    · intro hx
      rw [hx] at he
      cases he
    · intro f hf
      rw [f.isResponse_of_response hf] at he
      cases he
  | tick m hm =>
    have hmove := Node.tick_flagMove hm
    refine ⟨?_, h.answers, ?_⟩
    · intro r hr
      obtain ⟨hf, hg⟩ | ⟨hl, -⟩ := hmove.geting r hr
      · exact hf.trans (h.leads r hg)
      · exact hl
    · intro f hf
      have hold : s.node.flag f ∨ ∃ q ∈ m.events, f.request q := by
        have hv := Node.logView_tick hm
        cases f with
        | appending => exact .inl ((congrArg appending hv).symm.trans hf)
        | truncating => exact .inl ((congrArg truncating hv).symm.trans hf)
        | applying => exact .inl (hmove.applying.symm.trans hf)
        | getingLogs r => exact (hmove.geting r hf).elim (fun hg => .inl hg.2) fun hq => .inr hq.2
      rcases hold with hn | hq
      · rcases h.awaits f hn with ⟨q, hq, hx⟩ | hu
        · exact .inl ⟨q, hmove.mem_events hq, hx⟩
        · exact .inr hu
      · exact .inl hq
  | ready lost m events hm =>
    obtain rfl : lost = [] := isEmpty_iff.mp hok
    obtain ⟨hsent, hsync, hrole, hraise⟩ := Node.ready_raises hm
    have hflag (f) : (s.takeOver m events []).node.flag f = m.flag f := by
      unfold takeOver
      dsimp only
      split <;> cases f <;> rfl
    refine ⟨?_, h.answers, ?_⟩
    · intro r hr
      have hm : m.getingLogs r := (hflag (.getingLogs r)).symm.trans hr
      rw [Node.getingLogs, hsync] at hm
      have hl := h.leads r hm
      unfold takeOver
      dsimp only
      split <;> exact hrole.trans hl
    · intro f hf
      rw [hflag] at hf
      apply awaits_takeOver
      obtain hn | hq := hraise f hf
      · rcases h.awaits f hn with ⟨q, hq, hx⟩ | hu
        · exact .inl ⟨q, hsent.subset hq, hx⟩
        · exact .inr hu
      · exact .inl hq
  | run k o u hu disk p hp => exact h.run hok hu (Driver.handle_call hp)
  | deliver k r hr m err hm =>
    have hmem := mem_of_getElem? hr
    have hh : s.node.hears r := by rwa [hearsStorage, hr] at hok
    refine FlagSound.nodeStep h (fun _ => h.answers r hmem) (fun x hx => mem_of_mem_eraseIdx hx) ?_
      (fun f hf => Node.step_clears h.leads hh (h.answers r hmem) hf hm) hm
    intro f hne x hx hfx
    refine (mem_eraseIdx_ne hr ?_).mpr hx
    rintro rfl
    exact hne hfx

theorem start_flagSound {opts : Options} (h : start d disk opts = some s) : s.FlagSound := by
  obtain ⟨n, hn, rfl⟩ := map_eq_some_iff.mp h
  have hv := newNode_logView hn
  obtain ⟨hqueue, -, -, -, hsync, -⟩ := newNode_eq_some hn
  have hget (r) : n.getingLogs r = false := by
    rw [Node.getingLogs, hsync]
    rfl
  refine ⟨fun r hr => (by cases (hget r).symm.trans hr), forall_mem_nil _, fun f hf => ?_⟩
  have hnone : n.flag f = false := by
    cases f with
    | appending => exact congrArg appending hv
    | truncating => exact congrArg truncating hv
    | applying => exact congrArg Queue.applying hqueue
    | getingLogs r => exact hget r
  cases hnone.symm.trans hf

/-- A flag that is set waits for a response, and a response that is heard clears it. -/
structure FlagSafe (s : Driven) : Prop where
  awaits : ∀ f, s.node.flag f = true → s.Awaits f
  clears : ∀ r ∈ s.inbox, s.node.hears r = true → ∀ f, Flag.response f r →
    ∀ m err, s.node.step r = some (m, err) → m.flag f = false

/-- No flag is stuck in a run in which every storage response is heard and `RaftGroup` loses no
request for logs. -/
theorem flag_safe (h : Reached d (fun s a => s.hearsStorage d a = true) s) : s.FlagSafe := by
  have hs : s.FlagSound :=
    h.invariant FlagSound (fun s ⟨disk, opts, hs⟩ => start_flagSound hs) fun s a t hs hok ht => hs.step hok ht
  exact ⟨hs.awaits, fun r hr hh f hf m err hm => Node.step_clears hs.leads hh (hs.answers r hr) hf hm⟩

/-- A follower with a batch on its way becomes a candidate and a follower again before the response
comes. -/
theorem flag_safe_election : ∃ s : Driven, s.inbox.map (·.index) = [3] ∧ s.node.flag .appending = true ∧ s.FlagSafe := by
  obtain ⟨s0, h0⟩ : ∃ s, follower = some s := ⟨_, rfl⟩
  have hr : Reached ⟨.raft, .slot, 0, false⟩ (fun s a => s.hearsStorage ⟨.raft, .slot, 0, false⟩ a) s0 :=
    .init ⟨_, _, h0⟩
  obtain ⟨s, hs, hp⟩ := hr.exists_of_run
    [.step (syncLogs 1 1 3), .ready [], .step { type := .campaign }, .run 0 .done, .run 0 .done,
      .step { type := .ping, fromNode := 2, term := 2 }]
    (fun s => s.inbox.map (·.index) = [3] ∧ s.node.flag .appending) (by cases h0; decide +kernel)
  exact ⟨s, hp.1, hp.2, flag_safe hs⟩

/-- A candidate ignores the response to its store request, and nothing will clear the flag. -/
theorem flag_safe_fails : ¬∀ d s, Reached d (fun _ _ => True) s → s.FlagSafe := by
  intro hall
  obtain ⟨s0, h0⟩ : ∃ s, follower = some s := ⟨_, rfl⟩
  have hr : Reached _ (fun _ _ => True) s0 := .init ⟨_, _, h0⟩
  obtain ⟨s, hs, hp⟩ := hr.exists_of_run
    [.step (syncLogs 1 1 3), .ready [], .step { type := .campaign }, .run 0 .done, .run 0 .done, .deliver 0]
    (fun s => s.node.queue.appending ∧ (∀ e ∈ s.node.events, e.type = .voteReq) ∧ s.pool = [] ∧ s.inbox = [])
    (by cases h0; decide +kernel)
  obtain ⟨ha, hev, hpool, hin⟩ := hp
  rcases (hall _ s hs).awaits .appending ha with ⟨q, hq, hx⟩ | ⟨u, hu, -⟩ | ⟨r, hr, -⟩
  · cases (hev q hq).symm.trans hx
  · rw [hpool] at hu
    cases hu
  · rw [hin] at hr
    cases hr

end Driven
end WuKongIM.Raft

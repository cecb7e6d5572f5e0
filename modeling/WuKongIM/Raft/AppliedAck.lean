import WuKongIM.Raft.OwnLogs
import WuKongIM.Raft.Roles

/-! What a call that waits for its application may conclude when it is woken. -/
namespace WuKongIM.Raft
open Lib List Option Driven

/-- Nothing behind the last log is persisted, read for an application, or applied. -/
def Driven.Clear (s : Driven) : Prop :=
  s.disk.lastIndex ≤ s.node.queue.lastLogIndex ∧ s.node.queue.appliedIndex ≤ s.node.queue.lastLogIndex ∧
    (∀ r ∈ s.inbox, r.type = .applyResp → r.reason = .ok → r.index ≤ s.node.queue.lastLogIndex) ∧
    ∀ t ∈ s.pool, t.req.type = .applyReq → lastIndexOf t.logs ≤ s.node.queue.lastLogIndex
  deriving Decidable

def Driven.called (s : Driven) : Driven.Action → Option (Task × Outcome)
  | .run k o => (s.pool[k]?).map fun t => (t, o)
  | _ => none

/-- A batch is written at most right behind the persisted log. -/
def Driven.NoGap (s : Driven) (t : Task) (o : Outcome) : Prop :=
  t.req.type = .storeReq → o = .done → (t.calls = 0 → t.req.termStartIndexInfo = none) →
    ∀ first ∈ t.req.logs.head?, first.index ≤ s.disk.lastIndex + 1
  deriving Decidable

namespace RaftServer
variable {d : Driver} {s t : RaftServer} {base : Nat} {reqs : List ProposeReq} {a : Driven.Action} {v : Driven}

/-- An event cuts nothing that a call still waits for. -/
def SparesWaiting (s : RaftServer) (e : Event) : Prop :=
  ∀ i ∈ s.driven.node.cutIndex e, ∀ p ∈ s.progresses, p.waiting = true → p.maxIndex ≤ i
  deriving Decidable

def sparesCalls (s : RaftServer) : Action → Bool
  | .driven a =>
    (s.driven.stepped a).all (fun e => decide (s.driven.SparesBatches e ∧ s.SparesWaiting e)) &&
      (s.driven.called a).all fun c => decide (s.driven.NoGap c.1 c.2)
  | .propose k => s.pause || (s.calls[k]?).all fun reqs =>
    decide (s.driven.node.queue.lastLogIndex + reqs.length ≤ maxUint64 ∧ s.driven.Clear)
  | _ => true

/-- Every log of a call that returned success was applied, and nothing else at its index. -/
def AckSafe (s : RaftServer) : Prop :=
  ∀ logs ∈ s.returned, ∀ l ∈ logs, (∃ x ∈ s.applied, x.index = l.index) ∧
    ∀ x ∈ s.applied, x.index = l.index → x.id = l.id ∧ x.data = l.data

/-- The logs of the calls that wait have their places to themselves, and the logs of the calls that
returned success are applied. -/
structure AckSound (base : Nat) (s : RaftServer) : Prop where
  store : s.driven.StoreSound
  numbered : Numbered 1 s.driven.disk.logs
  flight : ApplyFlight base s.driven s.applied
  role : s.driven.node.RoleSound
  calls : s.calls ≠ [] → s.driven.node.stepFunc ≠ .unknown
  waits : ∀ p ∈ s.progresses, p.waiting = true → ∀ l ∈ p.logs,
    l.index ≤ p.maxIndex ∧ base < l.index ∧ Own s.driven s.applied l
  returned : ∀ logs ∈ s.returned, ∀ l ∈ logs, base < l.index ∧
    l.index ≤ s.driven.node.queue.appliedIndex ∧ ∀ x ∈ s.applied, x.index = l.index → x = l

section
variable {n : Node} (hfits : n.queue.lastLogIndex + reqs.length ≤ maxUint64)
include hfits

private theorem fits_batchOf : n.queue.Fits (batchOf n reqs) := by
  rwa [Queue.Fits, batchOf, length_logsFrom]

private theorem numbered_batchOf : Numbered (n.queue.lastLogIndex + 1) (batchOf n reqs) := numbered_logsFrom _ _ _ hfits

private theorem cutIndex_propose : n.cutIndex { type := .propose, logs := batchOf n reqs } = none := by
  rw [Node.cutIndex, if_neg fun hx => hx.1 rfl, Node.cuts, if_neg fun hx => by cases hx.2.1]
  split
  · cases hb : batchOf n reqs with
    | nil => rfl
    | cons first rest => exact (Queue.append_next (hb ▸ numbered_batchOf hfits) (hb ▸ fits_batchOf hfits)).2
  · rfl

end

namespace AckSound

theorem ackSafe (h : s.AckSound base) : s.AckSafe := by
  intro logs hlogs l hl
  obtain ⟨hb, hi, hown⟩ := h.returned logs hlogs l hl
  refine ⟨h.flight.done l.index hb hi, fun x hx he => ?_⟩
  rw [hown x hx he]
  exact ⟨rfl, rfl⟩

private theorem numbered_step {u v : Driven} (hs : u.StoreSound) (hn : Numbered 1 u.disk.logs)
    (hok : ∀ c ∈ u.called a, u.NoGap c.1 c.2) (hst : u.step d a = some v) : Numbered 1 v.disk.logs := by
  cases moved_of_step hst with
  | run k o t ht disk p hp =>
    have hdisk : Numbered 1 disk.logs := by
      cases Driver.handle_call hp with
      | append hty ho hc =>
        obtain ⟨hne, rest, hrest⟩ := hs.flight.tasks t (mem_of_getElem? ht) hty
        have hb := (hrest ▸ hs.flight.numbered).left
        cases hl : t.req.logs with
        | nil => exact absurd hl hne
        | cons first tail =>
          have hgap := hok (t, o) (by rw [called, ht]; rfl) hty ho hc first (by rw [hl]; rfl)
          rw [hl] at hb
          rw [LogStorage.lastIndex_of_numbered hn, hb.1] at hgap
          rw [Nat.add_comm] at hb
          exact (hn.putAll hb (Nat.le_of_succ_le_succ hgap)).1
      | cut _ _ _ _ hcut =>
        obtain ⟨-, ⟨rfl, -⟩ | ⟨hl, -⟩⟩ := LogStorage.truncateLogTo_logs hn hcut
        · exact hn
        · rw [hl]
          exact hn.take _
      | _ => exact hn
    cases p <;> exact hdisk
  | _ => exact hn

private theorem drivenStep (hd : d.kind = .raft) (h : s.AckSound base)
    (hev : ∀ e ∈ s.driven.stepped a, s.driven.SparesBatches e ∧ s.SparesWaiting e)
    (hgap : ∀ c ∈ s.driven.called a, s.driven.NoGap c.1 c.2) (hst : s.driven.step d a = some v) :
    AckSound base { s with driven := v, applied := s.applied ++ appliedBy s.driven a } := by
  have hspare : s.driven.sparesBatches a := by
    cases a with
    | step e => exact decide_eq_true (hev e rfl).1
    | deliver k =>
      rw [sparesBatches]
      cases hr : s.driven.inbox[k]? with
      | none => rfl
      | some r => exact decide_eq_true (hev r hr).1
    | _ => rfl
  obtain ⟨hflight, hmono⟩ := h.flight.step hd h.store.one h.numbered hst
  have hrole : v.node.RoleSound ∧ (s.driven.node.stepFunc ≠ .unknown → v.node.stepFunc ≠ .unknown) := by
    cases moved_of_step hst with
    | step e he m err hm =>
      refine ⟨h.role.step hm, (Node.step_flagMove (fun hx => ?_) hm).role⟩
      rw [hx] at he
      cases he
    | tick m hm => exact ⟨h.role.tick hm, (Node.tick_flagMove hm).role⟩
    | ready lost m events hm =>
      have hr := h.role.ready hm
      have hf := (Node.ready_applies hm h.flight.quiet).2.2.2.1
      unfold takeOver
      dsimp only
      split
      · exact ⟨hr, fun hx => hf ▸ hx⟩
      · exact ⟨⟨hr.published, hr.role⟩, fun hx => hf ▸ hx⟩
    | run k o t ht disk p hp =>
      cases p <;> exact ⟨h.role, id⟩
    | deliver k r hr m err hm =>
      refine ⟨h.role.step hm, ?_⟩
      by_cases ht : r.type = .applyResp
      · obtain ⟨rfl, -⟩ := Node.step_applyResp ht (h.store.one.answers r (mem_of_getElem? hr)).2 hm
        exact id
      · exact (Node.step_flagMove ht hm).role
  refine ⟨h.store.step hspare hst, numbered_step h.store h.numbered hgap hst, hflight, hrole.1,
    fun hc => hrole.2 (h.calls hc), ?_, ?_⟩
  · intro p hp hw l hl
    obtain ⟨hle, hb, hown⟩ := h.waits p hp hw l hl
    refine ⟨hle, hb, hown.step h.store (fun e he => ⟨(hev e he).1, fun i hi => ?_⟩) hst⟩
    exact le_trans hle ((hev e he).2 i hi p hp hw)
  · intro logs hlogs l hl
    obtain ⟨hb, hi, hown⟩ := h.returned logs hlogs l hl
    refine ⟨hb, le_trans hi hmono, fun x hx he => ?_⟩
    rcases mem_append.mp hx with hx | hx
    · exact hown x hx he
    -- what is applied next lies behind the applied index
    have hlater : s.driven.node.queue.appliedIndex < x.index := by
      cases a with
      | run k o =>
        cases o with
        | done =>
          rw [appliedBy] at hx
          cases ht : s.driven.pool[k]? with
          | none =>
            rw [ht] at hx
            cases hx
          | some t =>
            rw [ht, filter_some] at hx
            split at hx
            · rename_i hty
              rw [Bool.and_eq_true, beq_iff_eq] at hty
              have := ((h.flight.tasks t (mem_of_getElem? ht) hty.1).2.mem_index hx).1
              omega
            · cases hx
        | _ => cases hx
      | _ => cases hx
    omega

private theorem didApply (h : s.AckSound base) : AckSound base (s.didApply s.driven.node.queue.appliedIndex) := by
  refine { h with waits := ?_, returned := ?_ }
  · intro p hp
    exact h.waits p (mem_filter.mp hp).1
  intro logs hlogs l hl
  rcases mem_append.mp hlogs with hlogs | hlogs
  · exact h.returned logs hlogs l hl
  obtain ⟨p, hp, rfl⟩ := mem_map.mp hlogs
  obtain ⟨hp, hw⟩ := mem_filter.mp hp
  obtain ⟨hwait, hmax⟩ := of_decide_eq_true hw
  obtain ⟨hle, hb, hown⟩ := h.waits p hp hwait l hl
  exact ⟨hb, le_trans hle hmax, hown.applied⟩

private theorem own_batch {m : Node} {l : Log} (h : s.AckSound base) (hclear : s.driven.Clear)
    (hv : v = { s.driven with node := m }) (hrole : s.driven.node.stepFunc ≠ .unknown)
    (hm : s.driven.node.step { type := .propose, logs := batchOf s.driven.node reqs } = some (m, none))
    (hfits : s.driven.node.queue.lastLogIndex + reqs.length ≤ maxUint64)
    (hl : l ∈ batchOf s.driven.node reqs) : base < l.index ∧ Own v s.applied l := by
  obtain ⟨hdisk, happlied, hanswers, hreads⟩ := hclear
  have hnum := numbered_batchOf hfits
  have hlater := (hnum.mem_index hl).1
  have hbase := h.flight.base_le
  subst hv
  refine ⟨by omega, ?_, ?_, ?_, ?_⟩
  · obtain ⟨hne, -⟩ | ⟨-, q, hq, hview⟩ := Node.step_propose hrole hm
    · exact absurd rfl hne
    rw [hview]
    intro _
    cases hb : batchOf s.driven.node reqs with
    | nil =>
      rw [hb] at hl
      cases hl
    | cons first rest =>
      rw [hb, (Queue.append_next (hb ▸ hnum) (hb ▸ fits_batchOf hfits)).1] at hq
      cases hq
      rw [hb] at hl
      exact mem_append_right _ hl
  · intro x hx he
    rw [LogStorage.lastIndex_of_numbered h.numbered] at hdisk
    have := (h.numbered.mem_index hx).2
    omega
  · intro t ht hty x hx he
    have hle := hreads t ht hty
    have := (lastIndexOf_numbered (h.flight.tasks t ht hty).2 hx).1
    omega
  · intro x hx he
    rcases h.flight.upper x hx with hle | ⟨r, hr, hty, hk, hle⟩
    · omega
    · have := hanswers r hr hty hk
      omega

private theorem proposeBatch (hd : d.kind = .raft) (h : s.AckSound base)
    (hrole : s.driven.node.stepFunc ≠ .unknown)
    (hok : s.pause = false → s.driven.node.queue.lastLogIndex + reqs.length ≤ maxUint64 ∧ s.driven.Clear)
    (hst : s.proposeBatch reqs = some t) : t.AckSound base := by
  unfold RaftServer.proposeBatch at hst
  split at hst
  · cases hst
    exact h
  rename_i hp
  obtain ⟨hfits, hclear⟩ := hok (Bool.not_eq_true _ ▸ hp)
  dsimp only at hst
  split at hst
  · cases hst
  rename_i last hlast
  obtain ⟨⟨m, err⟩, hm, rfl⟩ := map_eq_some_iff.mp hst
  have hnum := numbered_batchOf hfits
  have hend := hnum.index_of_getLast hlast
  have hlen : 0 < (batchOf s.driven.node reqs).length := length_pos_of_mem (mem_of_getLast? hlast)
  -- the proposal is a step of the node that cuts nothing
  have hnext : AckSound base { s with driven := { s.driven with node := m } } := by
    have hdriven : s.driven.step d (.step { type := .propose, logs := batchOf s.driven.node reqs }) =
        some { s.driven with node := m } := by
      change (s.driven.node.step _).map _ = _
      rw [hm]
      rfl
    have hev : ∀ e ∈ s.driven.stepped (.step { type := .propose, logs := batchOf s.driven.node reqs }),
        s.driven.SparesBatches e ∧ s.SparesWaiting e := by
      intro e he
      obtain rfl : _ = e := some.inj he
      refine ⟨⟨fun i hi => ?_, fun _ => fits_batchOf hfits⟩, fun i hi => ?_⟩
      · rw [cutIndex_propose hfits] at hi
        cases hi
      · rw [cutIndex_propose hfits] at hi
        cases hi
    have hnext := h.drivenStep hd hev (fun c hc => nomatch hc) hdriven
    change AckSound base { s with driven := { s.driven with node := m }, applied := s.applied ++ [] } at hnext
    rwa [append_nil] at hnext
  split
  · refine { hnext with waits := ?_ }
    intro p hp hw l hl
    rcases mem_append.mp hp with hp | hp
    · exact hnext.waits p hp hw l hl
    rw [mem_singleton.mp hp] at hw hl ⊢
    obtain rfl : err = none := isNone_iff_eq_none.mp hw
    have hle := (hnum.mem_index hl).2
    exact ⟨by dsimp only; omega, own_batch (s := s) h hclear rfl hrole hm hfits hl⟩
  · have := hclear.2.1
    omega

theorem step {a : Action} (hd : d.kind = .raft) (h : s.AckSound base) (hok : s.sparesCalls a)
    (hst : s.step d a = some t) : t.AckSound base := by
  cases a with
    rw [RaftServer.step] at hst
  | driven a =>
    split at hst
    · cases hst
    obtain ⟨v, hv, rfl⟩ := map_eq_some_iff.mp hst
    obtain ⟨hev, hgap⟩ := Bool.and_eq_true_iff.mp hok
    have hev : ∀ e ∈ s.driven.stepped a, s.driven.SparesBatches e ∧ s.SparesWaiting e := by
      intro e he
      rw [he] at hev
      exact of_decide_eq_true hev
    have hgap : ∀ c ∈ s.driven.called a, s.driven.NoGap c.1 c.2 := by
      intro c hc
      rw [hc] at hgap
      exact of_decide_eq_true hgap
    have hnext := h.drivenStep hd hev hgap hv
    split
    · exact hnext.didApply
    · exact hnext
  | pause | resume =>
    cases hst
    exact { h with }
  | call reqs =>
    split at hst
    · rename_i hlead
      cases hst
      refine { h with calls := fun _ hu => ?_ }
      obtain ⟨hlead, -⟩ := Bool.and_eq_true_iff.mp hlead
      rw [isLeader, Bool.and_eq_true, bne_iff_ne, beq_iff_eq, h.role.published] at hlead
      exact hlead.1 (hlead.2.trans (h.role.role hu hlead.2))
    · cases hst
  | propose k =>
    split at hst
    · cases hst
    rename_i reqs hreqs
    have hne : s.calls ≠ [] := ne_nil_of_mem (mem_of_getElem? hreqs)
    have hs : AckSound base { s with calls := s.calls.eraseIdx k } :=
      { h with calls := fun _ => h.calls hne }
    refine hs.proposeBatch hd (h.calls hne) (fun hp => ?_) hst
    rw [sparesCalls, show s.pause = false from hp, hreqs] at hok
    exact of_decide_eq_true hok
  | giveUp k =>
    split at hst
    · cases hst
    cases hst
    refine { h with waits := ?_ }
    intro w hw hwait
    rcases mem_or_eq_of_mem_set hw with hw | rfl
    · exact h.waits w hw hwait
    · cases hwait

end AckSound

abbrev Reached (d : Driver) (ok : RaftServer → Action → Prop) : RaftServer → Prop :=
  Reach (fun s => ∃ disk opts, Numbered 1 disk.logs ∧ start d disk opts = some s) (step d) ok

theorem start_ackSound {disk : LogStorage} {opts : Options} (hn : Numbered 1 disk.logs)
    (h : start d disk opts = some s) : ∃ base, s.AckSound base := by
  obtain ⟨u, hu, rfl⟩ := map_eq_some_iff.mp h
  have hflight := start_applyFlight hu
  have hstore := start_storeSound hu
  obtain ⟨n, hnode, rfl⟩ := map_eq_some_iff.mp hu
  refine ⟨_, hstore, ?_, hflight, newNode_roleSound hnode, fun hc => absurd rfl hc, nofun,
    nofun⟩
  rw [(disk.getState_eq d.storage).1]
  exact hn

/-- Over every run in which no cut reaches the logs of a call that waits, and a proposal finds
nothing behind the last log, a call that returns success has had its own logs applied. -/
theorem applied_ack {storage : StorageKind} {maxPerBatch : Nat}
    (h : Reached (raftDriver storage maxPerBatch) (fun s a => s.sparesCalls a = true) s) : s.AckSafe := by
  obtain ⟨base, hs⟩ : ∃ base, s.AckSound base :=
    h.invariant (fun s => ∃ base, s.AckSound base) (fun s ⟨disk, opts, hn, hs⟩ => start_ackSound hn hs)
      fun s a t ⟨base, hs⟩ hok ht => ⟨base, hs.step rfl hok ht⟩
  exact hs.ackSafe

def one : Option RaftServer := start (raftDriver .slot 0) {} { nodeId := 1, replicas := [1, 2, 3] }

def proposed : List Action :=
  [.driven (.step { type := .campaign }),
    .driven (.step { type := .voteResp, fromNode := 2, term := 2, reason := .ok }),
    .driven (.step { type := .voteResp, fromNode := 3, term := 2, reason := .ok }),
    .call [⟨7, [1]⟩], .propose 0, .call [⟨8, [2]⟩], .propose 0,
    .driven (.ready []), .driven (.run 0 .done), .driven (.run 0 .done), .driven (.deliver 0)]

/-- A follower stores both logs, and both calls return. -/
theorem applied_ack_two : ∃ s : RaftServer, s.returned.map (·.map (·.id)) = [[7], [8]] ∧ s.AckSafe := by
  obtain ⟨s0, h0⟩ : ∃ s, one = some s := ⟨_, rfl⟩
  have hr : Reached (raftDriver .slot 0) (fun s a => s.sparesCalls a) s0 := .init ⟨{}, _, trivial, h0⟩
  obtain ⟨s, hs, hp⟩ := hr.exists_of_run
    (proposed ++
      [.driven (.step { type := .syncReq, fromNode := 2, term := 2, index := 3, storedIndex := 3, reason := .onlySync }),
        .driven (.ready []), .driven (.run 0 .done), .driven (.run 0 .done), .driven (.deliver 0)])
    (fun s => s.returned.map (·.map (·.id)) = [[7], [8]]) (by cases h0; decide +kernel)
  exact ⟨s, hp, applied_ack hs⟩

/-- A new leader replaces the second log before it is applied: its call returns success all the
same. -/
theorem applied_ack_fails : ¬∀ s : RaftServer, Reached (raftDriver .slot 0) (fun _ _ => True) s → s.AckSafe := by
  intro hall
  obtain ⟨s0, h0⟩ : ∃ s, one = some s := ⟨_, rfl⟩
  have hr : Reached (raftDriver .slot 0) (fun _ _ => True) s0 := .init ⟨{}, _, trivial, h0⟩
  obtain ⟨s, hs, hp⟩ := hr.exists_of_run
    (proposed ++
      [.step { type := .ping, fromNode := 2, term := 3 }, .step (syncTruncate 3 1), .ready [],
        .run 0 .done, .run 0 .done, .deliver 0,
        .step (syncLogs 3 2 1), .ready [], .run 0 .done, .run 0 .done, .deliver 0,
        .step { type := .ping, fromNode := 2, term := 3, committedIndex := 2 }, .ready [], .run 0 .done, .run 0 .done,
        .deliver 0].map .driven)
    (fun s => ∃ logs ∈ s.returned, ∃ l ∈ logs, ∃ x ∈ s.applied, x.index = l.index ∧ x.id ≠ l.id) (by cases h0; decide +kernel)
  obtain ⟨logs, hlogs, l, hl, x, hx, hi, hne⟩ := hp
  exact hne (((hall s hs logs hlogs l hl).2 x hx hi).1)

end RaftServer
end WuKongIM.Raft

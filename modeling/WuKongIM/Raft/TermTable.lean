import WuKongIM.Raft.StoreSafety
import WuKongIM.Raft.TermStarts

/-! The persisted table of term starts against the persisted log, call by call and over whole runs
of a node with its driver. -/
namespace WuKongIM.Raft
open Lib List

/-- A batch on its way: the node already tracks the term that the batch starts, and the table
has the new start after the first call. -/
structure Writing (last : TermStartIndexInfo) (disk : LogStorage) (u : Task) : Prop where
  table : ∀ y, y ∈ disk.termStarts ↔ IsTermStart disk.logs y ∨ u.calls ≠ 0 ∧ y ∈ u.req.termStartIndexInfo
  tracks : ∃ x, Tracks disk.logs x ∧ Continues x.term u.req.logs u.req.termStartIndexInfo ∧
    last = u.req.termStartIndexInfo.getD x

/-- The table is exact whenever no batch is on its way to the storage. -/
structure TermTable (last : TermStartIndexInfo) (pool : List Task) (disk : LogStorage) : Prop where
  numbered : Numbered 1 disk.logs
  grows : TermsGrow disk.logs
  ordered : Ascending TermStartIndexInfo.term disk.termStarts
  idle : (∀ u ∈ pool, u.req.type ≠ .storeReq) →
    (∀ y, y ∈ disk.termStarts ↔ IsTermStart disk.logs y) ∧ Tracks disk.logs last
  busy : ∀ u ∈ pool, u.req.type = .storeReq → Writing last disk u

/-- A batch continues the log, and one that starts a term does not fail. -/
def StoreKeepsTerms (disk : LogStorage) (u : Task) (o : Outcome) : Prop :=
  u.req.type = .storeReq → (o = .done → ∀ l ∈ u.req.logs.head?, l.index = disk.lastIndex + 1) ∧
    (o ≠ .done → u.req.termStartIndexInfo = none)
  deriving Decidable

/-- A cut that takes effect is neither below the start of a term nor under a batch on its way. -/
def CutKeepsTerms (pool : List Task) (disk : LogStorage) (i : Nat) : Prop :=
  i < maxUint64 ∧ (disk.lastIndex ≤ i ∨ i < disk.appliedIndex ∨
    (∀ x ∈ disk.termStarts, x.index ≤ i) ∧ ∀ w ∈ pool, w.req.type ≠ .storeReq)
  deriving Decidable

/-- The second call of a truncation finds no later term than its request names, and there is a later
one. -/
def DeleteKeepsTerms (disk : LogStorage) (term : Nat) : Prop := term < maxUint32 ∧ ∀ x ∈ disk.termStarts, x.term ≤ term
  deriving Decidable

def CallKeepsTerms (pool : List Task) (disk : LogStorage) (u : Task) (o : Outcome) : Prop :=
  StoreKeepsTerms disk u o ∧
    (u.req.type = .truncateReq → o = .done →
      if u.calls = 0 then CutKeepsTerms pool disk u.req.index else DeleteKeepsTerms disk u.req.lastLogTerm)
  deriving Decidable

theorem DeleteKeepsTerms.termStarts {disk : LogStorage} {term : Nat} (h : DeleteKeepsTerms disk term) :
    (disk.deleteLeaderTermStartIndexGreaterThanTerm term).termStarts = disk.termStarts := by
  refine filter_eq_self.mpr fun x hx => decide_eq_true fun hfrom => ?_
  have hle := (of_decide_eq_true (mem_filter.mp hfrom).2).1
  rw [succ32_of_lt h.1] at hle
  exact absurd (h.2 x hx) (Nat.not_le.mpr hle)

/-- The logs that `Ready` would hand over. -/
def Node.nextBatch (n : Node) : List Log :=
  if n.queue.hasNextStoreLogs then n.queue.logs.take (n.queue.lastLogIndex - n.queue.storedIndex) else []

namespace TermTable
variable {last : TermStartIndexInfo} {pool : List Task} {inbox : List Event} {disk disk' : LogStorage} {k : Nat} {t : Task}
  {v : LogView}

private theorem of_same {pool' : List Task} (h : TermTable last pool disk)
    (hl : disk'.logs = disk.logs) (ht : disk'.termStarts = disk.termStarts)
    (hp : ∀ u, u.req.type = .storeReq → (u ∈ pool' ↔ u ∈ pool)) : TermTable last pool' disk' := by
  refine ⟨hl ▸ h.numbered, hl ▸ h.grows, ht ▸ h.ordered, fun hno => ?_, fun u hu hs => ?_⟩
  · rw [hl, ht]
    exact h.idle fun u hu hs => hno u ((hp u hs).mpr hu) hs
  · have hw := h.busy u ((hp u hs).mp hu) hs
    exact ⟨by rw [hl, ht]; exact hw.table, by rw [hl]; exact hw.tracks⟩

section
variable (h : TermTable last pool disk) (hone : inFlight pool inbox .storeReq ≤ 1) (hk : pool[k]? = some t)
include h hone hk

variable (ht : t.req.type = .storeReq)
include ht

private theorem termStart {info : TermStartIndexInfo} (hc : t.calls = 0)
    (hi : t.req.termStartIndexInfo = some info) (hb : Numbered (disk.logs.length + 1) t.req.logs) :
    TermTable last (pool.set k { t with calls := 1, logs := [] }) (disk.setLeaderTermStartIndex info) := by
  obtain ⟨htable, x, htr, hcont, hlast⟩ := h.busy t (mem_of_getElem? hk) ht
  have hset : (pool.set k { t with calls := 1, logs := [] })[k]? = some { t with calls := 1, logs := [] } := by
    rw [getElem?_set_self (List.getElem?_eq_some_iff.mp hk).1]
  have hone' : inFlight (pool.set k { t with calls := 1, logs := [] }) inbox .storeReq ≤ 1 := by
    refine le_trans (le_of_eq (inFlight_more hk ?_)) hone
    rfl
  have honly := (only_task hone' hset ht).1
  refine ⟨h.numbered, h.grows, h.ordered.put info, fun hno => ?_, fun u hu hs => ?_⟩
  · exact (hno _ (mem_set_self hk _) ht).elim
  rw [honly u hu hs]
  refine ⟨fun y => ?_, x, htr, hcont, hlast⟩
  change y ∈ put TermStartIndexInfo.term info disk.termStarts ↔ _ ∨ 1 ≠ 0 ∧ y ∈ t.req.termStartIndexInfo
  have hnew : IsTermStart disk.logs y → y.term ≠ info.term := by
    intro hy hx
    obtain ⟨l, hl, hterm⟩ := hy.mem_term
    have := Continues.lt_start hcont htr hb hi l hl
    omega
  rw [mem_put h.ordered, htable, hi]
  constructor
  · rintro (rfl | ⟨hy | ⟨hx, -⟩, -⟩)
    · exact .inr ⟨by decide, rfl⟩
    · exact .inl hy
    · exact absurd hc hx
  · rintro (hy | ⟨-, hy⟩)
    · exact .inr ⟨.inl hy, hnew hy⟩
    · cases hy
      exact .inl rfl

private theorem append (hc : t.calls = 0 → t.req.termStartIndexInfo = none)
    (hb : Numbered (disk.logs.length + 1) t.req.logs) :
    TermTable last (pool.eraseIdx k) (disk.appendLogs t.req.logs) := by
  obtain ⟨htable, x, htr, hcont, hlast⟩ := h.busy t (mem_of_getElem? hk) ht
  obtain ⟨hnone, -⟩ := not_mem_of_inFlight (inFlight_eraseIdx hone hk ht)
  have hlogs : (disk.appendLogs t.req.logs).logs = disk.logs ++ t.req.logs := h.numbered.putAll_append hb
  refine ⟨?_, ?_, h.ordered, fun _ => ⟨fun y => ?_, ?_⟩, fun u hu hs => absurd hs (hnone u hu)⟩
  · rw [hlogs]
    refine h.numbered.append ?_
    rwa [Nat.add_comm]
  · rw [hlogs]
    exact hcont.termsGrow htr hb h.numbered h.grows
  · rw [hlogs, hcont.isTermStart_iff htr hb h.numbered]
    refine (htable y).trans (or_congr_right ⟨And.right, fun hy => ⟨fun hx => ?_, hy⟩⟩)
    rw [hc hx] at hy
    cases hy
  · rw [hlogs, hlast]
    exact hcont.tracks htr hb h.numbered

private theorem giveUp (hi : t.req.termStartIndexInfo = none) : TermTable last (pool.eraseIdx k) disk := by
  obtain ⟨htable, x, htr, hcont, hlast⟩ := h.busy t (mem_of_getElem? hk) ht
  obtain ⟨hnone, -⟩ := not_mem_of_inFlight (inFlight_eraseIdx hone hk ht)
  rw [hi] at htable hlast
  refine { h with idle := fun _ => ⟨fun y => (htable y).trans ?_, ?_⟩, busy := fun u hu hs => absurd hs (hnone u hu) }
  · exact or_iff_left fun hx => nomatch hx.2
  · rw [hlast]
    exact htr

end

private theorem cut (h : TermTable last pool disk) (hno : ∀ w ∈ pool, w.req.type ≠ .storeReq)
    {i : Nat} (hi : ∀ x ∈ disk.termStarts, x.index ≤ i) (hl : disk'.logs = disk.logs.take i)
    (ht : disk'.termStarts = disk.termStarts) : TermTable last pool disk' := by
  obtain ⟨htable, htr⟩ := h.idle hno
  have hle : ∀ z, IsTermStart disk.logs z → z.index ≤ i := fun z hz => hi z ((htable z).mpr hz)
  refine ⟨hl ▸ h.numbered.take i, hl ▸ h.grows.take i, ht ▸ h.ordered, fun _ => ⟨fun y => ?_, ?_⟩,
    fun u hu hs => absurd hs (hno u hu)⟩
  · rw [hl, ht, isTermStart_take h.numbered hle]
    exact htable y
  · rw [hl]
    exact htr.take h.numbered hle

private theorem numbered_batch (hn : Numbered 1 disk.logs) (hf : StoreFlight v pool inbox) (hk : pool[k]? = some t)
    (ht : t.req.type = .storeReq) (hh : ∀ l ∈ t.req.logs.head?, l.index = disk.lastIndex + 1) :
    Numbered (disk.logs.length + 1) t.req.logs := by
  obtain ⟨hne, rest, hrest⟩ := hf.tasks t (mem_of_getElem? hk) ht
  have hb := (hrest ▸ hf.numbered).left
  cases hl : t.req.logs with
  | nil => exact absurd hl hne
  | cons first tail =>
    rw [hl] at hb hh
    have h1 := hb.1
    have h2 := hh first rfl
    rw [LogStorage.lastIndex_of_numbered hn] at h2
    rwa [← h2, h1]

theorem call {d : Driver} {o : Outcome} {p : Progress} (h : TermTable last pool disk) (hf : StoreFlight v pool inbox)
    (hone : inFlight pool inbox .storeReq ≤ 1) (hk : pool[k]? = some t)
    (hok : CallKeepsTerms pool disk t o) (hc : d.Call disk t o disk' p) : match p with
    | .more t' => TermTable last (pool.set k t') disk'
    | .response _ => TermTable last (pool.eraseIdx k) disk' := by
  cases hc with
  | storeFails ht ho r => exact h.giveUp hone hk ht ((hok.1 ht).2 ho)
  | termStart ht ho hc info hi =>
    exact h.termStart hone hk ht hc hi (numbered_batch h.numbered hf hk ht ((hok.1 ht).1 ho))
  | append ht ho hc => exact h.append hone hk ht hc (numbered_batch h.numbered hf hk ht ((hok.1 ht).1 ho))
  | cutFails ht | fetched ht => exact h.of_same rfl rfl (mem_erase_other hk fun hx => nomatch ht.symm.trans hx)
  | cut ht ho hc _ hcut =>
    have hkeep := hok.2 ht ho
    rw [if_pos hc] at hkeep
    have hother : ∀ u, u.req.type = .storeReq → (u ∈ pool.set k { t with calls := 1, logs := [] } ↔ u ∈ pool) :=
      mem_set_other hk rfl fun hx => nomatch ht.symm.trans hx
    obtain ⟨htab, ⟨rfl, -⟩ | ⟨hl, happ⟩⟩ := LogStorage.truncateLogTo_logs h.numbered hcut
    · exact h.of_same rfl rfl hother
    obtain ⟨hmax, hkeep⟩ := hkeep
    rw [add64_of_le hmax, Nat.add_sub_cancel] at hl
    rcases hkeep with hle | hlt | ⟨hi, hno⟩
    · rw [LogStorage.lastIndex_of_numbered h.numbered] at hle
      exact h.of_same (hl.trans (take_of_length_le hle)) htab hother
    · exact absurd happ (Nat.not_le.mpr hlt)
    · exact (h.cut hno hi hl htab).of_same rfl rfl hother
  | cutDone ht ho hc =>
    have hkeep := hok.2 ht ho
    rw [if_neg hc] at hkeep
    exact h.of_same rfl hkeep.termStarts (mem_erase_other hk fun hx => nomatch ht.symm.trans hx)
  | fetching ht | applying ht => exact h.of_same rfl rfl (mem_set_other hk rfl fun hx => nomatch ht.symm.trans hx)
  | applyFails ht | applyUnneeded ht | applied ht =>
    exact h.of_same rfl rfl (mem_erase_other hk fun hx => nomatch ht.symm.trans hx)

theorem ready {s : Driven} {m : Node} {events : List Event} {lost : List Nat}
    (h : TermTable s.node.lastTermStartIndex s.pool disk) (hs : s.StoreSound) (hr : s.node.ready = some (m, events))
    (hok : OneNewTerm s.node.lastTermStartIndex.term s.node.nextBatch (s.node.termStartOf s.node.nextBatch))
    (hlost : lost = [] ∨ s.node.termStartOf s.node.nextBatch = none) :
    TermTable m.lastTermStartIndex (s.takeOver m events lost).pool disk := by
  obtain ⟨hnone, hv, -⟩ | ⟨hdue, -, -, hv, hev⟩ := Node.ready_logView hr
  · have hlast : m.lastTermStartIndex = s.node.lastTermStartIndex := congrArg LogView.lastTermStartIndex hv
    rw [hlast]
    refine h.of_same rfl rfl fun u hu => ⟨fun hm => ?_, fun hm => mem_append_left _ hm⟩
    obtain hm | ⟨-, hdue, hne, -⟩ := StoreFlight.mem_ready hs.one hr hm hu
    · exact hm
    · simp_all
  · have hb : s.node.nextBatch = s.node.queue.logs.take (s.node.queue.lastLogIndex - s.node.queue.storedIndex) := by
      rw [Node.nextBatch, if_pos hdue]
    have hlast : m.lastTermStartIndex = (s.node.termStartOf s.node.nextBatch).getD s.node.lastTermStartIndex := by
      rw [hb]
      exact congrArg LogView.lastTermStartIndex hv
    rw [← hb] at hev
    -- nothing was on its way, so the node tracks the persisted log
    have hfree : inFlight s.pool s.inbox .storeReq = 0 := by
      have ha : s.node.logView.appending = false := Node.appending_of_due hdue
      have := hs.one.stores
      rw [ha] at this
      exact Nat.le_zero.mp this
    have hnone := (not_mem_of_inFlight hfree).1
    obtain ⟨htable, htr⟩ := h.idle hnone
    have hcont := continues_termStartOf (hb ▸ (hs.flight.sound.numbered.take _)) hok
    refine { h with idle := fun hno => ⟨htable, ?_⟩, busy := fun u hu ht => ?_ }
    · have hstart : s.node.termStartOf s.node.nextBatch = none := by
        refine hlost.resolve_left ?_
        rintro rfl
        have hmem : s.node.storeReqOf s.node.nextBatch ∈ events.filter fun e => isOrder e.type := by
          rw [hev]
          exact mem_append_right _ (mem_singleton_self _)
        refine hno (Driven.taskOf m (s.node.storeReqOf s.node.nextBatch)) ?_ rfl
        rw [Driven.takeOver_pool, Driven.requestsOf_nil]
        exact mem_append_right _ (mem_map_of_mem (mem_filter.mpr ⟨(mem_filter.mp hmem).1, rfl⟩))
      rw [hlast, hstart]
      exact htr
    · obtain hu | ⟨hc, -, -, hreq⟩ := StoreFlight.mem_ready hs.one hr hu ht
      · exact absurd ht (hnone u hu)
      rw [← hb] at hreq
      refine ⟨fun y => (htable y).trans ?_, s.node.lastTermStartIndex, htr, ?_, ?_⟩
      · exact (or_iff_left fun hx => hx.1 hc).symm
      · rw [hreq]
        exact hcont
      · rw [hreq]
        exact hlast

end TermTable

namespace Driven
variable {d : Driver} {s t : Driven} {disk : LogStorage} {a : Action}

/-- `Ready` takes a batch with at most one new term, and does not lose it then. -/
def ReadyKeepsTerms (s : Driven) (lost : List Nat) : Prop :=
  OneNewTerm s.node.lastTermStartIndex.term s.node.nextBatch (s.node.termStartOf s.node.nextBatch) ∧
    (lost = [] ∨ s.node.termStartOf s.node.nextBatch = none)
  deriving Decidable

def keepsTerms (s : Driven) : Action → Bool
  | .step e => decide (s.SparesBatches e)
  | .deliver k => (s.inbox[k]?).all fun r => decide (s.SparesBatches r)
  | .ready lost => decide (s.ReadyKeepsTerms lost)
  | .run k o => (s.pool[k]?).all fun u => decide (CallKeepsTerms s.pool s.disk u o)
  | .tick => true

theorem sparesBatches_of_keepsTerms (h : s.keepsTerms a) : s.sparesBatches a := by
  cases a with
  | step e | deliver k => exact h
  | _ => rfl

structure TermSound (s : Driven) : Prop where
  store : s.StoreSound
  table : TermTable s.node.lastTermStartIndex s.pool s.disk

theorem TermSound.step (h : s.TermSound) (hok : s.keepsTerms a) (hst : s.step d a = some t) : t.TermSound := by
  refine ⟨h.store.step (sparesBatches_of_keepsTerms hok) hst, ?_⟩
  cases moved_of_step hst with
  | step e he m err hm | deliver k r hr m err hm =>
    rw [Node.lastTermStartIndex_step hm]
    exact h.table
  | tick m hm =>
    have hv : m.lastTermStartIndex = s.node.lastTermStartIndex :=
      congrArg LogView.lastTermStartIndex (Node.logView_tick hm)
    rw [hv]
    exact h.table
  | ready lost m events hm =>
    obtain ⟨hnew, hlost⟩ := of_decide_eq_true hok
    have hv : (s.takeOver m events lost).node.lastTermStartIndex = m.lastTermStartIndex :=
      congrArg LogView.lastTermStartIndex (s.takeOver_logView m events lost)
    rw [hv]
    exact h.table.ready h.store hm hnew hlost
  | run k o u hu disk p hp =>
    have hcall : CallKeepsTerms s.pool s.disk u o := by
      rw [keepsTerms, hu] at hok
      exact of_decide_eq_true hok
    have := h.table.call h.store.flight (OneFlight.stores_le h.store.one) hu hcall (Driver.handle_call hp)
    cases p with
    | more u' | response x => exact this

/-- A storage as earlier runs leave it: no gap, terms from one on that do not fall, and an exact
table. -/
structure ExactStorage (disk : LogStorage) : Prop where
  numbered : Numbered 1 disk.logs
  grows : TermsGrow disk.logs
  positive : ∀ l ∈ disk.logs, 1 ≤ l.term
  ordered : Ascending TermStartIndexInfo.term disk.termStarts
  exact : ∀ y, y ∈ disk.termStarts ↔ IsTermStart disk.logs y

private theorem ExactStorage.tracks (he : ExactStorage disk) :
    Tracks disk.logs ⟨if disk.lastTerm = 0 then 1 else disk.lastTerm, disk.getTermStartIndex disk.lastTerm⟩ := by
  intro hne
  obtain ⟨a, ha, hlast⟩ := exists_lastTerm hne
  have hpos := he.positive a ha
  rw [if_neg (by omega)]
  obtain ⟨y, hy, hstart⟩ := exists_isTermStart he.numbered ha
  have hmem := (he.exact y).mpr hstart
  unfold LogStorage.getTermStartIndex
  cases hf : disk.termStarts.find? fun z => z.term = disk.lastTerm with
  | none => exact absurd (decide_eq_true (hy.trans hlast)) (find?_eq_none.mp hf y hmem)
  | some z =>
    have hz : z.term = disk.lastTerm := by simpa using find?_some hf
    rw [← hz]
    refine ⟨(he.exact z).mp (mem_of_find?_eq_some hf), fun l hl => ?_⟩
    rw [hz]
    exact le_lastTerm he.numbered he.grows hl

theorem start_termSound {opts : Options} (he : ExactStorage disk) (h : start d disk opts = some s) :
    s.TermSound := by
  refine ⟨start_storeSound h, ?_⟩
  obtain ⟨n, hnode, rfl⟩ := Option.map_eq_some_iff.mp h
  obtain ⟨hl, htab, -, hlast⟩ := disk.getState_eq d.storage
  have hlts := congrArg LogView.lastTermStartIndex (newNode_logView hnode)
  change n.lastTermStartIndex = _ at hlts
  rw [hlast] at hlts
  refine ⟨hl ▸ he.numbered, hl ▸ he.grows, htab ▸ he.ordered, fun _ => ⟨?_, ?_⟩, forall_mem_nil _⟩
  · rw [hl, htab]
    exact he.exact
  · rw [hl, hlts, LogStorage.getTermStartIndex, htab]
    exact he.tracks

def NothingInFlight (s : Driven) : Prop :=
  inFlight s.pool s.inbox .storeReq = 0 ∧ s.node.logView.orders.length + inFlight s.pool s.inbox .truncateReq = 0

/-- The table has the start of each term of the log and nothing else, and the node tracks the last
one. -/
structure TermsExact (s : Driven) : Prop where
  table : ∀ y, y ∈ s.disk.termStarts ↔ IsTermStart s.disk.logs y
  last : s.disk.logs ≠ [] → s.node.lastTermStartIndex ∈ s.disk.termStarts ∧ s.node.lastTermStartIndex.term = s.disk.lastTerm

/-- Whenever nothing is in flight, the table is exact: over every run in which batches start at
most one term each and cuts stay behind the start of the last term. -/
theorem terms_exact
    (h : Reach (fun s => ∃ disk opts, ExactStorage disk ∧ start d disk opts = some s) (step d)
      (fun s a => s.keepsTerms a = true) s) (hn : s.NothingInFlight) : s.TermsExact := by
  have hs : s.TermSound := h.invariant TermSound (fun s ⟨disk, opts, he, hs⟩ => start_termSound he hs)
    fun s a t hs hok ht => hs.step hok ht
  obtain ⟨htable, htr⟩ := hs.table.idle (not_mem_of_inFlight hn.1).1
  refine ⟨htable, fun hne => ⟨(htable _).mpr (htr hne).1, ?_⟩⟩
  exact htr.term_eq hs.table.numbered hs.table.grows hne

private theorem exactStorage_empty : ExactStorage {} := by
  refine ⟨trivial, nofun, nofun, Pairwise.nil, fun y => ?_⟩
  exact ⟨nofun, fun hy => (nomatch hy.1)⟩

/-- Two batches of two terms and a cut behind the start of the second term. -/
theorem terms_exact_two : ∃ s : Driven, s.disk.logs.map (·.term) = [1, 1, 2] ∧ s.TermsExact := by
  obtain ⟨s0, h0⟩ : ∃ s, follower = some s := ⟨_, rfl⟩
  have hr : Reach (fun s => ∃ disk opts, ExactStorage disk ∧ start ⟨.raft, .slot, 0, false⟩ disk opts = some s)
      (step ⟨.raft, .slot, 0, false⟩) (fun s a => s.keepsTerms a) s0 := .init ⟨_, _, exactStorage_empty, h0⟩
  obtain ⟨s, hs, hp⟩ := hr.exists_of_run
    [.step (syncLogs 1 1 2), .ready [], .run 0 .done, .run 0 .done, .deliver 0,
      .step (syncLogs 2 3 2), .ready [], .run 0 .done, .run 0 .done, .deliver 0,
      .step (syncTruncate 2 3), .ready [], .run 0 .done, .run 0 .done, .deliver 0]
    (fun s => s.disk.logs.map (·.term) = [1, 1, 2] ∧ inFlight s.pool s.inbox .storeReq = 0 ∧
      s.node.logView.orders.length + inFlight s.pool s.inbox .truncateReq = 0) (by cases h0; decide +kernel)
  exact ⟨s, hp.1, terms_exact hs hp.2⟩

/-- One batch with logs of two terms: the start of the second term is recorded nowhere. -/
theorem terms_exact_fails : ¬∀ d s, Reach (fun s => ∃ disk opts, ExactStorage disk ∧ start d disk opts = some s) (step d)
    (fun _ _ => True) s → s.NothingInFlight → s.TermsExact := by
  intro hall
  obtain ⟨s0, h0⟩ : ∃ s, follower = some s := ⟨_, rfl⟩
  have hr : Reach (fun s => ∃ disk opts, ExactStorage disk ∧ start ⟨.raft, .slot, 0, false⟩ disk opts = some s)
      (step ⟨.raft, .slot, 0, false⟩) (fun _ _ => True) s0 := .init ⟨_, _, exactStorage_empty, h0⟩
  obtain ⟨s, hs, hp⟩ := hr.exists_of_run
    [.step { syncLogs 2 1 0 with logs := logsOf 1 1 1 ++ logsOf 2 2 1 }, .ready [], .run 0 .done, .run 0 .done, .deliver 0]
    (fun s => (inFlight s.pool s.inbox .storeReq = 0 ∧
      s.node.logView.orders.length + inFlight s.pool s.inbox .truncateReq = 0) ∧
      s.disk.logs ≠ [] ∧ s.node.lastTermStartIndex.term ≠ s.disk.lastTerm) (by cases h0; decide +kernel)
  exact hp.2.2 ((hall _ s hs hp.1).last hp.2.1).2

end Driven

end WuKongIM.Raft

import WuKongIM.Raft.OneFlight

/-! A batch on its way to the storage and the queue it was taken from. As long as no cut
reaches into such a batch, its response finds the batch at the head of the queue. -/
namespace WuKongIM.Raft
open Lib List

def Node.cuts (n : Node) (e : Event) : Option Nat :=
  if n.synchronises ∧ e.type = .truncateResp ∧ e.reason = .ok ∧ e.index < n.queue.lastLogIndex then some e.index
  else if n.appends e then n.queue.overlap e.logs
  else none

/-- Where an event makes a node cut its queue; a lower term is rejected before. -/
def Node.cutIndex (n : Node) (e : Event) : Option Nat :=
  if e.term ≠ 0 ∧ e.term < n.cfg.term then none else (n.enterTerm e).cuts e

theorem Node.queue_enterTerm (n : Node) (e : Event) : (n.enterTerm e).queue = n.queue := (n.enterTerm_frame e).2.2.1

/-- The batches between the queue and the storage are heads of the queue. -/
structure StoreFlight (v : LogView) (pool : List Task) (inbox : List Event) : Prop where
  last : v.lastLogIndex = v.storedIndex + v.logs.length
  numbered : Numbered (v.storedIndex + 1) v.logs
  tasks : ∀ t ∈ pool, t.req.type = .storeReq → t.req.logs ≠ [] ∧ t.req.logs <+: v.logs
  stored : ∀ r ∈ inbox, r.type = .storeResp → r.reason = .ok →
    (r.logs ≠ [] ∧ r.logs <+: v.logs) ∧ r.index = lastIndexOf r.logs

/-- A cut at `i` spares the queue: the batches in flight stay, and so does the numbering. -/
def SparesFlight (q : Queue) (pool : List Task) (inbox : List Event) (i : Nat) : Prop :=
  q.CutSafe i ∧ (∀ t ∈ pool, t.req.type = .storeReq → lastIndexOf t.req.logs ≤ i) ∧
    ∀ r ∈ inbox, r.type = .storeResp → r.reason = .ok → lastIndexOf r.logs ≤ i
  deriving Decidable

theorem lastIndexOf_head {start : Nat} {logs batch : List Log} (hn : Numbered (start + 1) logs)
    (hp : batch <+: logs) (hne : batch ≠ []) : lastIndexOf batch = start + batch.length := by
  obtain ⟨rest, rfl⟩ := hp
  have hl : batch.getLast? = some (batch.getLast hne) := getLast?_eq_some_getLast hne
  have := hn.left.index_of_getLast hl
  rw [lastIndexOf, hl]
  change (batch.getLast hne).index = start + batch.length
  omega

namespace StoreFlight
variable {n : Node} {e : Event} {v : LogView} {pool : List Task} {inbox : List Event} {k i : Nat} {t : Task} {q : Queue} {b : Bool}

theorem sound (h : StoreFlight n.logView pool inbox) : n.queue.Sound := ⟨h.last, h.numbered⟩

private theorem withQueue (h : StoreFlight v pool inbox) (hq : q.Sound) (hp : ∀ batch, batch ≠ [] ∧ batch <+: v.logs →
      ((∃ t ∈ pool, t.req.type = .storeReq ∧ t.req.logs = batch) ∨
        ∃ r ∈ inbox, r.type = .storeResp ∧ r.reason = .ok ∧ r.logs = batch) → batch <+: q.logs) :
    StoreFlight ({ v with truncating := b }.withQueue q) pool inbox where
  last := hq.last
  numbered := hq.numbered
  tasks t ht hr :=
    have hb := h.tasks t ht hr
    ⟨hb.1, hp _ hb (.inl ⟨t, ht, hr, rfl⟩)⟩
  stored r hr hs hk :=
    have hb := h.stored r hr hs hk
    ⟨⟨hb.1.1, hp _ hb.1 (.inr ⟨r, hr, hs, hk, rfl⟩)⟩, hb.2⟩

section
variable (h : StoreFlight n.logView pool inbox)
include h

theorem cut (hi : SparesFlight n.queue pool inbox i) (hq : n.queue.truncateLogTo i = some q) :
    StoreFlight ({ n.logView with truncating := b }.withQueue q) pool inbox := by
  have hsound := h.sound.truncateLogTo hi.1 hq
  refine h.withQueue hsound.1 ?_
  rintro batch ⟨hne, hp⟩ hm
  have hle : lastIndexOf batch ≤ i := by
    rcases hm with ⟨t, ht, hr, rfl⟩ | ⟨r, hr, hs, hk, rfl⟩
    · exact hi.2.1 t ht hr
    · exact hi.2.2 r hr hs hk
  rw [lastIndexOf_head h.numbered hp hne] at hle
  -- a batch in flight keeps the cut above the stored index, where the queue is cut for real
  have hge : n.queue.storedIndex ≤ i := le_trans (Nat.le_add_right _ _) hle
  unfold Queue.truncateLogTo at hq
  rw [if_neg (Nat.not_lt.mpr hi.1.1), if_neg (Nat.not_lt.mpr hge)] at hq
  split at hq
  · cases hq
  cases hq
  rw [prefix_take_iff]
  refine ⟨hp, ?_⟩
  change n.queue.storedIndex + batch.length ≤ i at hle
  omega

theorem append {err : Option RaftError}
    (hi : ∀ i ∈ n.queue.overlap e.logs, SparesFlight n.queue pool inbox i) (hfits : n.queue.Fits e.logs)
    (hq : n.queue.append e.logs = some (q, err)) : StoreFlight (n.logView.withQueue q) pool inbox := by
  obtain rfl | ⟨first, rest, hl, hn, hfirst, rfl⟩ | ⟨first, rest, i, k, hl, hn, hfirst, ho, ht, rfl⟩ :=
    Queue.append_cases_of_fits hq hfits
  · exact h
  · rw [hl] at hn ⊢
    exact h.withQueue (h.sound.extend hn hfirst) fun batch hb _ => hb.2.trans (prefix_append _ _)
  · have hs := hi _ ho
    have hcut := h.cut (b := n.truncating) hs ht
    have hk := h.sound.truncateLogTo hs.1 ht
    have hfirst : first.index = k.lastLogIndex + 1 := by rw [hk.2, hfirst hs.1.1]
    rw [hl] at hn ⊢
    exact hcut.withQueue (hk.1.extend hn hfirst) fun batch hb _ => hb.2.trans (prefix_append _ _)

theorem storeTo (h0 : inFlight pool inbox .storeReq = 0)
    (he : (e.logs ≠ [] ∧ e.logs <+: n.queue.logs) ∧ e.index = lastIndexOf e.logs) (hq : n.queue.storeTo e.index = some q) :
    StoreFlight ({ n.logView with appending := false }.withQueue q) pool inbox ∧
      n.queue.logs = e.logs ++ q.logs ∧ q.storedIndex = e.index := by
  obtain ⟨⟨hne, rest, hrest⟩, hi⟩ := he
  rw [hi, lastIndexOf_head h.sound.numbered ⟨rest, hrest⟩ hne] at hq ⊢
  rw [h.sound.storeTo hrest.symm hne] at hq
  cases hq
  have hs := h.sound.stored hrest.symm
  obtain ⟨hp, hb⟩ := not_mem_of_inFlight h0
  exact ⟨⟨hs.last, hs.numbered, fun t ht hr => absurd hr (hp t ht), fun r hr hs => absurd hs (hb r hr)⟩, hrest.symm, rfl⟩

theorem logMove (hcut : ∀ i ∈ n.cuts e, SparesFlight n.queue pool inbox i)
    (hfits : n.appends e → n.queue.Fits e.logs)
    (hstore : e.type = .storeResp → inFlight pool inbox .storeReq = 0 ∧
      (e.reason = .ok → (e.logs ≠ [] ∧ e.logs <+: n.queue.logs) ∧ e.index = lastIndexOf e.logs))
    (hm : LogMove n e v) : StoreFlight v pool inbox := by
  cases hm with
  | same => exact h
  | append q err ha hq =>
    refine h.append (fun i hi => hcut i ?_) (hfits ha) hq
    have hne : e.type ≠ .truncateResp := by
      intro hx
      rw [Node.appends, hx] at ha
      simp at ha
    rw [Node.cuts, if_neg fun hx => hne hx.2.1, if_pos ha]
    exact hi
  | order | uncut | unstored => exact { h with }
  | cut q hs he hi hq =>
    refine h.cut (hcut _ ?_) hq
    rw [Node.cuts, if_pos ⟨hs, he.1, he.2, hi⟩]
    rfl
  | stored q hs he hi hq =>
    obtain ⟨h0, hr⟩ := hstore he.1
    exact (h.storeTo h0 (hr he.2) hq).1

end

section
variable (h : StoreFlight v pool inbox)
include h

theorem more {t' : Task} (hk : pool[k]? = some t) (ht : t'.req = t.req) : StoreFlight v (pool.set k t') inbox := by
  refine { h with tasks := ?_ }
  intro u hu
  rcases mem_or_eq_of_mem_set hu with hu | rfl
  · exact h.tasks u hu
  · rw [ht]
    exact h.tasks t (mem_of_getElem? hk)

theorem answer {d : Driver} {disk disk' : LogStorage} {o : Outcome} {r : Event}
    (hk : pool[k]? = some t) (hc : d.Call disk t o disk' (.response r)) :
    StoreFlight v (pool.eraseIdx k) (inbox ++ [r]) := by
  refine ⟨h.last, h.numbered, fun u hu => h.tasks u (mem_of_mem_eraseIdx hu), ?_⟩
  intro x hx hs hr
  rcases mem_append.mp hx with hx | hx
  · exact h.stored x hx hs hr
  rw [mem_singleton.mp hx] at hs hr ⊢
  have ht : t.req.type = .storeReq := by
    have hb := answerType_beq .storeReq rfl t.req.type
    rw [← hc.response_type.1, hs] at hb
    exact beq_iff_eq.mp hb.symm
  obtain ⟨hl, hi⟩ := hc.stored ht hr
  rw [hl]
  exact ⟨h.tasks t (mem_of_getElem? hk) ht, hi⟩

theorem taken : StoreFlight v pool (inbox.eraseIdx k) :=
  { h with stored := fun x hx => h.stored x (mem_of_mem_eraseIdx hx) }

end

section
variable {s : Driven} {m : Node} {events : List Event} {lost : List Nat} (ho : OneFlight s.node.logView s.pool s.inbox)
  (hr : s.node.ready = some (m, events))
include ho hr

theorem mem_ready (hu : u ∈ (s.takeOver m events lost).pool) (ht : u.req.type = .storeReq) :
    u ∈ s.pool ∨ u.calls = 0 ∧ s.node.queue.hasNextStoreLogs ∧
      s.node.queue.logs.take (s.node.queue.lastLogIndex - s.node.queue.storedIndex) ≠ [] ∧
      u.req = s.node.storeReqOf (s.node.queue.logs.take (s.node.queue.lastLogIndex - s.node.queue.storedIndex)) := by
  obtain hu | ⟨hc, hu⟩ := Driven.mem_takeOver hu (by rw [ht]; rfl)
  · exact .inl hu
  have hnot (hu : u.req ∈ s.node.logView.orders) : False := nomatch (ho.orders _ hu).symm.trans ht
  obtain ⟨-, -, hev⟩ | ⟨hdue, -, hne, -, hev⟩ := Node.ready_logView hr
  · exact (hnot (hev ▸ hu)).elim
  · rw [hev] at hu
    exact .inr ⟨hc, hdue, hne, mem_singleton.mp ((mem_append.mp hu).resolve_left hnot)⟩

theorem ready (h : StoreFlight s.node.logView s.pool s.inbox) :
    StoreFlight m.logView (s.takeOver m events lost).pool s.inbox := by
  have htasks : ∀ u ∈ (s.takeOver m events lost).pool, u.req.type = .storeReq →
      u.req.logs ≠ [] ∧ u.req.logs <+: s.node.logView.logs := by
    intro u hu ht
    obtain hu | ⟨-, -, hne, hreq⟩ := mem_ready ho hr hu ht
    · exact h.tasks u hu ht
    · rw [hreq]
      exact ⟨hne, take_prefix _ _⟩
  obtain ⟨-, hv, -⟩ | ⟨-, -, -, hv, -⟩ := Node.ready_logView hr
  all_goals
    rw [hv]
    exact { h with tasks := htasks }

end

end StoreFlight
end WuKongIM.Raft

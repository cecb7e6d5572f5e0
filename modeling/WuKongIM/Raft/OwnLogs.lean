import WuKongIM.Raft.ApplyFlight
import WuKongIM.Raft.StoreSafety

/-! A log that a node has put at an index stays the only one there, in memory, on disk and for the
state machine, as long as no cut reaches it. -/
namespace WuKongIM.Raft
open Lib List

/-- The log is in memory unless its index counts as stored. -/
def LogView.Holds (v : LogView) (l : Log) : Prop := v.storedIndex < l.index → l ∈ v.logs

variable {n : Node} {v : LogView} {q q' : Queue} {i : Nat} {e : Event} {l : Log}

private theorem LogView.Holds.cut (hs : q.Sound) (hi : i ≤ q.lastLogIndex) (hl : l.index ≤ i)
    (h : q.storedIndex < l.index → l ∈ q.logs)
    (hq : q.truncateLogTo i = some q') : q'.storedIndex < l.index → l ∈ q'.logs := by
  intro hlt
  unfold Queue.truncateLogTo at hq
  rw [if_neg (Nat.not_lt.mpr hi)] at hq
  split at hq
  · cases hq
    exact absurd hlt (Nat.not_lt.mpr hl)
  split at hq
  · cases hq
  cases hq
  have htake := hs.numbered.filter_le i
  rw [Nat.add_sub_add_right] at htake
  rw [← htake]
  exact mem_filter.mpr ⟨h hlt, decide_eq_true hl⟩

theorem LogView.Holds.logMove (h : n.logView.Holds l) (hs : n.queue.Sound)
    (hcut : ∀ i ∈ n.cuts e, i ≤ n.queue.lastLogIndex ∧ l.index ≤ i)
    (hstore : e.type = .storeResp → e.reason = .ok → (e.logs ≠ [] ∧ e.logs <+: n.queue.logs) ∧ e.index = lastIndexOf e.logs)
    (hm : LogMove n e v) : v.Holds l := by
  cases hm with
  | same | order | uncut | unstored => exact h
  | append q err ha hq =>
    have hno : ¬(n.synchronises ∧ e.type = .truncateResp ∧ e.reason = .ok ∧ e.index < n.queue.lastLogIndex) := by
      rintro ⟨-, hx, -⟩
      rw [Node.appends, hx] at ha
      simp at ha
    obtain rfl | ⟨first, rest, -, -, -, rfl⟩ | ⟨first, rest, k, -, -, ho, ht, rfl⟩ := Queue.append_cases hq
    · exact h
    · exact fun hlt => mem_append_left _ (h hlt)
    · obtain ⟨hi, hl⟩ := hcut _ (by rw [Node.cuts, if_neg hno, if_pos ha]; exact ho)
      exact fun hlt => mem_append_left _ (cut hs hi hl h ht hlt)
  | cut q hy he hi hq =>
    obtain ⟨hle, hl⟩ := hcut _ (by rw [Node.cuts, if_pos ⟨hy, he.1, he.2, hi⟩]; rfl)
    exact cut hs hle hl h hq
  | stored q _ he _ hq =>
    obtain ⟨⟨hne, rest, hrest⟩, hi⟩ := hstore he.1 he.2
    have hend := lastIndexOf_head hs.numbered ⟨rest, hrest⟩ hne
    rw [hi, hend, hs.storeTo hrest.symm hne] at hq
    cases hq
    intro hlt
    change n.queue.storedIndex + e.logs.length < l.index at hlt
    have hmem : l ∈ n.queue.logs := h (by change n.queue.storedIndex < l.index; omega)
    rw [← hrest] at hmem
    refine (mem_append.mp hmem).resolve_left fun hx => ?_
    have hnum := hs.numbered
    rw [← hrest] at hnum
    have := hnum.left.mem_index hx
    omega

def Driven.stepped (s : Driven) : Driven.Action → Option Event
  | .step e => some e
  | .deliver k => s.inbox[k]?
  | _ => none

/-- No other log has the place of `l`. -/
structure Own (s : Driven) (applied : List Log) (l : Log) : Prop where
  memory : s.node.logView.Holds l
  disk : ∀ x ∈ s.disk.logs, x.index = l.index → x = l
  reads : ∀ t ∈ s.pool, t.req.type = .applyReq → ∀ x ∈ t.logs, x.index = l.index → x = l
  applied : ∀ x ∈ applied, x.index = l.index → x = l

variable {d : Driver} {s t : Driven} {applied : List Log} {m : Node} {k : Nat} {u : Task}

private theorem Own.nodeStep {err : Option RaftError} (h : s.node.logView.Holds l)
    (hs : s.StoreSound) (hin : e.type = .storeResp → e ∈ s.inbox)
    (hcut : s.SparesBatches e ∧ ∀ i ∈ s.node.cutIndex e, l.index ≤ i)
    (hm : s.node.step e = some (m, err)) : m.logView.Holds l := by
  by_cases hlow : e.term ≠ 0 ∧ e.term < s.node.cfg.term
  · rw [Node.step, if_pos hlow] at hm
    cases hm
    rw [(s.node.notes_rejected e).quiet.logView]
    exact h
  obtain ⟨-, hv⟩ | hmove := Node.step_logMove hm
  · rw [hv]
    exact h
  have hv := s.node.logView_enterTerm e
  have hq := s.node.queue_enterTerm e
  refine LogView.Holds.logMove (hv.symm ▸ h) (hq.symm ▸ hs.flight.sound) ?_ ?_ hmove
  · intro i hi
    have hi' : i ∈ s.node.cutIndex e := by rwa [Node.cutIndex, if_neg hlow]
    rw [hq]
    exact ⟨(hcut.1.1 i hi').1.1, hcut.2 i hi'⟩
  · intro ht hk
    rw [hq]
    exact hs.flight.stored e (hin ht) ht hk

private theorem Own.batch (h : s.node.logView.Holds l) (hs : s.StoreSound) (hu : u ∈ s.pool) (ht : u.req.type = .storeReq)
    {x : Log} (hx : x ∈ u.req.logs) (hi : x.index = l.index) : x = l := by
  have hmem := (hs.flight.tasks u hu ht).2.subset hx
  have hrange := hs.flight.numbered.mem_index hmem
  exact hs.flight.numbered.eq_of_index hmem (h (by omega)) hi

private theorem Own.call {o : Outcome} {disk : LogStorage} {p : Progress} (h : Own s applied l)
    (hs : s.StoreSound) (hk : s.pool[k]? = some u) (hc : d.Call s.disk u o disk p) :
    Own (s.progress k disk p) (applied ++ RaftServer.appliedBy s (.run k o)) l := by
  have hmem := mem_of_getElem? hk
  have hdisk : ∀ x ∈ disk.logs, x.index = l.index → x = l := by
    cases hc with
    | append ht =>
      intro x hx hi
      rcases mem_of_mem_putAll hx with hx | hx
      · exact batch h.memory hs hmem ht hx hi
      · exact h.disk x hx hi
    | cut _ _ _ _ hcut => exact fun x hx => h.disk x (LogStorage.mem_of_truncateLogTo hcut hx)
    | _ => exact h.disk
  have happlied : ∀ x ∈ applied ++ RaftServer.appliedBy s (.run k o), x.index = l.index → x = l := by
    intro x hx
    rcases mem_append.mp hx with hx | hx
    · exact h.applied x hx
    cases o with
    | done =>
      rw [RaftServer.appliedBy, hk, Option.filter_some] at hx
      split at hx
      · rename_i hty
        rw [Bool.and_eq_true, beq_iff_eq] at hty
        exact h.reads u hmem hty.1 x hx
      · cases hx
    | _ => cases hx
  cases p with
  | response r => exact ⟨h.memory, hdisk, fun w hw => h.reads w (mem_of_mem_eraseIdx hw), happlied⟩
  | more u' =>
    refine ⟨h.memory, hdisk, fun w hw hty => ?_, happlied⟩
    rcases mem_or_eq_of_mem_set hw with hw | rfl
    · exact h.reads w hw hty
    rw [hc.more_req] at hty
    generalize hp : Progress.more w = p at hc
    cases hc with
    | applying _ _ logs hl =>
      cases hp
      intro x hx
      rw [hl] at hx
      exact h.disk x (LogStorage.mem_of_mem_getLogs hx)
    | termStart hx | cut hx | fetching hx => cases hty.symm.trans hx
    | _ => cases hp

theorem Own.step {a : Driven.Action} (h : Own s applied l) (hs : s.StoreSound)
    (hcut : ∀ e ∈ s.stepped a, s.SparesBatches e ∧ ∀ i ∈ s.node.cutIndex e, l.index ≤ i)
    (hst : s.step d a = some t) : Own t (applied ++ RaftServer.appliedBy s a) l := by
  have hnone : ∀ x ∈ applied ++ [], x.index = l.index → x = l := by
    rw [append_nil]
    exact h.applied
  cases Driven.moved_of_step hst with
  | step e he m err hm =>
    refine ⟨nodeStep h.memory hs (fun hx => ?_) (hcut e rfl) hm, h.disk, h.reads, hnone⟩
    rw [hx] at he
    cases he
  | tick m hm =>
    refine ⟨?_, h.disk, h.reads, hnone⟩
    rw [Node.logView_tick hm]
    exact h.memory
  | ready lost m events hm =>
    refine ⟨?_, h.disk, ?_, hnone⟩
    · rw [Driven.takeOver_logView]
      obtain ⟨-, hv, -⟩ | ⟨-, -, -, hv, -⟩ := Node.ready_logView hm
      · rw [hv]
        exact h.memory
      · rw [hv]
        exact h.memory
    · intro u hu hty
      rcases Driven.mem_takeOver_pool hu with hu | ⟨e, -, rfl⟩
      · exact h.reads u hu hty
      · exact nofun
  | run k o u hu disk p hp => exact h.call hs hu (Driver.handle_call hp)
  | deliver k r hr m err hm =>
    exact ⟨nodeStep h.memory hs (fun _ => mem_of_getElem? hr) (hcut r hr) hm, h.disk, h.reads, hnone⟩

end WuKongIM.Raft

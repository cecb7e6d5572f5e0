import WuKongIM.Raft.StorageSpec
import WuKongIM.Raft.StoreSafety

/-! How far the persisted log reaches, against what the node believes, also over whole runs of the
node with its driver. -/
namespace WuKongIM.Raft
open Lib List

/-- The indexes of the truncations that the storage has made and the node has not stepped yet. -/
def doneCuts (pool : List Task) (inbox : List Event) : List Nat :=
  (pool.filter fun t => t.req.type == .truncateReq && t.calls != 0).map (·.req.index) ++
    (inbox.filter fun r => r.type == .truncateResp && r.reason == .ok).map (·.index)

variable {inbox : List Event} {pool : List Task}

theorem mem_doneCuts {i : Nat} : i ∈ doneCuts pool inbox ↔
    (∃ t ∈ pool, t.req.type = .truncateReq ∧ t.calls ≠ 0 ∧ t.req.index = i) ∨
      ∃ r ∈ inbox, r.type = .truncateResp ∧ r.reason = .ok ∧ r.index = i := by
  rw [doneCuts, mem_append, mem_map, mem_map]
  simp only [mem_filter, Bool.and_eq_true, beq_iff_eq, bne_iff_ne, and_assoc]

theorem doneCuts_of_inFlight (h : inFlight pool inbox .truncateReq = 0) (i : Nat) :
    i ∉ doneCuts pool inbox := by
  obtain ⟨hp, hi⟩ := not_mem_of_inFlight h
  rintro hm
  rcases mem_doneCuts.mp hm with ⟨t, ht, hx, -⟩ | ⟨r, hr, hx, -⟩
  · exact hp t ht hx
  · exact hi r hr hx

/-- Everything that the node knows to be stored, or will learn to be, is at most `i`. -/
def KeepsSaved (storedIndex : Nat) (inbox : List Event) (i : Nat) : Prop :=
  storedIndex ≤ i ∧ ∀ r ∈ inbox, r.type = .storeResp → r.reason = .ok → lastIndexOf r.logs ≤ i
  deriving Decidable

theorem KeepsSaved.trans {σ i j : Nat} (h : KeepsSaved σ inbox i) (hij : i ≤ j) : KeepsSaved σ inbox j :=
  ⟨le_trans h.1 hij, fun r hr hs hk => le_trans (h.2 r hr hs hk) hij⟩

/-- The persisted log has no gap, it ends within the node's log and before every cut that is
made, and it holds what is stored up to such a cut. -/
structure DiskAligned (v : LogView) (pool : List Task) (inbox : List Event) (disk : LogStorage) : Prop where
  numbered : Numbered 1 disk.logs
  upper : disk.logs.length ≤ v.lastLogIndex
  cuts : ∀ i ∈ doneCuts pool inbox, disk.logs.length ≤ i
  lower : KeepsSaved v.storedIndex inbox disk.logs.length ∨ ∃ i ∈ doneCuts pool inbox, i ≤ disk.logs.length

namespace DiskAligned
variable {n : Node} {e r : Event} {v : LogView} {disk disk' : LogStorage} {k i : Nat} {t : Task}

theorem keepsSaved_last (hf : StoreFlight v pool inbox) : KeepsSaved v.storedIndex inbox v.lastLogIndex := by
  have hl := hf.last
  refine ⟨by omega, fun r hr hs hk => ?_⟩
  obtain ⟨⟨hne, hp⟩, -⟩ := hf.stored r hr hs hk
  rw [lastIndexOf_head hf.numbered hp hne, hl]
  exact Nat.add_le_add_left hp.length_le _

private theorem of_view {v' : LogView} (h : DiskAligned v pool inbox disk) (hs : v'.storedIndex ≤ v.storedIndex)
    (hl : v.lastLogIndex ≤ v'.lastLogIndex) : DiskAligned v' pool inbox disk := by
  refine ⟨h.numbered, le_trans h.upper hl, h.cuts, h.lower.imp_left fun hk => ⟨le_trans hs hk.1, hk.2⟩⟩

private theorem append_bounds {q : Queue} {err : Option RaftError}
    (hq : n.queue.append e.logs = some (q, err)) (hfits : n.queue.Fits e.logs) :
    q.storedIndex ≤ n.queue.storedIndex ∧ n.queue.lastLogIndex ≤ q.lastLogIndex := by
  obtain rfl | ⟨first, rest, hl, hn, hfirst, rfl⟩ | ⟨first, rest, i, k, hl, -, -, ho, ht, rfl⟩ :=
    Queue.append_cases_of_fits hq hfits
  · exact ⟨le_refl _, le_refl _⟩
  · refine ⟨le_refl _, ?_⟩
    change n.queue.lastLogIndex ≤ (rest.getLast?.getD first).index
    rw [hl] at hn
    rw [Queue.index_getLastD hn]
    omega
  · refine ⟨?_, ?_⟩
    · change k.storedIndex ≤ n.queue.storedIndex
      rw [(Queue.truncate_indexes ht).1]
      exact Nat.min_le_left _ _
    · rw [hl] at ho
      exact le_of_lt (Queue.le_of_overlap ho).2

theorem logMove (h : DiskAligned n.logView pool inbox disk) (hf : StoreFlight n.logView pool inbox)
    (hfits : n.appends e → n.queue.Fits e.logs) (ht : e.type ≠ .truncateResp)
    (hstore : e.type = .storeResp → e.reason = .ok → (e.logs ≠ [] ∧ e.logs <+: n.queue.logs) ∧ e.index = lastIndexOf e.logs)
    (hsaved : e.type = .storeResp → e.reason = .ok → lastIndexOf e.logs ≤ disk.logs.length ∨
      ∃ i ∈ doneCuts pool inbox, i ≤ disk.logs.length) (hm : LogMove n e v) : DiskAligned v pool inbox disk := by
  cases hm with
  | same => exact h
  | append q err ha hq =>
    obtain ⟨hs, hl⟩ := append_bounds hq (hfits ha)
    exact h.of_view hs hl
  | order | unstored => exact h.of_view (le_refl _) (le_refl _)
  | cut q _ he => exact absurd he.1 ht
  | uncut _ he => exact absurd he ht
  | stored q _ he _ hq =>
    obtain ⟨⟨hne, rest, hrest⟩, hi⟩ := hstore he.1 he.2
    have hs := hf.sound.storeTo hrest.symm hne
    have hend : e.index = n.queue.storedIndex + e.logs.length :=
      hi.trans (lastIndexOf_head hf.sound.numbered ⟨rest, hrest⟩ hne)
    rw [hend, hs] at hq
    cases hq
    refine { h with lower := ?_ }
    rcases h.lower with hk | hc
    · rcases hsaved he.1 he.2 with hle | hc
      · refine .inl ⟨?_, hk.2⟩
        rw [← hend, hi]
        exact hle
      · exact .inr hc
    · exact .inr hc

theorem truncated (h : DiskAligned n.logView pool inbox disk) (hf : StoreFlight n.logView pool inbox)
    (he : e.type = .truncateResp) (hcut : ∀ i ∈ n.cuts e, SparesFlight n.queue pool inbox i)
    (hno : ∀ i, i ∉ doneCuts pool (inbox.eraseIdx k)) (honly : ∀ i ∈ doneCuts pool inbox, e.reason = .ok ∧ i = e.index)
    (hmem : e.reason = .ok → e.index ∈ doneCuts pool inbox)
    (hignored : n.synchronises = false → e.reason = .ok → KeepsSaved n.queue.storedIndex inbox e.index)
    (hm : LogMove n e v) : DiskAligned v pool (inbox.eraseIdx k) disk := by
  have hsub : ∀ {σ i}, KeepsSaved σ inbox i → KeepsSaved σ (inbox.eraseIdx k) i :=
    fun hk => ⟨hk.1, fun r hr => hk.2 r (mem_of_mem_eraseIdx hr)⟩
  -- without a cut that runs ahead everything saved is on disk
  have hlower : ∀ {σ}, (e.reason = .ok → KeepsSaved σ inbox e.index) → σ ≤ n.queue.storedIndex →
      KeepsSaved σ (inbox.eraseIdx k) disk.logs.length := by
    intro σ hi hσ
    rcases h.lower with hk | ⟨i, hi', hle⟩
    · exact hsub ⟨le_trans hσ hk.1, hk.2⟩
    · obtain ⟨hr, rfl⟩ := honly i hi'
      exact hsub ((hi hr).trans hle)
  have hempty : ∀ i ∈ doneCuts pool (inbox.eraseIdx k), disk.logs.length ≤ i := fun i hi => absurd hi (hno i)
  cases hm with
  | same _ hs => exact ⟨h.numbered, h.upper, hempty, .inl (hlower (hignored (hs he)) (le_refl _))⟩
  | append q err ha =>
    rw [Node.appends, he] at ha
    simp at ha
  | order _ hx | stored q _ hx | unstored _ hx => cases he.symm.trans hx.1
  | uncut _ _ hi =>
    refine ⟨h.numbered, h.upper, hempty, .inl (hlower (fun hr => ?_) (le_refl _))⟩
    exact (keepsSaved_last hf).trans (hi hr)
  | cut q hs hx hi hq =>
    obtain ⟨hst, hl⟩ := Queue.truncate_indexes hq
    have hspare : SparesFlight n.queue pool inbox e.index := hcut _ (by rw [Node.cuts, if_pos ⟨hs, hx.1, hx.2, hi⟩]; rfl)
    refine ⟨h.numbered, ?_, hempty, .inl (hlower (fun _ => ⟨?_, hspare.2.2⟩) ?_)⟩
    · change disk.logs.length ≤ q.lastLogIndex
      rw [hl]
      exact h.cuts _ (hmem hx.2)
    · change q.storedIndex ≤ e.index
      rw [hst]
      exact Nat.min_le_right _ _
    · change q.storedIndex ≤ n.queue.storedIndex
      rw [hst]
      exact Nat.min_le_left _ _

private theorem of_same {pool' : List Task} {inbox' : List Event} (h : DiskAligned v pool inbox disk)
    (hl : disk'.logs = disk.logs) (hc : ∀ i, i ∈ doneCuts pool' inbox' ↔ i ∈ doneCuts pool inbox)
    (hs : ∀ r ∈ inbox', r.type = .storeResp → r.reason = .ok → r ∈ inbox) : DiskAligned v pool' inbox' disk' := by
  refine ⟨hl ▸ h.numbered, hl ▸ h.upper, fun i hi => hl ▸ h.cuts i ((hc i).mp hi), ?_⟩
  rw [hl]
  rcases h.lower with hk | ⟨i, hi, hle⟩
  · exact .inl ⟨hk.1, fun r hr ht ho => hk.2 r (hs r hr ht ho) ht ho⟩
  · exact .inr ⟨i, (hc i).mpr hi, hle⟩

variable {t' : Task}

private theorem doneCuts_set (hk : pool[k]? = some t) (hr : t'.req = t.req) (ht : t.req.type ≠ .truncateReq) :
    ∀ i, i ∈ doneCuts (pool.set k t') inbox ↔ i ∈ doneCuts pool inbox := by
  intro i
  rw [mem_doneCuts, mem_doneCuts]
  exact or_congr_left (exists_congr fun u => and_congr_left fun hx => mem_set_other hk hr ht u hx.1)

private theorem doneCuts_answer (inbox : List Event) (hk : pool[k]? = some t)
    (ht : ¬(t.req.type = .truncateReq ∧ t.calls ≠ 0))
    (hr : ¬(r.type = .truncateResp ∧ r.reason = .ok)) :
    ∀ i, i ∈ doneCuts (pool.eraseIdx k) (inbox ++ [r]) ↔ i ∈ doneCuts pool inbox := by
  intro i
  rw [mem_doneCuts, mem_doneCuts]
  refine or_congr (exists_congr fun u => and_congr_left fun hx => mem_eraseIdx_ne hk ?_)
    (exists_congr fun x => and_congr_left fun hx => mem_concat_ne ?_)
  · rintro rfl
    exact ht ⟨hx.1, hx.2.1⟩
  · rintro rfl
    exact hr ⟨hx.1, hx.2.1⟩

private theorem mem_of_not_stored (inbox : List Event) (hr : ¬(r.type = .storeResp ∧ r.reason = .ok)) :
    ∀ x ∈ inbox ++ [r], x.type = .storeResp → x.reason = .ok → x ∈ inbox := by
  intro x hx ht hk
  refine (mem_concat_ne ?_).mp hx
  rintro rfl
  exact hr ⟨ht, hk⟩

section
variable (h : DiskAligned v pool inbox disk)
include h

section
variable (hk : pool[k]? = some t)
include hk

private theorem other_more (hr : t'.req = t.req) (ht : t.req.type ≠ .truncateReq)
    (hl : disk'.logs = disk.logs) : DiskAligned v (pool.set k t') inbox disk' :=
  h.of_same hl (doneCuts_set hk hr ht) fun _ hx _ _ => hx

private theorem other_answer (ht : ¬(t.req.type = .truncateReq ∧ t.calls ≠ 0))
    (hc : ¬(r.type = .truncateResp ∧ r.reason = .ok)) (hs : ¬(r.type = .storeResp ∧ r.reason = .ok))
    (hl : disk'.logs = disk.logs) :
    DiskAligned v (pool.eraseIdx k) (inbox ++ [r]) disk' :=
  h.of_same hl (doneCuts_answer inbox hk ht hc) (mem_of_not_stored inbox hs)

private theorem stores (hf : StoreFlight v pool inbox) (ht : t.req.type = .storeReq)
    (hcut : ∀ i ∈ doneCuts pool inbox, lastIndexOf t.req.logs ≤ i)
    (hr : r.type = .storeResp ∧ r.logs = t.req.logs) :
    DiskAligned v (pool.eraseIdx k) (inbox ++ [r]) (disk.appendLogs t.req.logs) := by
  obtain ⟨hne, hp⟩ := hf.tasks t (mem_of_getElem? hk) ht
  have hend := lastIndexOf_head hf.numbered hp hne
  have hnum : Numbered (1 + v.storedIndex) t.req.logs := by
    obtain ⟨rest, hrest⟩ := hp
    rw [Nat.add_comm]
    exact (hrest ▸ hf.numbered).left
  have hin : v.storedIndex ≤ disk.logs.length := by
    rcases h.lower with hk | ⟨i, hi, hle⟩
    · exact hk.1
    · have := hcut i hi
      omega
  obtain ⟨hn, hlen⟩ := h.numbered.putAll hnum hin
  have hlen : (disk.appendLogs t.req.logs).logs.length = max disk.logs.length (v.storedIndex + t.req.logs.length) := hlen
  have hlast : v.storedIndex + t.req.logs.length ≤ v.lastLogIndex := by
    rw [hf.last]
    exact Nat.add_le_add_left hp.length_le _
  have hcuts := doneCuts_answer inbox hk (fun hx => nomatch ht.symm.trans hx.1)
    fun hx => nomatch hr.1.symm.trans hx.1
  have hup := h.upper
  refine ⟨hn, ?_, fun i hi => ?_, ?_⟩
  · omega
  · have h1 := h.cuts i ((hcuts i).mp hi)
    have h2 := hcut i ((hcuts i).mp hi)
    omega
  · rcases h.lower with hk | ⟨i, hi, hle⟩
    · refine .inl ⟨by omega, fun x hx hs ho => ?_⟩
      rcases mem_append.mp hx with hx | hx
      · have := hk.2 x hx hs ho
        omega
      · rw [mem_singleton.mp hx, hr.2]
        omega
    · exact .inr ⟨i, (hcuts i).mpr hi, by omega⟩

private theorem cutOnDisk (ho : OneFlight v pool inbox) (ht : t.req.type = .truncateReq)
    (hc : t.calls = 0) (hr : t'.req = t.req) (hc' : t'.calls ≠ 0)
    (hl : disk'.logs = disk.logs.take t.req.index) : DiskAligned v (pool.set k t') inbox disk' := by
  obtain ⟨hp, hi⟩ := only_task ho.cuts_le hk ht
  have hnone : ∀ i, i ∉ doneCuts pool inbox := by
    intro i hm
    rcases mem_doneCuts.mp hm with ⟨u, hu, hx, hcalls, -⟩ | ⟨x, hx, hty, -⟩
    · rw [hp u hu hx] at hcalls
      exact hcalls hc
    · exact hi x hx hty
  have hlen : disk'.logs.length = min t.req.index disk.logs.length := by rw [hl, length_take]
  have hup := h.upper
  refine ⟨hl ▸ h.numbered.take _, by omega, ?_, ?_⟩
  · intro i hm
    rcases mem_doneCuts.mp hm with ⟨u, hu, hx, hcalls, rfl⟩ | hx
    · rcases mem_or_eq_of_mem_set hu with hu | rfl
      · exact absurd (mem_doneCuts.mpr (.inl ⟨u, hu, hx, hcalls, rfl⟩)) (hnone _)
      · rw [hr]
        omega
    · exact absurd (mem_doneCuts.mpr (.inr hx)) (hnone _)
  · rcases h.lower with hs | ⟨i, hm, -⟩
    · by_cases hlt : t.req.index ≤ disk.logs.length
      · refine .inr ⟨t.req.index, mem_doneCuts.mpr (.inl ⟨t', mem_set_self hk t', ?_, hc', ?_⟩), by omega⟩
        · rw [hr, ht]
        · rw [hr]
      · refine .inl (hs.trans ?_)
        omega
    · exact absurd hm (hnone i)

private theorem cutAnswered (ht : t.req.type = .truncateReq)
    (hc : t.calls ≠ 0) (hr : r.type = .truncateResp ∧ r.reason = .ok ∧ r.index = t.req.index)
    (hl : disk'.logs = disk.logs) : DiskAligned v (pool.eraseIdx k) (inbox ++ [r]) disk' := by
  refine h.of_same hl (fun i => ?_) (mem_of_not_stored inbox fun hx => nomatch hr.1.symm.trans hx.1)
  rw [mem_doneCuts, mem_doneCuts]
  constructor
  · rintro (⟨u, hu, hx⟩ | ⟨x, hx, hd⟩)
    · exact .inl ⟨u, mem_of_mem_eraseIdx hu, hx⟩
    rcases mem_append.mp hx with hx | hx
    · exact .inr ⟨x, hx, hd⟩
    · rw [mem_singleton.mp hx, hr.2.2] at hd
      exact .inl ⟨t, mem_of_getElem? hk, ht, hc, hd.2.2⟩
  · rintro (⟨u, hu, hx⟩ | ⟨x, hx, hd⟩)
    · by_cases hut : u = t
      · subst hut
        exact .inr ⟨r, mem_append_right _ (mem_singleton_self _), hr.1, hr.2.1, hr.2.2.trans hx.2.2⟩
      · exact .inl ⟨u, (mem_eraseIdx_ne hk hut).mpr hu, hx⟩
    · exact .inr ⟨x, mem_append_left _ hx, hd⟩

/-- The second call of a truncation fails: the cut is lost to the node, which is harmless above what
is saved. -/
private theorem cutForgotten (ho : OneFlight v pool inbox) (ht : t.req.type = .truncateReq)
    (hs : KeepsSaved v.storedIndex inbox t.req.index)
    (hr : r.type = .truncateResp ∧ r.reason ≠ .ok) : DiskAligned v (pool.eraseIdx k) (inbox ++ [r]) disk := by
  obtain ⟨hp, hi⟩ := only_task ho.cuts_le hk ht
  have honly : ∀ i ∈ doneCuts pool inbox, i = t.req.index := by
    intro i hm
    rcases mem_doneCuts.mp hm with ⟨u, hu, hx, -, rfl⟩ | ⟨x, hx, hty, -⟩
    · rw [hp u hu hx]
    · exact absurd hty (hi x hx)
  have hin := mem_of_not_stored inbox fun hx => nomatch hr.1.symm.trans hx.1
  refine ⟨h.numbered, h.upper, fun i hm => ?_, .inl ?_⟩
  · refine h.cuts i ?_
    rcases mem_doneCuts.mp hm with ⟨u, hu, hx⟩ | ⟨x, hx, hty, hok, hidx⟩
    · exact mem_doneCuts.mpr (.inl ⟨u, mem_of_mem_eraseIdx hu, hx⟩)
    rcases mem_append.mp hx with hx | hx
    · exact mem_doneCuts.mpr (.inr ⟨x, hx, hty, hok, hidx⟩)
    · rw [mem_singleton.mp hx] at hok
      exact absurd hok hr.2
  · rcases h.lower with hl | ⟨i, hm, hle⟩
    · exact ⟨hl.1, fun x hx hty hok => hl.2 x (hin x hx hty hok) hty hok⟩
    · rw [honly i hm] at hle
      have hk' := hs.trans hle
      exact ⟨hk'.1, fun x hx hty hok => hk'.2 x (hin x hx hty hok) hty hok⟩

end

theorem taken (hk : inbox[k]? = some r) (hr : r.type ≠ .truncateResp) : DiskAligned v pool (inbox.eraseIdx k) disk := by
  refine h.of_same rfl (fun i => ?_) fun x hx _ _ => mem_of_mem_eraseIdx hx
  rw [mem_doneCuts, mem_doneCuts]
  refine or_congr_right (exists_congr fun x => and_congr_left fun hx => mem_eraseIdx_ne hk ?_)
  rintro rfl
  exact hr hx.1

end

theorem takeOver {s : Driven} {m : Node} {events : List Event} {lost : List Nat} (h : DiskAligned v s.pool inbox disk) :
    DiskAligned v (s.takeOver m events lost).pool inbox disk := by
  refine h.of_same rfl (fun i => ?_) fun x hx _ _ => hx
  rw [mem_doneCuts, mem_doneCuts]
  refine or_congr_left ⟨?_, ?_⟩
  · rintro ⟨u, hu, hx⟩
    obtain hu | ⟨hc, -⟩ := Driven.mem_takeOver hu (by rw [hx.1]; rfl)
    · exact ⟨u, hu, hx⟩
    · exact absurd hc hx.2.1
  · rintro ⟨u, hu, hx⟩
    exact ⟨u, mem_append_left _ hu, hx⟩

/-- What a call must not do: write a batch behind a cut that is made, leave out a cut because of the
applied index, or forget a cut that removed saved logs. -/
def CallTidy (storedIndex : Nat) (pool : List Task) (inbox : List Event) (disk : LogStorage)
    (t : Task) (o : Outcome) : Prop :=
  (t.req.type = .storeReq → o = .done → (t.calls = 0 → t.req.termStartIndexInfo = none) →
    ∀ i ∈ doneCuts pool inbox, lastIndexOf t.req.logs ≤ i) ∧
  (t.req.type = .truncateReq → o = .done → t.calls = 0 → t.req.index < maxUint64 ∧
    (disk.appliedIndex ≤ t.req.index ∨ disk.lastIndex ≤ t.req.index)) ∧
  (t.req.type = .truncateReq → o ≠ .done → t.calls ≠ 0 → KeepsSaved storedIndex inbox t.req.index)
  deriving Decidable

theorem call {d : Driver} {o : Outcome} {p : Progress} (h : DiskAligned v pool inbox disk)
    (hf : StoreFlight v pool inbox) (ho : OneFlight v pool inbox) (hk : pool[k]? = some t)
    (hok : CallTidy v.storedIndex pool inbox disk t o) (hc : d.Call disk t o disk' p) : match p with
    | .more t' => DiskAligned v (pool.set k t') inbox disk'
    | .response r => DiskAligned v (pool.eraseIdx k) (inbox ++ [r]) disk' := by
  cases hc with
  | storeFails ht _ r hr =>
    exact h.other_answer hk (fun hx => nomatch ht.symm.trans hx.1) (fun hx => nomatch hr.1.symm.trans hx.1)
      (fun hx => nomatch hr.2.2.symm.trans hx.2) rfl
  | termStart ht | fetching ht | applying ht => exact h.other_more hk rfl (fun hx => nomatch ht.symm.trans hx) rfl
  | append ht ho' hc => exact h.stores hk hf ht (hok.1 ht ho' hc) ⟨rfl, rfl⟩
  | cutFails ht hfail =>
    by_cases hc : t.calls = 0
    · exact h.other_answer hk (fun hx => hx.2 hc) (fun hx => nomatch hx.2) (fun hx => nomatch hx.1) rfl
    · have hnd : o ≠ .done := hfail.elim id fun hx => absurd hx.2 hc
      exact h.cutForgotten hk ho ht (hok.2.2 ht hnd hc) ⟨rfl, nofun⟩
  | cut ht ho' hc _ hcut =>
    refine h.cutOnDisk hk ho ht hc rfl nofun ?_
    obtain ⟨hmax, happlied⟩ := hok.2.1 ht ho' hc
    obtain ⟨-, ⟨rfl, ha⟩ | ⟨hl, -⟩⟩ := LogStorage.truncateLogTo_logs h.numbered hcut
    · -- if the applied index is above the cut, the log must end before it
      have hle := ha.elim (fun ha => happlied.resolve_left (Nat.not_le.mpr ha)) id
      rw [LogStorage.lastIndex_of_numbered h.numbered] at hle
      exact (take_of_length_le hle).symm
    · rwa [add64_of_le hmax] at hl
  | cutDone ht _ hc => exact h.cutAnswered hk ht hc ⟨rfl, rfl, rfl⟩ rfl
  | fetched ht r hr =>
    exact h.other_answer hk (fun hx => nomatch ht.symm.trans hx.1) (fun hx => nomatch hr.1.symm.trans hx.1)
      (fun hx => nomatch hr.1.symm.trans hx.1) rfl
  | applyFails ht | applyUnneeded ht | applied ht =>
    exact h.other_answer hk (fun hx => nomatch ht.symm.trans hx.1) (fun hx => nomatch hx.1) (fun hx => nomatch hx.1) rfl

end DiskAligned

namespace Driven
variable {d : Driver} {s t : Driven} {m : Node} {k : Nat} {r : Event} {err : Option RaftError} {a : Action}

/-- No batch is under way, no truncation is, and no log waits in memory. -/
structure Settled (s : Driven) : Prop where
  stores : inFlight s.pool s.inbox .storeReq = 0
  cuts : s.node.logView.orders.length + inFlight s.pool s.inbox .truncateReq = 0
  waiting : s.node.queue.lastLogIndex ≤ s.node.queue.storedIndex

/-- The last index in memory is the last one on disk, and no read finds a later one. -/
def Agrees (s : Driven) : Prop :=
  s.node.queue.lastLogIndex = s.disk.lastIndex ∧ ∀ i, s.node.queue.lastLogIndex < i →
    ∀ start stop limit, ∀ l ∈ s.disk.getLogs start stop limit, l.index ≠ i

/-- A successful truncation response finds nothing in memory that a cut would leave unsaved; a
role that ignores it loses nothing by that. -/
def TruncationTidy (s : Driven) (r : Event) : Prop :=
  r.type = .truncateResp → r.reason = .ok →
    (inFlight s.pool s.inbox .storeReq = 0 →
      (if s.node.synchronises then min r.index s.node.queue.lastLogIndex else s.node.queue.lastLogIndex) ≤
        s.node.queue.storedIndex) ∧
    (s.node.synchronises = false → KeepsSaved s.node.queue.storedIndex s.inbox r.index)
  deriving Decidable

def tidy (s : Driven) : Action → Bool
  | .step e => decide (s.SparesBatches e)
  | .deliver k => (s.inbox[k]?).all fun r => decide (s.SparesBatches r ∧ s.TruncationTidy r)
  | .run k o => (s.pool[k]?).all fun u => decide (DiskAligned.CallTidy s.node.queue.storedIndex s.pool s.inbox s.disk u o)
  | _ => true

theorem sparesBatches_of_tidy (h : s.tidy a) : s.sparesBatches a := by
  cases a with
  | step e => exact h
  | deliver k =>
    rw [tidy] at h
    rw [sparesBatches]
    cases hr : s.inbox[k]? with
    | none => rfl
    | some r =>
      rw [hr] at h
      exact decide_eq_true (of_decide_eq_true h).1
  | _ => rfl

structure DiskSound (s : Driven) : Prop where
  store : s.StoreSound
  aligned : DiskAligned s.node.logView s.pool s.inbox s.disk

private theorem aligned_nodeStep {e : Event} (h : s.DiskSound) (ht : e.type ≠ .truncateResp)
    (hfits : (s.node.enterTerm e).appends e → s.node.queue.Fits e.logs)
    (hin : e.type = .storeResp → e ∈ s.inbox) (hm : s.node.step e = some (m, err)) :
    DiskAligned m.logView s.pool s.inbox s.disk := by
  obtain ⟨-, hv⟩ | hmove := Node.step_logMove hm
  · rw [hv]
    exact h.aligned
  have hv := s.node.logView_enterTerm e
  have hq := s.node.queue_enterTerm e
  refine DiskAligned.logMove (hv.symm ▸ h.aligned) (hv.symm ▸ h.store.flight) (hq.symm ▸ hfits) ht ?_ ?_ hmove
  · intro hx hk
    rw [hq]
    exact h.store.flight.stored e (hin hx) hx hk
  · intro hx hk
    exact h.aligned.lower.imp_left fun hs => hs.2 e (hin hx) hx hk

private theorem aligned_truncated (h : s.DiskSound) (hr : s.inbox[k]? = some r)
    (ht : r.type = .truncateResp) (hok : s.SparesBatches r) (htidy : s.TruncationTidy r)
    (hm : s.node.step r = some (m, err)) : DiskAligned m.logView s.pool (s.inbox.eraseIdx k) s.disk := by
  have hmem := mem_of_getElem? hr
  have h0 := (h.store.one.answers r hmem).2
  have hmove := Node.step_logMove_of_zero h0 hm
  obtain ⟨hp, hi⟩ := only_answer (OneFlight.cuts_le h.store.one) hr ht
  refine DiskAligned.truncated h.aligned h.store.flight ht ?_ ?_ ?_ ?_ (fun hs hk => (htidy ht hk).2 hs) hmove
  · intro i hcut
    refine hok.1 i ?_
    rw [Node.cutIndex, if_neg fun hx => hx.1 h0, s.node.enterTerm_zero h0]
    exact hcut
  · intro i
    have := (OneFlight.taken h.store.one hr).2.2 ht
    exact doneCuts_of_inFlight (Nat.add_eq_zero_iff.mp this).2 i
  · intro i hm
    rcases mem_doneCuts.mp hm with ⟨u, hu, hx, -⟩ | ⟨x, hx, hty, hk, rfl⟩
    · exact absurd hx (hp u hu)
    · rw [hi x hx hty] at hk ⊢
      exact ⟨hk, rfl⟩
  · intro hk
    exact mem_doneCuts.mpr (.inr ⟨r, hmem, ht, hk, rfl⟩)

theorem DiskSound.step (h : s.DiskSound) (hok : s.tidy a) (hst : s.step d a = some t) : t.DiskSound := by
  refine ⟨h.store.step (sparesBatches_of_tidy hok) hst, ?_⟩
  cases moved_of_step hst with
  | step e he m err hm =>
    refine aligned_nodeStep (s := s) h ?_ (of_decide_eq_true hok).2 ?_ hm
    · intro hx
      rw [hx] at he
      cases he
    · intro hx
      rw [hx] at he
      cases he
  | tick m hm =>
    rw [Node.logView_tick hm]
    exact h.aligned
  | ready lost m events hm =>
    have hv : DiskAligned m.logView s.pool s.inbox s.disk := by
      obtain ⟨-, hv, -⟩ | ⟨-, -, -, hv, -⟩ := Node.ready_logView hm
      · rw [hv]
        exact { h.aligned with }
      · rw [hv]
        exact { h.aligned with }
    rw [takeOver_logView]
    exact hv.takeOver
  | run k o u hu disk p hp =>
    have hcall : DiskAligned.CallTidy s.node.queue.storedIndex s.pool s.inbox s.disk u o := by
      rw [tidy, hu] at hok
      exact of_decide_eq_true hok
    have := h.aligned.call h.store.flight h.store.one hu hcall (Driver.handle_call hp)
    cases p with
    | more u' | response x => exact this
  | deliver k r hr m err hm =>
    have hok' : s.SparesBatches r ∧ s.TruncationTidy r := by
      rw [tidy, hr] at hok
      exact of_decide_eq_true hok
    by_cases ht : r.type = .truncateResp
    · exact aligned_truncated h hr ht hok'.1 hok'.2 hm
    · exact (aligned_nodeStep h ht hok'.1.2 (fun _ => mem_of_getElem? hr) hm).taken hr ht

theorem start_diskSound {disk : LogStorage} {opts : Options} (hn : Numbered 1 disk.logs)
    (h : start d disk opts = some s) : s.DiskSound := by
  refine ⟨start_storeSound h, ?_⟩
  obtain ⟨n, hnode, rfl⟩ := Option.map_eq_some_iff.mp h
  obtain ⟨hl, -, hi, -⟩ := disk.getState_eq d.storage
  have hlen := LogStorage.lastIndex_of_numbered hn
  rw [newNode_logView hnode]
  refine ⟨hl ▸ hn, ?_, forall_mem_nil _, .inl ⟨?_, forall_mem_nil _⟩⟩
  all_goals rw [hl, hi, hlen]

theorem DiskSound.agrees (h : s.DiskSound) (hs : s.Settled) : s.Agrees := by
  have hcuts := doneCuts_of_inFlight (Nat.add_eq_zero_iff.mp hs.cuts).2
  have hlower : s.node.queue.storedIndex ≤ s.disk.logs.length :=
    h.aligned.lower.elim And.left fun ⟨i, hi, _⟩ => absurd hi (hcuts i)
  have hupper : s.disk.logs.length ≤ s.node.queue.lastLogIndex := h.aligned.upper
  have hwait := hs.waiting
  refine ⟨?_, fun i hi start stop limit l hl => ?_⟩
  · rw [LogStorage.lastIndex_of_numbered h.aligned.numbered]
    omega
  · have := h.aligned.numbered.mem_index (LogStorage.mem_of_mem_getLogs hl)
    omega

private theorem settled_of_truncated (h : s.DiskSound) (hr : s.inbox[k]? = some r)
    (ht : r.type = .truncateResp) (hk : r.reason = .ok) (htidy : s.TruncationTidy r)
    (hm : s.node.step r = some (m, err)) (hno : inFlight s.pool (s.inbox.eraseIdx k) .storeReq = 0) :
    Settled { s with node := m, inbox := s.inbox.eraseIdx k } := by
  have h0 := (h.store.one.answers r (mem_of_getElem? hr)).2
  have hmove := Node.step_logMove_of_zero h0 hm
  have hstores : inFlight s.pool s.inbox .storeReq = 0 := by
    rw [← inFlight_taken s.pool .storeReq hr, hno, ht]
    rfl
  have hwait := (htidy ht hk).1 hstores
  have hcuts := (OneFlight.taken h.store.one hr).2.2 ht
  have hgoal : m.logView.orders = s.node.logView.orders ∧ m.logView.lastLogIndex ≤ m.logView.storedIndex := by
    generalize m.logView = v at hmove
    cases hmove with
    | same _ hs =>
      rw [hs ht] at hwait
      exact ⟨rfl, hwait⟩
    | append q err ha =>
      rw [Node.appends, ht] at ha
      simp at ha
    | order _ he | stored q _ he | unstored _ he => cases ht.symm.trans he.1
    | cut q hs _ hi hq =>
      obtain ⟨hst, hl⟩ := Queue.truncate_indexes hq
      rw [hs, if_pos rfl] at hwait
      refine ⟨rfl, ?_⟩
      change q.lastLogIndex ≤ q.storedIndex
      omega
    | uncut hs _ hi =>
      rw [hs, Nat.min_eq_right (hi hk)] at hwait
      exact ⟨rfl, hwait⟩
  refine ⟨hno, ?_, hgoal.2⟩
  rw [hgoal.1]
  exact hcuts

abbrev ReachedFromLog (d : Driver) (ok : Driven → Action → Prop) : Driven → Prop :=
  Reach (fun s => ∃ disk opts, Numbered 1 disk.logs ∧ start d disk opts = some s) (step d) ok

/-- Memory and disk agree whenever the node is settled, and right after every truncation that
leaves no batch under way. -/
structure DiskAgrees (d : Driver) (s : Driven) : Prop where
  settled : s.Settled → s.Agrees
  truncated : ∀ k r, s.inbox[k]? = some r → r.type = .truncateResp → r.reason = .ok → s.tidy (.deliver k) = true →
    ∀ t, s.step d (.deliver k) = some t → inFlight t.pool t.inbox .storeReq = 0 → t.Agrees

theorem disk_agrees (h : ReachedFromLog d (fun s a => s.tidy a = true) s) : s.DiskAgrees d := by
  have hs : s.DiskSound := h.invariant DiskSound (fun s ⟨disk, opts, hn, hs⟩ => start_diskSound hn hs)
    fun s a t hs hok ht => hs.step hok ht
  refine ⟨hs.agrees, fun k r hr ht hk hok t hst hno => ?_⟩
  refine (hs.step hok hst).agrees ?_
  rw [tidy, hr] at hok
  cases moved_of_step hst with
  | deliver _ r' hr' m err hm =>
    rw [hr] at hr'
    cases hr'
    exact settled_of_truncated hs hr ht hk (of_decide_eq_true hok).2 hm hno

/-- A follower of a slot with three logs, of which some are applied, is cut to two. -/
private def cutToTwo (committedIndex : Nat) : List Action :=
  [.step (syncLogs 1 1 3), .ready [], .run 0 .done, .run 0 .done, .deliver 0,
    .step { type := .ping, fromNode := 2, term := 1 },
    .step { type := .ping, fromNode := 2, term := 1, committedIndex }, .ready [], .run 0 .done, .run 0 .done, .deliver 0,
    .step (syncTruncate 1 2), .ready [], .run 0 .done, .run 0 .done]

theorem disk_agrees_cut : ∃ s : Driven, s.inbox.map (·.index) = [2] ∧
    s.node.queue.lastLogIndex = 3 ∧ s.DiskAgrees ⟨.raftGroup, .slot, 0, false⟩ := by
  obtain ⟨s0, h0⟩ : ∃ s, start ⟨.raftGroup, .slot, 0, false⟩ {} { nodeId := 1, replicas := [1, 2] } = some s := ⟨_, rfl⟩
  have hr : ReachedFromLog ⟨.raftGroup, .slot, 0, false⟩ (fun s a => s.tidy a) s0 := .init ⟨{}, _, trivial, h0⟩
  obtain ⟨s, hs, hp⟩ := hr.exists_of_run (cutToTwo 2)
    (fun s => s.inbox.map (·.index) = [2] ∧ s.node.queue.lastLogIndex = 3) (by cases h0; decide +kernel)
  exact ⟨s, hp.1, hp.2, disk_agrees hs⟩

/-- All three logs are applied: the storage keeps them, and the node cuts its log to two. -/
theorem disk_agrees_fails : ¬∀ s k r t, ReachedFromLog ⟨.raftGroup, .slot, 0,
    false⟩ (fun _ _ => True) s → s.inbox[k]? = some r → r.type = .truncateResp → r.reason = .ok →
    s.step ⟨.raftGroup, .slot, 0, false⟩ (.deliver k) = some t → inFlight t.pool t.inbox .storeReq = 0 → t.Agrees := by
  intro hall
  obtain ⟨s0, h0⟩ : ∃ s, start ⟨.raftGroup, .slot, 0, false⟩ {} { nodeId := 1, replicas := [1, 2] } = some s := ⟨_, rfl⟩
  have hr : ReachedFromLog ⟨.raftGroup, .slot, 0, false⟩ (fun _ _ => True) s0 := .init ⟨{}, _, trivial, h0⟩
  obtain ⟨s, hs, hp⟩ := hr.exists_of_run (cutToTwo 3)
    (fun s => (∃ r ∈ s.inbox[0]?, r.type = .truncateResp ∧ r.reason = .ok) ∧
      ∃ t ∈ s.step ⟨.raftGroup, .slot, 0, false⟩ (.deliver 0),
        inFlight t.pool t.inbox .storeReq = 0 ∧ t.node.queue.lastLogIndex ≠ t.disk.lastIndex)
    (by cases h0; decide +kernel)
  obtain ⟨⟨r, hr, ht, hk⟩, t, hst, hno, hne⟩ := hp
  exact hne (hall s 0 r t hs hr ht hk hst hno).1

end Driven

end WuKongIM.Raft

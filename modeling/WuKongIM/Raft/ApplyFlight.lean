import WuKongIM.Raft.Flags
import WuKongIM.Raft.OneFlight
import WuKongIM.Raft.Propose
import WuKongIM.Raft.StorageSpec

/-! Applications come one after the other: at most one is under way, it starts behind the applied
index, and every index up to the applied one has been given to the state machine. -/
namespace WuKongIM.Raft
open Lib List Option RaftServer

variable {n m : Node} {events : List Event} {logs : List Log}

theorem Node.ready_applies (h : n.ready = some (m, events)) (hq : ∀ e ∈ n.events, e.type ≠ .applyReq) :
    m.events = [] ∧ m.queue.appliedIndex = n.queue.appliedIndex ∧
      m.queue.committedIndex = n.queue.committedIndex ∧ m.stepFunc = n.stepFunc ∧ m.cfg = n.cfg ∧
      (m.queue.applying = n.queue.applying ∧ (∀ e ∈ events, e.type ≠ .applyReq) ∨
        n.queue.applying = false ∧ m.queue.applying ∧ ∃ sent q, events = sent ++ [q] ∧
          (∀ e ∈ sent, e.type ≠ .applyReq) ∧ q.startIndex = n.queue.appliedIndex + 1 ∧
          q.endIndex = n.queue.committedIndex + 1) := by
  obtain ⟨k, hk, hx⟩ := map_eq_some_iff.mp h
  cases hx
  have hstore : k.queue.SameApplied n.queue ∧ k.stepFunc = n.stepFunc ∧ k.cfg = n.cfg ∧
      ∀ e ∈ k.events, e.type ≠ .applyReq := by
    obtain ⟨-, rfl⟩ | ⟨batch, -, -, -, -, rfl⟩ := readyStore_cases hk
    · exact ⟨⟨rfl, rfl, rfl⟩, rfl, rfl, hq⟩
    exact ⟨⟨rfl, rfl, rfl⟩, rfl, rfl, forall_mem_append.mpr ⟨hq, forall_mem_singleton.mpr nofun⟩⟩
  obtain ⟨hs, hf, hc, he⟩ := hstore
  rw [← hs.appliedIndex.symm, ← hs.applying.symm, ← hs.committedIndex.symm, ← hf, ← hc]
  obtain hx | ⟨hno, hx⟩ := k.readyApply_cases
  · rw [hx]
    exact ⟨rfl, rfl, rfl, rfl, rfl, .inl ⟨rfl, he⟩⟩
  · rw [hx]
    exact ⟨rfl, rfl, rfl, rfl, rfl, .inr ⟨hno, rfl, k.events, _, rfl, he, rfl, rfl⟩⟩

theorem lastIndexOf_numbered {start : Nat} (h : Numbered (start + 1) logs) {x : Log}
    (hx : x ∈ logs) : x.index ≤ lastIndexOf logs ∧ lastIndexOf logs = start + logs.length := by
  have hne : logs ≠ [] := ne_nil_of_mem hx
  have hl : logs.getLast? = some (logs.getLast hne) := getLast?_eq_some_getLast hne
  have hlast := h.index_of_getLast hl
  have hmem := h.mem_index hx
  have he : lastIndexOf logs = (logs.getLast hne).index := by
    rw [lastIndexOf, hl]
    rfl
  omega

/-- The index of an applied log is covered by the applied index, or by a response on its way. -/
def AppliedUpTo (s : Driven) (i : Nat) : Prop :=
  i ≤ s.node.queue.appliedIndex ∨ ∃ r ∈ s.inbox, r.type = .applyResp ∧ r.reason = .ok ∧ i ≤ r.index

/-- One application at a time; `applied` is what the state machine got since the applied index was
`base`. -/
structure ApplyFlight (base : Nat) (s : Driven) (applied : List Log) : Prop where
  quiet : ∀ e ∈ s.node.events, e.type ≠ .applyReq
  one : inFlight s.pool s.inbox .applyReq ≤ if s.node.queue.applying then 1 else 0
  tasks : ∀ t ∈ s.pool, t.req.type = .applyReq → t.req.startIndex = s.node.queue.appliedIndex + 1 ∧
    Numbered (s.node.queue.appliedIndex + 1) t.logs
  answers : ∀ r ∈ s.inbox, r.type = .applyResp → r.reason = .ok →
    ∀ i, s.node.queue.appliedIndex < i → i ≤ r.index → ∃ x ∈ applied, x.index = i
  base_le : base ≤ s.node.queue.appliedIndex
  done : ∀ i, base < i → i ≤ s.node.queue.appliedIndex → ∃ x ∈ applied, x.index = i
  upper : ∀ x ∈ applied, AppliedUpTo s x.index

namespace ApplyFlight
variable {d : Driver} {base k : Nat} {s : Driven} {applied : List Log} {t : Task} {r : Event} {inbox : List Event}

section
variable (h : ApplyFlight base s applied)
include h

theorem le_one : inFlight s.pool s.inbox .applyReq ≤ 1 := by
  have := h.one
  split at this <;> omega

theorem node (hm : FlagMove s.node m) (hin : ∀ r, r.type = .applyResp → (r ∈ inbox ↔ r ∈ s.inbox))
    (hone : inFlight s.pool inbox .applyReq = inFlight s.pool s.inbox .applyReq) :
    ApplyFlight base { s with node := m, inbox := inbox } applied := by
  refine ⟨?_, ?_, ?_, ?_, ?_, ?_, ?_⟩
  · intro e he
    obtain ⟨new, hs, hn⟩ := hm.sent
    rw [hs] at he
    exact (mem_append.mp he).elim (h.quiet e) (hn e)
  · rw [hone, hm.applying]
    exact h.one
  · intro t ht hx
    rw [hm.appliedIndex]
    exact h.tasks t ht hx
  · intro r hr hx hk i hi
    rw [hm.appliedIndex] at hi
    exact h.answers r ((hin r hx).mp hr) hx hk i hi
  · rw [hm.appliedIndex]
    exact h.base_le
  · intro i hb hi
    rw [hm.appliedIndex] at hi
    exact h.done i hb hi
  · intro x hx
    rcases h.upper x hx with hle | ⟨r, hr, ht, hk, hle⟩
    · refine .inl ?_
      rwa [hm.appliedIndex]
    · exact .inr ⟨r, (hin r ht).mpr hr, ht, hk, hle⟩

theorem answered {err : Option RaftError} (hr : s.inbox[k]? = some r)
    (ht : r.type = .applyResp) (h0 : r.term = 0) (hm : s.node.step r = some (m, err)) :
    ApplyFlight base { s with node := m, inbox := s.inbox.eraseIdx k } applied ∧
      s.node.queue.appliedIndex ≤ m.queue.appliedIndex := by
  obtain ⟨rfl, -⟩ := Node.step_applyResp ht h0 hm
  obtain ⟨hpool, honly⟩ := only_answer h.le_one hr ht
  have hnone := inFlight_taken_only h.le_one hr ht
  have hgone := (not_mem_of_inFlight hnone).2
  set q := if r.reason = .ok then s.node.queue.appliedTo r.index else { s.node.queue with applying := false } with hq
  have hq' : s.node.queue.appliedIndex ≤ q.appliedIndex ∧ (r.reason = .ok → r.index ≤ q.appliedIndex) ∧
      (q.appliedIndex = s.node.queue.appliedIndex ∨ r.reason = .ok ∧ q.appliedIndex = r.index) := by
    rw [hq]
    split
    · rename_i hk
      rw [Queue.appliedTo_eq]
      exact ⟨Nat.le_max_left _ _, fun _ => Nat.le_max_right _ _,
        (le_total r.index _).imp Nat.max_eq_left fun hle => ⟨hk, Nat.max_eq_right hle⟩⟩
    · rename_i hk
      exact ⟨le_refl _, fun hx => absurd hx hk, .inl rfl⟩
  obtain ⟨hmono, hreach, heq⟩ := hq'
  refine ⟨⟨h.quiet, ?_, fun t hu hx => absurd hx (hpool t hu), fun x hx hy => absurd hy (hgone x hx), ?_, ?_, ?_⟩, hmono⟩
  · rw [hnone]
    exact Nat.zero_le _
  · exact le_trans h.base_le hmono
  · intro i hb hi
    change i ≤ q.appliedIndex at hi
    by_cases hold : i ≤ s.node.queue.appliedIndex
    · exact h.done i hb hold
    · obtain he | ⟨hk, he⟩ := heq
      · omega
      · exact h.answers r (mem_of_getElem? hr) ht hk i (by omega) (by omega)
  · intro x hx
    left
    change x.index ≤ q.appliedIndex
    rcases h.upper x hx with hle | ⟨y, hy, hty, hk, hle⟩
    · omega
    · rw [honly y hy hty] at hk hle
      have := hreach hk
      omega

end

variable {disk : LogStorage} {o : Outcome}

private theorem other {pool : List Task} (h : ApplyFlight base s applied)
    (hp : ∀ u, u.req.type = .applyReq → (u ∈ pool ↔ u ∈ s.pool)) (hi : ∀ x, x.type = .applyResp → (x ∈ inbox ↔ x ∈ s.inbox))
    (hone : inFlight pool inbox .applyReq = inFlight s.pool s.inbox .applyReq) :
    ApplyFlight base { s with pool := pool, inbox := inbox, disk := disk } applied := by
  refine ⟨h.quiet, le_trans (le_of_eq hone) h.one, fun u hu hx => h.tasks u ((hp u hx).mp hu) hx,
    fun x hx ht hk => h.answers x ((hi x ht).mp hx) ht hk, h.base_le, h.done, fun x hx => ?_⟩
  exact (h.upper x hx).imp_right fun ⟨y, hy, ht, hk, hle⟩ => ⟨y, (hi y ht).mpr hy, ht, hk, hle⟩

private theorem other_more {t' : Task} (h : ApplyFlight base s applied) (hk : s.pool[k]? = some t)
    (hr : t'.req = t.req) (ht : t.req.type ≠ .applyReq) :
    ApplyFlight base { s with pool := s.pool.set k t', disk := disk } applied :=
  h.other (mem_set_other hk hr ht) (fun _ _ => Iff.rfl) (inFlight_more hk hr)

private theorem mem_inbox_other (inbox : List Event) (hr : r.type ≠ .applyResp) :
    ∀ x, x.type = .applyResp → (x ∈ inbox ++ [r] ↔ x ∈ inbox) := by
  intro x hx
  refine mem_concat_ne ?_
  rintro rfl
  exact hr hx

section
variable (h : ApplyFlight base s applied) (hk : s.pool[k]? = some t)
include h hk

private theorem other_answer (hc : d.Call s.disk t o disk (.response r)) (ht : t.req.type ≠ .applyReq) :
    ApplyFlight base { s with pool := s.pool.eraseIdx k, inbox := s.inbox ++ [r], disk := disk } applied := by
  have htype := hc.response_type.1
  refine h.other (mem_erase_other hk ht) (mem_inbox_other s.inbox ?_) (inFlight_answer hk htype rfl)
  intro hx
  have hb := answerType_beq .applyReq rfl t.req.type
  rw [← htype, hx] at hb
  exact ht (beq_iff_eq.mp hb.symm)

private theorem reads (hl : Numbered t.req.startIndex logs) (ht : t.req.type = .applyReq) :
    ApplyFlight base { s with pool := s.pool.set k { t with calls := t.calls + 1, logs := logs }, disk := disk } applied := by
  have hstart := (h.tasks t (mem_of_getElem? hk) ht).1
  refine { h with one := ?_, tasks := ?_ }
  · refine le_trans (le_of_eq (inFlight_more hk ?_)) h.one
    rfl
  · intro u hu hx
    rcases mem_or_eq_of_mem_set hu with hu | rfl
    · exact h.tasks u hu hx
    · exact ⟨hstart, hstart ▸ hl⟩

private theorem ends {new : List Log} (ht : t.req.type = .applyReq) (hr : r.type = .applyResp)
    (hcover : r.reason = .ok → ∀ i, s.node.queue.appliedIndex < i → i ≤ r.index → ∃ x ∈ new, x.index = i)
    (hnew : ∀ x ∈ new, r.reason = .ok ∧ x.index ≤ r.index) :
    ApplyFlight base { s with pool := s.pool.eraseIdx k, inbox := s.inbox ++ [r], disk := disk } (applied ++ new) := by
  have honly := only_task h.le_one hk ht
  have hone : inFlight (s.pool.eraseIdx k) (s.inbox ++ [r]) .applyReq = inFlight s.pool s.inbox .applyReq :=
    inFlight_answer hk (hr.trans (by rw [ht]; rfl)) rfl
  refine ⟨h.quiet, le_trans (le_of_eq hone) h.one, fun u hu => h.tasks u (mem_of_mem_eraseIdx hu),
    ?_, h.base_le, ?_, fun x hx => ?_⟩
  · intro x hx hty hok i hi hle
    rcases mem_append.mp hx with hx | hx
    · exact absurd hty (honly.2 x hx)
    · rw [mem_singleton.mp hx] at hok hle
      obtain ⟨z, hz, he⟩ := hcover hok i hi hle
      exact ⟨z, mem_append_right _ hz, he⟩
  · intro i hb hi
    obtain ⟨x, hx, he⟩ := h.done i hb hi
    exact ⟨x, mem_append_left _ hx, he⟩
  · rcases mem_append.mp hx with hx | hx
    · exact (h.upper x hx).imp_right fun ⟨y, hy, hrest⟩ => ⟨y, mem_append_left _ hy, hrest⟩
    · exact .inr ⟨r, mem_append_right _ (mem_singleton_self r), hr, hnew x hx⟩

private theorem applies (ht : t.req.type = .applyReq)
    (hr : r.type = .applyResp ∧ r.reason = .ok ∧ r.index = lastIndexOf t.logs) :
    ApplyFlight base { s with pool := s.pool.eraseIdx k, inbox := s.inbox ++ [r], disk := disk } (applied ++ t.logs) := by
  have hnum := (h.tasks t (mem_of_getElem? hk) ht).2
  refine h.ends hk ht hr.1 (fun _ i hi hle => ?_) fun x hx => ⟨hr.2.1, hr.2.2 ▸ (lastIndexOf_numbered hnum hx).1⟩
  rw [hr.2.2] at hle
  cases hlogs : t.logs with
  | nil =>
    rw [hlogs, lastIndexOf] at hle
    exact absurd hle (by simp; omega)
  | cons y ys =>
    have hlast := (lastIndexOf_numbered hnum (hlogs ▸ mem_cons_self)).2
    exact hlogs ▸ (numbered_iff.mp hnum).exists_key (by omega) (by omega)

end

theorem call {p : Progress} (hd : d.kind = .raft) (h : ApplyFlight base s applied)
    (hn : Numbered 1 s.disk.logs) (hk : s.pool[k]? = some t) (hc : d.Call s.disk t o disk p) :
    ApplyFlight base (s.progress k disk p) (applied ++ appliedBy s (.run k o)) := by
  have hnot : t.req.type ≠ .applyReq ∨ t.calls = 0 ∨ o ≠ .done →
      applied ++ appliedBy s (.run k o) = applied := by
    intro hx
    cases o with
    | done =>
      have hf : (t.req.type == EventType.applyReq && t.calls != 0) = false := by
        rcases hx with hx | hx | hx
        · rw [beq_eq_false_iff_ne.mpr hx]
          rfl
        · rw [hx]
          exact Bool.and_false _
        · exact absurd rfl hx
      rw [appliedBy, hk, filter_some, if_neg (by rw [hf]; decide)]
      exact append_nil _
    | _ => exact append_nil _
  by_cases ht : t.req.type = .applyReq
  swap
  · rw [hnot (.inl ht)]
    cases p with
    | more t' => exact h.other_more hk hc.more_req ht
    | response r => exact h.other_answer hk hc ht
  cases hc with
  | storeFails hx | termStart hx | append hx | cutFails hx | cut hx | cutDone hx | fetching hx | fetched hx =>
    cases ht.symm.trans hx
  | applying _ hc logs hl =>
    rw [hnot (.inr (.inl hc))]
    refine h.reads hk ?_ ht
    rw [hl, (h.tasks t (mem_of_getElem? hk) ht).1]
    exact LogStorage.numbered_getLogs hn (Nat.succ_pos _) _ _
  | applyFails _ hf =>
    rw [hnot (.inr hf.symm), ← append_nil applied]
    exact h.ends hk ht rfl nofun nofun
  | applyUnneeded _ hx => cases hd.symm.trans hx.1
  | applied _ ho hc =>
    subst ho
    have happ : appliedBy s (.run k .done) = t.logs := by
      rw [appliedBy, hk, filter_some, if_pos]
      · rfl
      · rw [Bool.and_eq_true, beq_iff_eq, bne_iff_ne]
        exact ⟨ht, hc⟩
    rw [happ]
    exact h.applies hk ht ⟨rfl, rfl, rfl⟩

theorem ready {events : List Event} {lost : List Nat} (h : ApplyFlight base s applied)
    (hr : s.node.ready = some (m, events)) : ApplyFlight base (s.takeOver m events lost) applied := by
  obtain ⟨hev, hidx, -, -, -, hasks⟩ := Node.ready_applies hr h.quiet
  have hnode : (s.takeOver m events lost).node.queue = m.queue ∧ (s.takeOver m events lost).node.events = m.events := by
    unfold Driven.takeOver
    dsimp only
    split <;> exact ⟨rfl, rfl⟩
  have hcount := s.inFlight_takeOver_le m events lost .applyReq
  have hone := h.one
  refine ⟨?_, ?_, ?_, ?_, ?_, ?_, ?_⟩
  · rw [hnode.2, hev]
    exact forall_mem_nil _
  · rw [hnode.1]
    change inFlight (s.takeOver m events lost).pool s.inbox .applyReq ≤ _
    obtain ⟨ha, hno⟩ | ⟨ha, hb, sent, q, rfl, hno, -⟩ := hasks
    · rw [countP_eq_zero.mpr fun e he => by rw [beq_iff_eq]; exact hno e he] at hcount
      rw [ha]
      omega
    rw [countP_append, countP_eq_zero.mpr fun e he => by rw [beq_iff_eq]; exact hno e he] at hcount
    have h1 := countP_le_length (p := fun e : Event => e.type == .applyReq) (l := [q])
    rw [length_singleton] at h1
    rw [ha] at hone
    rw [hb]
    change _ ≤ 0 at hone
    change _ ≤ 1
    omega
  · intro u hu hx
    rw [hnode.1, hidx]
    rcases Driven.mem_takeOver_pool hu with hu | ⟨e, he, rfl⟩
    · exact h.tasks u hu hx
    obtain ⟨-, hno⟩ | ⟨-, -, sent, q, rfl, hno, hq, -⟩ := hasks
    · exact absurd hx (hno e he)
    rcases mem_append.mp he with he | he
    · exact absurd hx (hno e he)
    · rw [mem_singleton.mp he]
      exact ⟨hq, trivial⟩
  · intro r hr
    rw [hnode.1, hidx]
    exact h.answers r hr
  · rw [hnode.1, hidx]
    exact h.base_le
  · rw [hnode.1, hidx]
    exact h.done
  · intro x hx
    rw [AppliedUpTo, hnode.1, hidx]
    exact h.upper x hx

theorem step {t : Driven} {a : Driven.Action} (hd : d.kind = .raft) (h : ApplyFlight base s applied)
    (hone : s.OneAtATime) (hn : Numbered 1 s.disk.logs) (hst : s.step d a = some t) :
    ApplyFlight base t (applied ++ appliedBy s a) ∧
      s.node.queue.appliedIndex ≤ t.node.queue.appliedIndex := by
  have hmoved {m : Node} (hmove : FlagMove s.node m) : ApplyFlight base { s with node := m } (applied ++ []) ∧
      s.node.queue.appliedIndex ≤ m.queue.appliedIndex := by
    rw [append_nil]
    exact ⟨h.node hmove (fun _ _ => Iff.rfl) rfl, le_of_eq hmove.appliedIndex.symm⟩
  cases Driven.moved_of_step hst with
  | step e he m err hm =>
    refine hmoved (Node.step_flagMove (fun hx => ?_) hm)
    rw [hx] at he
    cases he
  | tick m hm => exact hmoved (Node.tick_flagMove hm)
  | ready lost m events hm =>
    change ApplyFlight base _ (applied ++ []) ∧ _
    rw [append_nil]
    refine ⟨h.ready hm, le_of_eq ?_⟩
    rw [← (Node.ready_applies hm h.quiet).2.1]
    unfold Driven.takeOver
    dsimp only
    split <;> rfl
  | run k o u hu disk p hp =>
    refine ⟨h.call hd hn hu (Driver.handle_call hp), le_of_eq ?_⟩
    cases p <;> rfl
  | deliver k r hr m err hm =>
    change ApplyFlight base _ (applied ++ []) ∧ _
    rw [append_nil]
    by_cases ht : r.type = .applyResp
    · exact h.answered hr ht (hone.answers r (mem_of_getElem? hr)).2 hm
    have hmove := Node.step_flagMove ht hm
    refine ⟨h.node hmove ?_ ?_, le_of_eq hmove.appliedIndex.symm⟩
    · intro x hx
      refine mem_eraseIdx_ne hr ?_
      rintro rfl
      exact ht hx
    · have he := inFlight_taken s.pool .applyReq hr
      rwa [if_neg (show ¬(r.type == answerType .applyReq) from fun hx => ht (beq_iff_eq.mp hx))] at he

end ApplyFlight

theorem start_applyFlight {d : Driver} {opts : Options} {s : Driven}
    (h : Driven.start d disk opts = some s) : ApplyFlight s.node.queue.appliedIndex s [] := by
  obtain ⟨n, hn, rfl⟩ := map_eq_some_iff.mp h
  obtain ⟨-, -, -, hev, -⟩ := newNode_eq_some hn
  refine ⟨?_, Nat.zero_le _, fun t ht => (nomatch ht), fun r hr => (nomatch hr), le_refl _,
    fun i hb hi => ?_, nofun⟩
  · rw [hev]
    exact forall_mem_nil _
  · omega

end WuKongIM.Raft

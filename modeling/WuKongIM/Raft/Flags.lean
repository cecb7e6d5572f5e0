import WuKongIM.Raft.Changes

/-! The flags for applying and for fetching logs. -/
namespace WuKongIM.Raft
open Relation List

structure FlagMove (n m : Node) : Prop where
  sent : ∃ new, m.events = n.events ++ new ∧ ∀ e ∈ new, e.type ≠ .applyReq
  applying : m.queue.applying = n.queue.applying
  appliedIndex : m.queue.appliedIndex = n.queue.appliedIndex
  geting : ∀ r, m.getingLogs r = true → m.stepFunc = n.stepFunc ∧ n.getingLogs r = true ∨
    m.stepFunc = .leader ∧ ∃ q ∈ m.events, q.type = .getLogsReq ∧ q.fromNode = r
  role : n.stepFunc ≠ .unknown → m.stepFunc ≠ .unknown

namespace FlagMove
variable {n m k : Node}

theorem of_sent (new : List Event) (hs : m.events = n.events ++ new) (hn : ∀ e ∈ new, e.type ≠ .applyReq)
    (ha : m.queue.applying = n.queue.applying) (hi : m.queue.appliedIndex = n.queue.appliedIndex)
    (hf : m.stepFunc = n.stepFunc) (hr : m.replicaSync = n.replicaSync) : FlagMove n m := by
  refine ⟨⟨new, hs, hn⟩, ha, hi, fun r h => .inl ⟨hf, ?_⟩, fun h => hf ▸ h⟩
  rwa [Node.getingLogs, hr] at h

theorem of_kept (he : m.events = n.events) (ha : m.queue.applying = n.queue.applying)
    (hi : m.queue.appliedIndex = n.queue.appliedIndex) (hf : m.stepFunc = n.stepFunc)
    (hr : m.replicaSync = n.replicaSync) : FlagMove n m :=
  of_sent [] (by rw [he, append_nil]) (forall_mem_nil _) ha hi hf hr

theorem of_reset (he : m.events = n.events) (ha : m.queue.applying = n.queue.applying)
    (hi : m.queue.appliedIndex = n.queue.appliedIndex) (hr : m.replicaSync = ∅)
    (hf : n.stepFunc ≠ .unknown → m.stepFunc ≠ .unknown) : FlagMove n m := by
  refine ⟨⟨[], by rw [he, append_nil], forall_mem_nil _⟩, ha, hi, fun r h => ?_, hf⟩
  rw [Node.getingLogs, hr] at h
  cases h

theorem refl (n : Node) : FlagMove n n := of_kept rfl rfl rfl rfl rfl

theorem mem_events (h : FlagMove n m) {e : Event} (he : e ∈ n.events) : e ∈ m.events := by
  obtain ⟨new, hs, -⟩ := h.sent
  rw [hs]
  exact mem_append_left _ he

theorem trans (h : FlagMove n m) (h' : FlagMove m k) : FlagMove n k := by
  refine ⟨?_, h'.applying.trans h.applying, h'.appliedIndex.trans h.appliedIndex, fun r hr => ?_,
    fun hf => h'.role (h.role hf)⟩
  · obtain ⟨new, hs, hn⟩ := h.sent
    obtain ⟨new', hs', hn'⟩ := h'.sent
    refine ⟨new ++ new', by rw [hs', hs, append_assoc], fun e he => ?_⟩
    exact (mem_append.mp he).elim (hn e) (hn' e)
  · obtain ⟨hf, hg⟩ | hq := h'.geting r hr
    · obtain ⟨hf', hg'⟩ | ⟨hl, q, hq, hx⟩ := h.geting r hg
      · exact .inl ⟨hf.trans hf', hg'⟩
      · exact .inr ⟨hf.trans hl, q, h'.mem_events hq, hx⟩
    · exact .inr hq

instance : Std.Refl FlagMove := ⟨refl⟩

instance : IsTrans Node FlagMove := ⟨fun _ _ _ => trans⟩

theorem of_record (a : Nat) (info : SyncInfo) (hi : info.getingLogs → n.getingLogs a) :
    FlagMove n { n with replicaSync := n.replicaSync.insert a info } := by
  refine ⟨⟨[], (append_nil _).symm, forall_mem_nil _⟩, rfl, rfl, fun r hr => .inl ⟨rfl, ?_⟩, id⟩
  rw [Node.getingLogs] at hr
  by_cases hra : r = a
  · subst hra
    rw [AList.lookup_insert] at hr
    exact hi hr
  · rwa [AList.lookup_insert_ne hra] at hr

end FlagMove

variable {err : Option RaftError}

variable {P : Event → Prop} {T : Prop} {n m : Node} {e : Event}

theorem Chatter.ne_applyReq {c : NodeCore} (h : Chatter c e) : e.type ≠ .applyReq := by
  cases h <;> exact nofun

theorem Calm.flagMove (h : Calm P n m) : FlagMove n m := by
  cases h with
  | note h =>
    cases h with
    | keep hc he hr => exact .of_kept he (by rw [hc]) (by rw [hc]) (by rw [hc]) hr
    | record r info h => exact .of_record r info h
    | say new h => exact .of_sent new rfl (fun e he => (h e he).1.ne_applyReq) rfl rfl rfl rfl
  | fetch a info q hl hq =>
    refine ⟨⟨[q], rfl, fun x hx => ?_⟩, rfl, rfl, fun r hr => ?_, id⟩
    · rw [mem_singleton.mp hx, hq.1]
      exact nofun
    by_cases hra : r = a
    · exact .inr ⟨hl, q, mem_append_right _ (mem_singleton_self _), hq.1, hq.2.trans hra.symm⟩
    · refine .inl ⟨rfl, ?_⟩
      change ((AList.insert a _ n.replicaSync).lookup r).any _ at hr
      rwa [AList.lookup_insert_ne hra] at hr
  | commit => exact .of_kept rfl rfl rfl rfl rfl

theorem LogChange.flagMove (h : LogChange n m) : FlagMove n m := by
  cases h with
  | calm h => exact h.flagMove
  | queue q h => exact .of_kept rfl h.applying h.appliedIndex rfl rfl
  | truncating => exact .of_kept rfl rfl rfl rfl rfl
  | order =>
    refine .of_sent _ rfl (fun e he => ?_) rfl rfl rfl rfl
    rw [mem_singleton.mp he]
    exact nofun

theorem RoleMove.flagMove (h : RoleMove T n m) : FlagMove n m := by
  cases h with
  | calm h => exact h.flagMove
  | become he hq _ _ hr hf => exact .of_reset he (by rw [hq]) (by rw [hq]) hr hf
  | vote new he hnew _ hf hq _ _ hr =>
    refine .of_sent new he (fun e hm => ?_) (by rw [hq]) (by rw [hq]) hf hr
    rcases hnew e hm with hx | hx <;> rw [hx] <;> exact nofun

theorem Changes.flagMove (h : Changes T n m) : FlagMove n m := by
  refine reflTransGen_le_of_le (fun _ _ hx => ?_) n m h
  cases hx with
  | log h | role h => exact h.flagMove

variable {n m : Node}

theorem Node.flagMove_stepEvent (he : e.type ≠ .applyResp) (h : n.stepEvent e = some (m, err)) : FlagMove n m :=
  (changes_stepEvent he False.elim h).flagMove

theorem Node.step_flagMove (he : e.type ≠ .applyResp) (h : n.step e = some (m, err)) : FlagMove n m :=
  (changes_step he False.elim False.elim h).flagMove

theorem Node.tick_flagMove (h : n.tick = some m) : FlagMove n m := (role_tick False.elim h).change.flagMove

theorem Node.step_applyResp (he : e.type = .applyResp) (h0 : e.term = 0) (h : n.step e = some (m, err)) :
    m = ({ n with queue := if e.reason = .ok then n.queue.appliedTo e.index else { n.queue with applying := false } } :
      Node).publishReadState ∧ err = none := by
  rw [step, enterTerm, h0, stepEvent, he] at h
  by_cases hr : e.reason = .ok
  · simp only [if_pos hr] at h ⊢
    cases h
    exact ⟨rfl, rfl⟩
  · simp only [if_neg hr] at h ⊢
    cases h
    exact ⟨rfl, rfl⟩

end WuKongIM.Raft

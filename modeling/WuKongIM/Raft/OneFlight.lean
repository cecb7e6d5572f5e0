import WuKongIM.Raft.DriverSpec
import WuKongIM.Raft.LogSteps

/-! At most one batch is on its way to the storage, and at most one truncation, in every run. -/
namespace WuKongIM.Raft
open Lib List

/-- How many requests of a type the pool or the inbox still holds. -/
def inFlight (pool : List Task) (inbox : List Event) (type : EventType) : Nat :=
  pool.countP (·.req.type == type) + inbox.countP (·.type == answerType type)

variable {pool : List Task} {inbox : List Event} {k : Nat} {t : Task} {m : Node}

section
variable {r : Event} {type : EventType}

theorem answerType_beq (type : EventType) (h : isRequest type) (x : EventType) :
    (answerType x == answerType type) = (x == type) := by
  cases type <;> first | (cases x <;> rfl) | cases h

variable {t' : Task}

theorem inFlight_more (hk : pool[k]? = some t) (ht : t'.req = t.req) :
    inFlight (pool.set k t') inbox type = inFlight pool inbox type := by
  rw [inFlight, countP_set_of_eq hk (by rw [ht])]
  rfl

theorem inFlight_answer (hk : pool[k]? = some t) (hr : r.type = answerType t.req.type) (hx : isRequest type) :
    inFlight (pool.eraseIdx k) (inbox ++ [r]) type = inFlight pool inbox type := by
  have he := countP_eraseIdx (p := fun u : Task => u.req.type == type) hk
  rw [inFlight, inFlight, countP_append, countP_singleton, hr, answerType_beq type hx]
  omega

theorem inFlight_taken (pool : List Task) (type : EventType) (hk : inbox[k]? = some r) :
    inFlight pool (inbox.eraseIdx k) type + (if r.type == answerType type then 1 else 0) = inFlight pool inbox type := by
  have he := countP_eraseIdx (p := fun x : Event => x.type == answerType type) hk
  rw [inFlight, inFlight]
  omega

theorem not_mem_of_inFlight (h : inFlight pool inbox type = 0) :
    (∀ t ∈ pool, t.req.type ≠ type) ∧ ∀ r ∈ inbox, r.type ≠ answerType type := by
  obtain ⟨hp, hi⟩ := Nat.add_eq_zero_iff.mp h
  refine ⟨fun t ht hx => ?_, fun r hr hx => ?_⟩
  · exact countP_eq_zero.mp hp t ht (beq_iff_eq.mpr hx)
  · exact countP_eq_zero.mp hi r hr (beq_iff_eq.mpr hx)

theorem inFlight_eraseIdx (h : inFlight pool inbox type ≤ 1) (hk : pool[k]? = some t)
    (ht : t.req.type = type) : inFlight (pool.eraseIdx k) inbox type = 0 := by
  have he := countP_eraseIdx (p := fun u : Task => u.req.type == type) hk
  rw [if_pos (beq_iff_eq.mpr ht)] at he
  rw [inFlight] at h ⊢
  omega

theorem only_task (h : inFlight pool inbox type ≤ 1) (hk : pool[k]? = some t) (ht : t.req.type = type) :
    (∀ u ∈ pool, u.req.type = type → u = t) ∧ ∀ r ∈ inbox, r.type ≠ answerType type := by
  obtain ⟨hp, hi⟩ := not_mem_of_inFlight (inFlight_eraseIdx h hk ht)
  refine ⟨fun u hu hx => ?_, hi⟩
  by_contra hne
  exact hp u ((mem_eraseIdx_ne hk hne).mpr hu) hx

theorem mem_set_other (hk : pool[k]? = some t) (hr : t'.req = t.req) (ht : t.req.type ≠ type) :
    ∀ u, u.req.type = type → (u ∈ pool.set k t' ↔ u ∈ pool) := by
  intro u hs
  refine mem_set_ne hk ?_ ?_
  · rintro rfl
    exact ht hs
  · rintro rfl
    exact ht (hr ▸ hs)

theorem mem_erase_other (hk : pool[k]? = some t) (ht : t.req.type ≠ type) :
    ∀ u, u.req.type = type → (u ∈ pool.eraseIdx k ↔ u ∈ pool) := by
  intro u hs
  refine mem_eraseIdx_ne hk ?_
  rintro rfl
  exact ht hs

variable (h : inFlight pool inbox type ≤ 1)
include h

theorem inFlight_taken_only (hk : inbox[k]? = some r) (hr : r.type = answerType type) :
    inFlight pool (inbox.eraseIdx k) type = 0 := by
  have he := inFlight_taken pool type hk
  rw [if_pos (beq_iff_eq.mpr hr)] at he
  omega

theorem only_answer (hk : inbox[k]? = some r) (hr : r.type = answerType type) :
    (∀ u ∈ pool, u.req.type ≠ type) ∧ ∀ x ∈ inbox, x.type = answerType type → x = r := by
  obtain ⟨hp, hi⟩ := not_mem_of_inFlight (inFlight_taken_only h hk hr)
  refine ⟨hp, fun x hx ht => ?_⟩
  by_contra hne
  exact hi x ((mem_eraseIdx_ne hk hne).mpr hx) ht

end

namespace Driven
variable {s : Driven} {events : List Event} {lost : List Nat} {x : EventType} {u : Task}

theorem takeOver_logView (s : Driven) (m : Node) (events : List Event) (lost : List Nat) :
    (s.takeOver m events lost).node.logView = m.logView := by
  unfold takeOver
  dsimp only
  split <;> rfl

theorem mem_takeOver_pool (hu : u ∈ (s.takeOver m events lost).pool) : u ∈ s.pool ∨ ∃ e ∈ events, u = taskOf m e := by
  rcases mem_append.mp hu with hu | hu
  · exact .inl hu
  · obtain ⟨e, he, rfl⟩ := mem_map.mp hu
    exact .inr ⟨e, (mem_filter.mp ((requestsOf_sublist events lost).subset he)).1, rfl⟩

theorem inFlight_takeOver_le (s : Driven) (m : Node) (events : List Event) (lost : List Nat) (x : EventType) :
    inFlight (s.takeOver m events lost).pool s.inbox x ≤ inFlight s.pool s.inbox x + events.countP (·.type == x) := by
  have hsub := ((requestsOf_sublist events lost).trans filter_sublist).countP_le (p := fun e : Event => e.type == x)
  rw [inFlight, inFlight, takeOver_pool, countP_append, countP_map]
  change _ + (requestsOf events lost).countP (fun e => e.type == x) + _ ≤ _
  omega

theorem isRequest_of_isOrder (h : isOrder x) : isRequest x := by
  cases x <;> first | rfl | cases h

theorem mem_takeOver (hu : u ∈ (s.takeOver m events lost).pool) (ho : isOrder u.req.type) :
    u ∈ s.pool ∨ u.calls = 0 ∧ u.req ∈ events.filter fun e => isOrder e.type := by
  obtain hu | ⟨e, he, rfl⟩ := mem_takeOver_pool hu
  · exact .inl hu
  · exact .inr ⟨rfl, mem_filter.mpr ⟨he, ho⟩⟩

theorem inFlight_takeOver (s : Driven) (m : Node) (events : List Event) (lost : List Nat)
    (hx : isOrder x) : inFlight (s.takeOver m events lost).pool s.inbox x ≤
      inFlight s.pool s.inbox x + (events.filter fun e => isOrder e.type).countP (·.type == x) := by
  have hnew : ((requestsOf events lost).map (taskOf m)).countP (·.req.type == x) ≤
      (events.filter fun e => isOrder e.type).countP (·.type == x) := by
    rw [countP_map]
    refine le_trans ((requestsOf_sublist events lost).countP_le) ?_
    rw [countP_filter, countP_filter]
    refine le_of_eq (countP_congr fun e _ => ?_)
    change (e.type == x && isRequest e.type) ↔ (e.type == x && isOrder e.type)
    cases he : e.type == x with
    | false => rfl
    | true => rw [beq_iff_eq.mp he, hx, isRequest_of_isOrder hx]
  rw [inFlight, inFlight, takeOver_pool, countP_append]
  omega

end Driven

/-- The flags bound what is under way. -/
structure OneFlight (v : LogView) (pool : List Task) (inbox : List Event) : Prop where
  orders : ∀ e ∈ v.orders, e.type = .truncateReq
  answers : ∀ r ∈ inbox, isResponse r.type = true ∧ r.term = 0
  stores : inFlight pool inbox .storeReq ≤ if v.appending then 1 else 0
  cuts : v.orders.length + inFlight pool inbox .truncateReq ≤ if v.truncating then 1 else 0

namespace OneFlight
variable {n : Node} {e r : Event} {v : LogView}

theorem stores_le (h : OneFlight v pool inbox) : inFlight pool inbox .storeReq ≤ 1 := by
  have := h.stores
  split at this <;> omega

theorem cuts_le (h : OneFlight v pool inbox) : inFlight pool inbox .truncateReq ≤ 1 := by
  have := h.cuts
  split at this <;> omega

theorem logMove (h : OneFlight n.logView pool inbox) (hs : e.type = .storeResp → inFlight pool inbox .storeReq = 0)
    (ht : e.type = .truncateResp → n.logView.orders.length + inFlight pool inbox .truncateReq = 0)
    (hm : LogMove n e v) : OneFlight v pool inbox := by
  cases hm with
  | same => exact h
  | append => exact { h with }
  | order _ _ hn =>
    have hc := h.cuts
    have hn : n.logView.truncating = false := hn
    rw [hn] at hc
    refine ⟨forall_mem_append.mpr ⟨h.orders, forall_mem_singleton.mpr rfl⟩, h.answers, h.stores, ?_⟩
    · change (n.logView.orders ++ [_]).length + _ ≤ 1
      rw [length_append, length_singleton]
      have hc : n.logView.orders.length + inFlight pool inbox .truncateReq ≤ 0 := hc
      omega
  | cut q _ he => exact { h with cuts := le_of_eq (ht he.1) }
  | uncut _ he => exact { h with cuts := le_of_eq (ht he) }
  | stored q _ he | unstored _ he => exact { h with stores := le_of_eq (hs he.1) }

section
variable (h : OneFlight v pool inbox)
include h

theorem more (hk : pool[k]? = some t) (ht : t'.req = t.req) : OneFlight v (pool.set k t') inbox := by
  refine ⟨h.orders, h.answers, ?_, ?_⟩
  · rw [inFlight_more hk ht]
    exact h.stores
  · rw [inFlight_more hk ht]
    exact h.cuts

theorem answer {d : Driver} {disk disk' : LogStorage} {o : Outcome} (hk : pool[k]? = some t)
    (hc : d.Call disk t o disk' (.response r)) :
    OneFlight v (pool.eraseIdx k) (inbox ++ [r]) := by
  obtain ⟨htype, hresp⟩ := hc.response_type
  refine ⟨h.orders, forall_mem_append.mpr ⟨h.answers, forall_mem_singleton.mpr hresp⟩, ?_, ?_⟩
  · rw [inFlight_answer hk htype rfl]
    exact h.stores
  · rw [inFlight_answer hk htype rfl]
    exact h.cuts

theorem taken (hk : inbox[k]? = some r) : OneFlight v pool (inbox.eraseIdx k) ∧
      (r.type = .storeResp → inFlight pool (inbox.eraseIdx k) .storeReq = 0) ∧
      (r.type = .truncateResp → v.orders.length + inFlight pool (inbox.eraseIdx k) .truncateReq = 0) := by
  have hes := inFlight_taken pool .storeReq hk
  have het := inFlight_taken pool .truncateReq hk
  have hs := h.stores
  have ht := h.cuts
  refine ⟨⟨h.orders, fun x hx => h.answers x (mem_of_mem_eraseIdx hx), ?_, ?_⟩, ?_, ?_⟩
  · omega
  · omega
  · intro hx
    rw [if_pos (show (r.type == answerType .storeReq) from beq_iff_eq.mpr hx)] at hes
    split at hs <;> omega
  · intro hx
    rw [if_pos (show (r.type == answerType .truncateReq) from beq_iff_eq.mpr hx)] at het
    split at ht <;> omega

end

theorem ready {s : Driven} {events : List Event} {lost : List Nat} (h : OneFlight s.node.logView s.pool s.inbox)
    (hr : s.node.ready = some (m, events)) : OneFlight m.logView (s.takeOver m events lost).pool s.inbox := by
  have hfs := s.inFlight_takeOver m events lost (x := .storeReq) rfl
  have hft := s.inFlight_takeOver m events lost (x := .truncateReq) rfl
  have hs := h.stores
  have ht := h.cuts
  have hnone : s.node.logView.orders.countP (·.type == .storeReq) = 0 := by
    rw [countP_eq_zero]
    intro e he
    rw [h.orders e he]
    decide
  have hall : s.node.logView.orders.countP (·.type == .truncateReq) = s.node.logView.orders.length := by
    rw [countP_eq_length]
    intro e he
    rw [h.orders e he]
    rfl
  obtain ⟨-, hv, ho⟩ | ⟨hdue, -, -, hv, ho⟩ := Node.ready_logView hr
  · rw [ho] at hfs hft
    rw [hnone] at hfs
    rw [hv]
    refine ⟨forall_mem_nil _, h.answers, le_trans hfs hs, ?_⟩
    change 0 + _ ≤ if s.node.logView.truncating then 1 else 0
    omega
  · rw [ho, countP_append] at hfs hft
    rw [hnone] at hfs
    have hfree : s.node.logView.appending = false := Node.appending_of_due hdue
    rw [hfree] at hs
    rw [hv]
    refine ⟨forall_mem_nil _, h.answers, ?_, ?_⟩
    · rw [Nat.le_zero.mp hs] at hfs
      exact hfs
    · have hft : _ ≤ _ + (_ + 0) := hft
      change 0 + _ ≤ if s.node.logView.truncating then 1 else 0
      omega

end OneFlight

namespace Driven
variable {d : Driver} {s t : Driven}

abbrev Reached (d : Driver) (ok : Driven → Action → Prop) : Driven → Prop :=
  Reach (fun s => ∃ disk opts, start d disk opts = some s) (step d) ok

def OneAtATime (s : Driven) : Prop := OneFlight s.node.logView s.pool s.inbox

theorem oneFlight_nodeStep {e : Event} {err : Option RaftError} {inbox : List Event}
    (h : OneFlight s.node.logView s.pool inbox) (hs : e.type = .storeResp → inFlight s.pool inbox .storeReq = 0)
    (ht : e.type = .truncateResp → s.node.logView.orders.length + inFlight s.pool inbox .truncateReq = 0)
    (hm : s.node.step e = some (m, err)) : OneFlight m.logView s.pool inbox := by
  obtain ⟨-, hv⟩ | hmove := Node.step_logMove hm
  · rw [hv]
    exact h
  · have hv := s.node.logView_enterTerm e
    exact OneFlight.logMove (hv.symm ▸ h) hs (hv.symm ▸ ht) hmove

theorem OneAtATime.step {a : Action} (h : s.OneAtATime) (hst : s.step d a = some t) : t.OneAtATime := by
  cases moved_of_step hst with
  | step e he m err hm =>
    refine oneFlight_nodeStep (s := s) h ?_ ?_ hm
    · intro hx
      rw [hx] at he
      cases he
    · intro hx
      rw [hx] at he
      cases he
  | tick m hm =>
    rw [OneAtATime, Node.logView_tick hm]
    exact h
  | ready lost m events hm =>
    rw [OneAtATime, takeOver_logView]
    exact OneFlight.ready h hm
  | run k o u hu disk p hp =>
    have hc := Driver.handle_call hp
    cases p with
    | more u' => exact OneFlight.more h hu hc.more_req
    | response r => exact OneFlight.answer h hu hc
  | deliver k r hr m err hm =>
    obtain ⟨htaken, hs, ht⟩ := OneFlight.taken h hr
    exact oneFlight_nodeStep (s := s) htaken hs ht hm

theorem start_oneAtATime {disk : LogStorage} {opts : Options} (h : start d disk opts = some s) : s.OneAtATime := by
  obtain ⟨n, hn, rfl⟩ := Option.map_eq_some_iff.mp h
  rw [OneAtATime, newNode_logView hn]
  exact ⟨forall_mem_nil _, forall_mem_nil _, le_refl 0, le_refl 0⟩

end Driven
end WuKongIM.Raft

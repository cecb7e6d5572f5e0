import Mathlib.Order.Bounds.Basic
import WuKongIM.WKDB.EventLanes

/-! The numbers of the events of a message: one sequence over all its lanes. -/
namespace WuKongIM.WKDB
open Lib List EventTables

structure Ledger where
  message : MessageLanes := {}
  history : List Bytes := []

namespace Ledger

variable (texts : Texts) (statusPayload : MessageEventState → Bytes)

def step (s : Ledger) (call : UInt64 × MessageEvent) : Option Ledger :=
  let after := (s.message.appendMessageEventWithState texts statusPayload call.1 call.2).2
  some ⟨after, if after = s.message then s.history else s.history ++ [normalizeEventKey texts call.2.eventKey]⟩

/-- The hash of the event key is no other key's and is not the bound of the scan, and the counter
goes on. -/
structure Fits (s : Ledger) (call : UInt64 × MessageEvent) : Prop where
  scanned : hashWithString (normalizeEventKey texts call.2.eventKey) ≠ maxUint64
  apart : ∀ l ∈ s.message.lanes, l.hash = hashWithString (normalizeEventKey texts call.2.eventKey) →
    l.state.eventKey = normalizeEventKey texts call.2.eventKey
  room : s.history.length + 1 < 2 ^ 64

instance (s : Ledger) (call : UInt64 × MessageEvent) : Decidable (Fits texts s call) :=
  decidable_of_iff (hashWithString (normalizeEventKey texts call.2.eventKey) ≠ maxUint64 ∧
      (∀ l ∈ s.message.lanes, l.hash = hashWithString (normalizeEventKey texts call.2.eventKey) →
        l.state.eventKey = normalizeEventKey texts call.2.eventKey) ∧ s.history.length + 1 < 2 ^ 64)
    ⟨fun h => ⟨h.1, h.2.1, h.2.2⟩, fun h => ⟨h.scanned, h.apart, h.room⟩⟩

variable {texts : Texts} {statusPayload : MessageEventState → Bytes} {s : Ledger}

/-- Each lane has the number of its last change, and the counter is the number of the changes. -/
structure Sound (s : Ledger) : Prop where
  ascending : Ascending EventLane.key s.message.lanes
  placed : ∀ l ∈ s.message.lanes, l.hash = hashWithString l.state.eventKey ∧ l.hash ≠ maxUint64
  counter : (s.message.seq.getD 0).toNat = s.history.length
  changed : ∀ l ∈ s.message.lanes, l.state.lastMsgEventSeq.toNat = lastChange s.history l.state.eventKey
  keys : ∀ k, k ∈ s.history ↔ ∃ l ∈ s.message.lanes, l.state.eventKey = k

section
variable (h : Sound s) {l l' : EventLane}
include h

theorem Sound.eq_of_eventKey (hl : l ∈ s.message.lanes) (hl' : l' ∈ s.message.lanes)
    (heq : l.state.eventKey = l'.state.eventKey) : l = l' := by
  refine h.ascending.eq_of_key hl hl' ?_
  rw [EventLane.key, EventLane.key, (h.placed l hl).1, (h.placed l' hl').1, heq]

theorem Sound.store (texts : Texts) {event : MessageEvent} (hroom : s.history.length + 1 < 2 ^ 64)
    (hscanned : hashWithString event.eventKey ≠ maxUint64)
    (hapart : ∀ l ∈ s.message.lanes, l.hash = hashWithString event.eventKey → l.state.eventKey = event.eventKey)
    (hstores : ignores (s.message.getMessageEventState event.eventKey) event = false) :
    s.message.incrMessageEventSeq.toNat = s.history.length + 1 ∧ (s.message.store texts event).1.2.lastMsgEventSeq =
      s.message.incrMessageEventSeq ∧ Sound ⟨(s.message.store texts event).2, s.history ++ [event.eventKey]⟩ := by
  have hseq : s.message.incrMessageEventSeq.toNat = s.history.length + 1 := by
    rw [MessageLanes.incrMessageEventSeq, UInt64.toNat_add, h.counter]
    exact Nat.mod_eq_of_lt hroom
  have hlast : (s.message.store texts event).1.2.lastMsgEventSeq = s.message.incrMessageEventSeq :=
    MessageLanes.lastMsgEventSeq_reduce (MessageLanes.not_terminal_of_stores hstores)
  have hkey : (s.message.store texts event).1.2.eventKey = event.eventKey := by
    rw [MessageLanes.store, MessageLanes.eventKey_reduce]
    cases hget : s.message.getMessageEventState event.eventKey with
    | none => rfl
    | some state => exact hapart _ (MessageLanes.mem_of_getState hget) rfl
  refine ⟨hseq, hlast, ?_⟩
  have hmem (l : EventLane) : l ∈ (s.message.store texts event).2.lanes ↔
      l = ⟨hashWithString event.eventKey, (s.message.store texts event).1.2⟩ ∨ l ∈ s.message.lanes ∧
        l.state.eventKey ≠ event.eventKey := by
    have hput : (s.message.store texts event).2.lanes =
        put EventLane.key ⟨hashWithString event.eventKey, (s.message.store texts event).1.2⟩ s.message.lanes := by
      rw [← hkey]
      rfl
    rw [hput, mem_put h.ascending]
    refine or_congr_right (and_congr_right fun hl => not_congr ?_)
    rw [EventLane.key, EventLane.key, UInt64.toNat_inj]
    constructor
    · exact hapart l hl
    · intro heq
      rw [(h.placed l hl).1, heq]
  refine ⟨h.ascending.put _, fun l hl => ?_, ?_, fun l hl => ?_, fun k => ?_⟩
  · rcases (hmem l).mp hl with rfl | ⟨hl, -⟩
    · exact ⟨by rw [hkey], hscanned⟩
    · exact h.placed l hl
  · rw [length_append]
    exact hseq
  · rcases (hmem l).mp hl with rfl | ⟨hl, hne⟩
    · rw [hlast, hseq, hkey, lastChange_append_self]
    · rw [lastChange_append_of_ne hne]
      exact h.changed l hl
  · rw [mem_append, mem_singleton, h.keys]
    constructor
    · rintro (⟨l, hl, rfl⟩ | rfl)
      · by_cases heq : l.state.eventKey = event.eventKey
        · exact ⟨_, (hmem _).mpr (.inl rfl), hkey.trans heq.symm⟩
        · exact ⟨l, (hmem l).mpr (.inr ⟨hl, heq⟩), rfl⟩
      · exact ⟨_, (hmem _).mpr (.inl rfl), hkey⟩
    · rintro ⟨l, hl, rfl⟩
      rcases (hmem l).mp hl with rfl | ⟨hl, -⟩
      · exact .inr hkey
      · exact .inl ⟨l, hl, rfl⟩

theorem Sound.call (statusPayload : MessageEventState → Bytes) {call : UInt64 × MessageEvent} (hf : Fits texts s call) :
    let event := normalize texts call.1 call.2
    let done := s.message.appendMessageEventWithState texts statusPayload call.1 call.2
    if MessageLanes.rejects texts call.2 || ignores (s.message.getMessageEventState event.eventKey) event then
      done.2 = s.message
    else done.2 ≠ s.message ∧ (∃ answer state, done.1 = some (answer, state) ∧
      answer.msgEventSeq.toNat = s.history.length + 1 ∧
      state.lastMsgEventSeq = answer.msgEventSeq) ∧ Sound ⟨done.2, s.history ++ [event.eventKey]⟩ := by
  intro event done
  cases hr : MessageLanes.rejects texts call.2 with
  | true =>
    exact congrArg Prod.snd (if_pos hr)
  | false =>
    have hdone : done = (s.message.append texts statusPayload event).map some id := if_neg (Bool.eq_false_iff.mp hr)
    cases hi : ignores (s.message.getMessageEventState event.eventKey) event with
    | true =>
      obtain ⟨answer, state, -, -, happend⟩ := MessageLanes.append_of_ignores texts statusPayload hi
      rw [hdone, happend]
      rfl
    | false =>
      obtain ⟨hseq, hlast, hsound⟩ := h.store texts hf.room hf.scanned hf.apart hi
      rw [hdone, MessageLanes.append_of_stores texts statusPayload hi]
      refine ⟨fun hsame => ?_, ⟨_, _, rfl, hseq, hlast⟩, hsound⟩
      have hcounter : s.message.incrMessageEventSeq.toNat = (s.message.seq.getD 0).toNat :=
        congrArg (fun m : MessageLanes => (m.seq.getD 0).toNat) hsame
      rw [h.counter] at hcounter
      omega

theorem Sound.step {call : UInt64 × MessageEvent} (hf : Fits texts s call) {t : Ledger}
    (hs : s.step texts statusPayload call = some t) : Sound t := by
  cases hs
  have hcall := h.call statusPayload hf
  dsimp only at hcall ⊢
  split at hcall
  · rw [hcall, if_pos rfl]
    exact h
  · rw [if_neg hcall.1]
    exact hcall.2.2

theorem Sound.isGreatest (hlanes : s.message.lanes ≠ []) :
    IsGreatest {n | ∃ l ∈ s.message.lanes, l.state.lastMsgEventSeq.toNat = n} (s.message.seq.getD 0).toNat := by
  rw [h.counter]
  constructor
  · obtain ⟨l, hl⟩ := exists_mem_of_ne_nil _ hlanes
    have hne : s.history ≠ [] := ne_nil_of_mem ((h.keys _).mpr ⟨l, hl, rfl⟩)
    obtain ⟨front, key, hhistory⟩ : ∃ front key, s.history = front ++ [key] := ⟨_, _, (dropLast_append_getLast hne).symm⟩
    obtain ⟨last, hlast, rfl⟩ := (h.keys key).mp (by simp [hhistory])
    refine ⟨last, hlast, ?_⟩
    rw [h.changed last hlast, hhistory, lastChange_append_self, length_append]
    rfl
  · rintro n ⟨l, hl, rfl⟩
    rw [h.changed l hl]
    exact lastChange_le _ _

theorem Sound.eq_of_number (hl : l ∈ s.message.lanes) (hl' : l' ∈ s.message.lanes)
    (heq : l.state.lastMsgEventSeq = l'.state.lastMsgEventSeq) : l = l' := by
  refine h.eq_of_eventKey hl hl' (lastChange_inj ((h.keys _).mpr ⟨l, hl, rfl⟩) ?_)
  rw [← h.changed l hl, ← h.changed l' hl', heq]

theorem Sound.nodup : (s.message.lanes.map (·.state.lastMsgEventSeq)).Nodup := by
  rw [Nodup, pairwise_map]
  refine h.ascending.imp_of_mem fun hl hl' hlt heq => ?_
  rw [h.eq_of_number hl hl' heq] at hlt
  omega

/-- A list tells the lanes that were changed after a number, in the order of their last changes. -/
theorem Sound.list {clientMsgNo eventKey : Bytes} (hmsg : texts.trimSpace clientMsgNo ≠ [])
    (hkey : texts.trimSpace eventKey = []) (channel : Channel) (fromSeq : UInt64) {limit : Int} (hlimit : 0 < limit) :
    (s.message.listMessageEvents texts statusPayload channel clientMsgNo fromSeq eventKey limit).map (·.eventKey) =
      (s.history.drop fromSeq.toNat).dedup.take limit.toNat := by
  rw [MessageLanes.listMessageEvents_eq texts statusPayload h.nodup channel hmsg fromSeq eventKey hlimit, map_map,
    map_take, hkey]
  congr 1
  generalize hlanes : s.message.inOrder.filter _ = lanes
  have hmem (l : EventLane) : l ∈ lanes ↔ l ∈ s.message.lanes ∧ l.state.eventKey ∈ s.history.drop fromSeq.toNat := by
    rw [← hlanes, mem_filter, MessageLanes.mem_inOrder]
    refine and_congr_right fun hl => ?_
    rw [mem_drop_iff, ← h.changed l hl, ← UInt64.lt_iff_toNat_lt]
    simp [(h.placed l hl).2]
  have hsorted : lanes.Pairwise fun a b => a.state.lastMsgEventSeq.toNat < b.state.lastMsgEventSeq.toNat := by
    rw [← hlanes]
    exact (MessageLanes.pairwise_inOrder h.nodup).filter _
  have hpairwise : (lanes.map (·.state.eventKey)).Pairwise fun k k' => lastChange s.history k < lastChange s.history k' := by
    rw [pairwise_map]
    refine hsorted.imp_of_mem fun hl hl' hlt => ?_
    rwa [← h.changed _ ((hmem _).mp hl).1, ← h.changed _ ((hmem _).mp hl').1]
  refine Perm.eq_of_pairwise (fun a b _ _ hab hba => ?_) hpairwise (pairwise_dedup_drop s.history fromSeq.toNat) ?_
  · omega
  have hnodup : (lanes.map (·.state.eventKey)).Nodup := hpairwise.imp fun hlt heq => by rw [heq] at hlt; omega
  refine (perm_ext_iff_of_nodup hnodup (nodup_dedup _)).mpr fun k => ?_
  rw [mem_map, mem_dedup]
  constructor
  · rintro ⟨l, hl, rfl⟩
    exact ((hmem l).mp hl).2
  · intro hk
    obtain ⟨l, hl, rfl⟩ := (h.keys k).mp (mem_of_mem_drop hk)
    exact ⟨l, (hmem l).mpr ⟨hl, hk⟩, rfl⟩

end

/-- The calls that change something take the numbers one, two, three and so on. The counter is their
number and the largest number of a lane, and lanes differ in their numbers. Calls that are rejected,
repeated or late change nothing, and a list tells the lanes that changed after a number in the order
of their last changes. -/
theorem event_numbers (h : Reach (fun s : Ledger => s = {}) (Ledger.step texts statusPayload) (Fits texts) s) :
    (∀ call, Fits texts s call → (s.message.appendMessageEventWithState texts statusPayload call.1 call.2).2 ≠ s.message →
      ∃ answer state, (s.message.appendMessageEventWithState texts statusPayload call.1 call.2).1 = some (answer, state) ∧
        answer.msgEventSeq.toNat = s.history.length + 1 ∧ state.lastMsgEventSeq = answer.msgEventSeq) ∧
    (s.message.seq.getD 0).toNat = s.history.length ∧
    (s.message.lanes ≠ [] →
      IsGreatest {n | ∃ l ∈ s.message.lanes, l.state.lastMsgEventSeq.toNat = n} (s.message.seq.getD 0).toNat) ∧
    (∀ l ∈ s.message.lanes, ∀ l' ∈ s.message.lanes, l.state.lastMsgEventSeq = l'.state.lastMsgEventSeq → l = l') ∧
    (∀ now event, (MessageLanes.rejects texts event || EventTables.ignores
        (s.message.getMessageEventState (normalizeEventKey texts event.eventKey))
          (EventTables.normalize texts now event)) = true →
      (s.message.appendMessageEventWithState texts statusPayload now event).2 = s.message) ∧
    ∀ channel clientMsgNo fromSeq eventKey limit, texts.trimSpace clientMsgNo ≠ [] →
      texts.trimSpace eventKey = [] → 0 < limit →
      (s.message.listMessageEvents texts statusPayload channel clientMsgNo fromSeq eventKey limit).map (·.eventKey) =
        (s.history.drop fromSeq.toNat).dedup.take limit.toNat := by
  have hsound : Sound s := by
    refine h.invariant Sound (fun s hs => ?_) fun s call t hs hf hstep => hs.step hf hstep
    subst hs
    exact ⟨.nil, by simp, rfl, by simp, by simp⟩
  refine ⟨fun call hf hne => ?_, hsound.counter, hsound.isGreatest, fun l hl l' hl' heq => ?_, fun now event hi => ?_,
    fun channel clientMsgNo fromSeq eventKey limit hmsg hkey hlimit => hsound.list hmsg hkey channel fromSeq hlimit⟩
  · have hcall := hsound.call statusPayload hf
    dsimp only at hcall
    split at hcall
    · exact absurd hcall hne
    · exact hcall.2.1
  · exact hsound.eq_of_number hl hl' heq
  · cases hr : MessageLanes.rejects texts event with
    | true => exact congrArg Prod.snd (if_pos hr)
    | false =>
      rw [hr] at hi
      have hi : ignores (s.message.getMessageEventState (normalize texts now event).eventKey)
          (normalize texts now event) := hi
      obtain ⟨answer, state, -, -, happend⟩ := MessageLanes.append_of_ignores texts statusPayload hi
      rw [MessageLanes.appendMessageEventWithState, if_neg (Bool.eq_false_iff.mp hr), happend]
      rfl

private def opening (eventKey : Bytes) : UInt64 × MessageEvent :=
  (0, { channel := ⟨[99], 2⟩, clientMsgNo := [109], eventID := [49], eventKey := eventKey, eventType := streamDelta })

theorem event_numbers_opened : ∃ s, Reach (fun s : Ledger => s = {}) (Ledger.step .ascii fun _ => []) (Fits .ascii) s ∧
    s.history = [[97], [98]] ∧
    (s.message.listMessageEvents .ascii (fun _ => []) ⟨[99], 2⟩ [109] 1 [] 10).map (·.eventKey) = [[98]] := by
  have hstart : Reach (fun s : Ledger => s = {}) (Ledger.step .ascii fun _ => []) (Fits .ascii) {} := .init rfl
  obtain ⟨s, hs, hhistory⟩ := hstart.exists_of_run [opening [97], opening [98]]
    (fun s => s.history = [[97], [98]]) (by decide +kernel)
  refine ⟨s, hs, hhistory, ?_⟩
  rw [(event_numbers hs).2.2.2.2.2 _ _ 1 _ 10 (by decide) (by decide) (by decide), hhistory]
  decide +kernel

/-- The hash of the event key "pdzfqthdrzfkku" is the bound of the scan: its lane was changed after
number zero and the list does not tell it. -/
theorem event_numbers_fails : ∃ s, Reach (fun s : Ledger => s = {}) (Ledger.step .ascii fun _ => [])
      (fun s call => ∀ l ∈ s.message.lanes, l.hash = hashWithString (normalizeEventKey .ascii call.2.eventKey) →
        l.state.eventKey = normalizeEventKey .ascii call.2.eventKey) s ∧
    s.history = [[112, 100, 122, 102, 113, 116, 104, 100, 114, 122, 102, 107, 107, 117]] ∧
    s.message.lanes.map (·.state.lastMsgEventSeq) = [1] ∧
    s.message.listMessageEvents .ascii (fun _ => []) ⟨[99], 2⟩ [109] 0 [] 10 = [] := by
  have hstart : Reach (fun s : Ledger => s = {}) (Ledger.step .ascii fun _ => [])
      (fun s call => ∀ l ∈ s.message.lanes, l.hash = hashWithString (normalizeEventKey .ascii call.2.eventKey) →
        l.state.eventKey = normalizeEventKey .ascii call.2.eventKey) {} := .init rfl
  refine ⟨_, hstart.step (a := opening [112, 100, 122, 102, 113, 116, 104, 100, 114, 122, 102, 107, 107, 117]) ?_ rfl, ?_⟩
  · exact nofun
  · decide +kernel

end Ledger
end WuKongIM.WKDB

import Mathlib.Data.List.Sort
import WuKongIM.Lib.LastChange
import WuKongIM.Lib.Run
import WuKongIM.WKDB.MessageEvents

/-! The lanes of one message: the states of its event keys, which share one counter. -/
namespace WuKongIM.WKDB
open Lib List Option Function
open EventTables (ignores normalize)

structure NumberedEvent extends MessageEvent where
  msgEventSeq : UInt64
  deriving DecidableEq

/-- A stored state, under the hash of its event key. -/
structure EventLane where
  hash : UInt64
  state : MessageEventState
  deriving DecidableEq

def EventLane.key (l : EventLane) : Nat := l.hash.toNat

structure MessageLanes where
  lanes : List EventLane := []
  seq : Option UInt64 := none
  deriving DecidableEq

namespace MessageLanes

/-- The state of an event key, which has been normalized. -/
def getMessageEventState (m : MessageLanes) (eventKey : Bytes) : Option MessageEventState :=
  (m.lanes.find? fun l => l.key = (hashWithString eventKey).toNat).map (·.state)

/-- The scan ends before the largest hash. -/
def getMessageEventStates (m : MessageLanes) : List MessageEventState :=
  (m.lanes.filter fun l => l.hash ≠ maxUint64).map (·.state)

variable (texts : Texts) (statusPayload : MessageEventState → Bytes)

/-- Without a snapshot the payload tells the status; `statusPayload` is its JSON text. -/
def buildProjectedEvent (channel : Channel) (clientMsgNo : Bytes) (state : MessageEventState) : NumberedEvent where
  channel
  clientMsgNo
  msgEventSeq := state.lastMsgEventSeq
  eventID := state.lastEventID
  eventKey := state.eventKey
  eventType := if texts.trimSpace state.lastEventType = [] then streamSnapshot else state.lastEventType
  visibility := state.lastVisibility
  occurredAt := state.lastOccurredAt
  payload := if state.snapshotPayload = [] then statusPayload state else state.snapshotPayload

/-- The answer to a repetition of the last event. -/
def repeatedEvent (state : MessageEventState) (event : MessageEvent) : NumberedEvent :=
  { event with
    msgEventSeq := state.lastMsgEventSeq
    eventKey := state.eventKey
    eventType := state.lastEventType
    visibility := state.lastVisibility
    occurredAt := state.lastOccurredAt
    payload := if state.snapshotPayload = [] then event.payload else state.snapshotPayload }

def incrMessageEventSeq (m : MessageLanes) : UInt64 := m.seq.getD 0 + 1

variable (event : MessageEvent) (m : MessageLanes)

/-- The event has been normalized. -/
def store : (NumberedEvent × MessageEventState) × MessageLanes :=
  let seq := m.incrMessageEventSeq
  let state := (m.getMessageEventState event.eventKey).getD
    { channel := event.channel, clientMsgNo := event.clientMsgNo, eventKey := event.eventKey }
  let merged := reduceEventState texts state event seq
  (({ event with msgEventSeq := seq }, merged),
    ⟨put EventLane.key ⟨hashWithString merged.eventKey, merged⟩ m.lanes, some seq⟩)

/-- The event has been normalized. -/
def append : (NumberedEvent × MessageEventState) × MessageLanes :=
  match m.getMessageEventState event.eventKey with
  | some state =>
    if state.lastEventID ≠ [] && state.lastEventID = event.eventID then ((repeatedEvent state event, state), m)
    else if isTerminalStatus state.status then
      ((buildProjectedEvent texts statusPayload event.channel event.clientMsgNo state, state), m)
    else m.store texts event
  | none => m.store texts event

/-- An event without a message, an identifier or a type is an error. -/
def rejects : Bool :=
  texts.trimSpace event.clientMsgNo = [] || texts.trimSpace event.eventID = [] || texts.trimSpace event.eventType = []

def appendMessageEventWithState (now : UInt64) (event : MessageEvent) (m : MessageLanes) :
    Option (NumberedEvent × MessageEventState) × MessageLanes :=
  if rejects texts event then (none, m) else (m.append texts statusPayload (normalize texts now event)).map some id

/-- A limit that is not positive stands for two hundred. -/
def listMessageEvents (channel : Channel) (clientMsgNo : Bytes) (fromMsgEventSeq : UInt64)
    (eventKey : Bytes) (limit : Int) : List NumberedEvent :=
  let clientMsgNo := texts.trimSpace clientMsgNo
  let eventKey := texts.trimSpace eventKey
  if clientMsgNo = [] then []
  else
    let res := (m.getMessageEventStates.filter fun state =>
      (eventKey = [] || state.eventKey = normalizeEventKey texts eventKey) && fromMsgEventSeq < state.lastMsgEventSeq).map
        (buildProjectedEvent texts statusPayload channel clientMsgNo)
    (res.insertionSort fun a b => a.msgEventSeq ≤ b.msgEventSeq).take (if limit ≤ 0 then 200 else limit.toNat)

variable {m : MessageLanes} {state : MessageEventState} {texts : Texts} {event : MessageEvent} {statusPayload : MessageEventState → Bytes}
  {l : EventLane}

section
variable {eventKey : Bytes}

theorem mem_of_getState (h : m.getMessageEventState eventKey = some state) :
    ⟨hashWithString eventKey, state⟩ ∈ m.lanes := by
  obtain ⟨l, hl, rfl⟩ := map_eq_some_iff.mp h
  have hkey : l.key = (hashWithString eventKey).toNat := by simpa using find?_some hl
  have hhash : l.hash = hashWithString eventKey := UInt64.toNat_inj.mp hkey
  exact hhash ▸ mem_of_find?_eq_some hl

theorem not_mem_of_getState (h : m.getMessageEventState eventKey = none) (hl : l ∈ m.lanes) :
    l.hash ≠ hashWithString eventKey := by
  intro hhash
  have hnone := find?_eq_none.mp (map_eq_none_iff.mp h) l hl
  simp [EventLane.key, hhash] at hnone

variable (h : Ascending EventLane.key m.lanes)
include h

theorem getState_eq_some :
    m.getMessageEventState eventKey = some state ↔ ⟨hashWithString eventKey, state⟩ ∈ m.lanes := by
  refine ⟨mem_of_getState, fun hl => ?_⟩
  cases hget : m.getMessageEventState eventKey with
  | none => exact absurd rfl (not_mem_of_getState hget hl)
  | some state' =>
    have heq := h.eq_of_key (mem_of_getState hget) hl rfl
    rw [EventLane.mk.injEq] at heq
    rw [heq.2]

theorem getState_put (l : EventLane) (seq : Option UInt64) (eventKey : Bytes) :
    (⟨put EventLane.key l m.lanes, seq⟩ : MessageLanes).getMessageEventState eventKey =
      if hashWithString eventKey = l.hash then some l.state else m.getMessageEventState eventKey := by
  apply ext
  intro state
  rw [getState_eq_some (h.put l), mem_put h]
  split
  · next heq =>
    rw [some.injEq]
    constructor
    · rintro (rfl | ⟨-, hne⟩)
      · rfl
      · exact absurd (congrArg UInt64.toNat heq) hne
    · rintro rfl
      exact .inl (by rw [heq])
  · next hne =>
    rw [getState_eq_some h]
    constructor
    · rintro (rfl | ⟨hl, -⟩)
      · exact absurd rfl hne
      · exact hl
    · intro hl
      exact .inr ⟨hl, fun heq => hne (UInt64.toNat_inj.mp heq)⟩

end

variable {seq : UInt64}

theorem eventKey_reduce : (reduceEventState texts state event seq).eventKey = state.eventKey := by
  rw [reduceEventState]
  split_ifs <;> rfl

theorem lastMsgEventSeq_reduce (h : isTerminalStatus state.status = false) :
    (reduceEventState texts state event seq).lastMsgEventSeq = seq := by
  rw [reduceEventState]
  split_ifs <;> simp_all

section
variable (texts : Texts) (statusPayload : MessageEventState → Bytes)

theorem append_of_ignores (h : ignores (m.getMessageEventState event.eventKey) event) :
    ∃ answer state, m.getMessageEventState event.eventKey = some state ∧ answer.msgEventSeq = state.lastMsgEventSeq ∧
      m.append texts statusPayload event = ((answer, state), m) := by
  cases hget : m.getMessageEventState event.eventKey with
  | none =>
    rw [hget] at h
    cases h
  | some state =>
    rw [hget, ignores, Bool.or_eq_true] at h
    rw [append, hget]
    dsimp only
    split
    · exact ⟨_, state, rfl, rfl, rfl⟩
    · next hrepeated =>
      rw [if_pos (h.resolve_left hrepeated)]
      exact ⟨_, state, rfl, rfl, rfl⟩

variable (h : ignores (m.getMessageEventState event.eventKey) event = false)
include h

theorem append_of_stores : m.append texts statusPayload event = m.store texts event := by
  rw [append]
  cases hget : m.getMessageEventState event.eventKey with
  | none => rfl
  | some state =>
    rw [hget, ignores, Bool.or_eq_false_iff] at h
    dsimp only
    rw [if_neg (Bool.eq_false_iff.mp h.1), if_neg (Bool.eq_false_iff.mp h.2)]

theorem not_terminal_of_stores : isTerminalStatus ((m.getMessageEventState event.eventKey).getD
      { channel := event.channel, clientMsgNo := event.clientMsgNo, eventKey := event.eventKey }).status = false := by
  cases hget : m.getMessageEventState event.eventKey with
  | none => rfl
  | some state =>
    rw [hget, ignores, Bool.or_eq_false_iff] at h
    exact h.2

end

variable {now : UInt64}

/-- Every state lies under the hash of its own event key. -/
def Placed (m : MessageLanes) : Prop := Ascending EventLane.key m.lanes ∧
    ∀ l ∈ m.lanes, l.hash = hashWithString l.state.eventKey

theorem placed_empty : ({} : MessageLanes).Placed := ⟨.nil, nofun⟩

theorem Placed.hash_eventKey (h : m.Placed) {eventKey : Bytes} {state : MessageEventState}
    (hget : m.getMessageEventState eventKey = some state) : hashWithString state.eventKey = hashWithString eventKey :=
  (h.2 _ (mem_of_getState hget)).symm

theorem hash_stored (h : m.Placed) (texts : Texts) (event : MessageEvent) :
    hashWithString (m.store texts event).1.2.eventKey = hashWithString event.eventKey := by
  rw [store, eventKey_reduce]
  cases hget : m.getMessageEventState event.eventKey with
  | none => rfl
  | some state => exact h.hash_eventKey hget

theorem Placed.store (h : m.Placed) (texts : Texts) (event : MessageEvent) : (m.store texts event).2.Placed := by
  refine ⟨h.1.put _, fun l hl => ?_⟩
  rcases (mem_put h.1).mp hl with rfl | ⟨hl, -⟩
  · rfl
  · exact h.2 l hl

theorem Placed.getState_store (h : m.Placed) (texts : Texts) (event : MessageEvent)
    (eventKey : Bytes) : (m.store texts event).2.getMessageEventState eventKey =
      if hashWithString eventKey = hashWithString event.eventKey then some (m.store texts event).1.2
      else m.getMessageEventState eventKey := by
  rw [← hash_stored h texts]
  exact getState_put h.1 ..

abbrev Call := UInt64 × MessageEvent

def stateOf (texts : Texts) (m : MessageLanes) (event : MessageEvent) : Option MessageEventState :=
  m.getMessageEventState (normalizeEventKey texts event.eventKey)

def Accepts (texts : Texts) (m : MessageLanes) (call : Call) : Prop :=
  rejects texts call.2 = false ∧ ignores (m.stateOf texts call.2) (normalize texts call.1 call.2) = false

theorem appendEvent_cases (texts : Texts) (statusPayload : MessageEventState → Bytes) (m : MessageLanes) (call : Call) :
    (rejects texts call.2 ∧ m.appendMessageEventWithState texts statusPayload call.1 call.2 = (none, m)) ∨
    (ignores (m.stateOf texts call.2) (normalize texts call.1 call.2) ∧
      ∃ answer state, m.stateOf texts call.2 = some state ∧ answer.msgEventSeq = state.lastMsgEventSeq ∧
        m.appendMessageEventWithState texts statusPayload call.1 call.2 = (some (answer, state), m)) ∨
    (m.Accepts texts call ∧ m.appendMessageEventWithState texts statusPayload call.1 call.2 =
      (m.store texts (normalize texts call.1 call.2)).map some id) := by
  cases hr : rejects texts call.2 with
  | true => exact .inl ⟨rfl, if_pos hr⟩
  | false =>
    rw [appendMessageEventWithState, if_neg (Bool.eq_false_iff.mp hr)]
    cases hi : ignores (m.getMessageEventState (normalize texts call.1 call.2).eventKey) (normalize texts call.1 call.2) with
    | true =>
      obtain ⟨answer, state, hget, hseq, hsame⟩ := append_of_ignores texts statusPayload hi
      exact .inr (.inl ⟨hi, answer, state, hget, hseq, by rw [hsame]; rfl⟩)
    | false => exact .inr (.inr ⟨⟨hr, hi⟩, by rw [append_of_stores texts statusPayload hi]⟩)

theorem lanes_append (texts : Texts) (statusPayload : MessageEventState → Bytes) (m : MessageLanes) (call : Call) :
    (m.appendMessageEventWithState texts statusPayload call.1 call.2).2 = m ∨ m.Accepts texts call ∧
      (m.appendMessageEventWithState texts statusPayload call.1 call.2).2 =
        (m.store texts (normalize texts call.1 call.2)).2 := by
  rcases appendEvent_cases texts statusPayload m call with ⟨-, hcall⟩ | ⟨-, answer, state, -, -, hcall⟩ | ⟨ha, hcall⟩
  · exact .inl (congrArg Prod.snd hcall)
  · exact .inl (congrArg Prod.snd hcall)
  · exact .inr ⟨ha, congrArg Prod.snd hcall⟩

theorem Placed.append (h : m.Placed) : (m.append texts statusPayload event).2.Placed := by
  cases hi : ignores (m.getMessageEventState event.eventKey) event with
  | true =>
    obtain ⟨answer, state, -, -, happend⟩ := append_of_ignores texts statusPayload hi
    rwa [happend]
  | false =>
    rw [append_of_stores texts statusPayload hi]
    exact h.store texts event

theorem Placed.call (h : m.Placed) : (m.appendMessageEventWithState texts statusPayload now event).2.Placed := by
  rw [appendMessageEventWithState]
  split
  · exact h
  · exact h.append

section
def inOrder (m : MessageLanes) : List EventLane :=
  m.lanes.insertionSort fun a b => a.state.lastMsgEventSeq ≤ b.state.lastMsgEventSeq

theorem mem_inOrder : l ∈ m.inOrder ↔ l ∈ m.lanes := mem_insertionSort _

theorem pairwise_sorted (lanes : List EventLane) :
    (lanes.insertionSort fun a b => a.state.lastMsgEventSeq ≤ b.state.lastMsgEventSeq).Pairwise
      fun a b => a.state.lastMsgEventSeq ≤ b.state.lastMsgEventSeq := by
  exact pairwise_insertionSort _ lanes

section
variable (h : (m.lanes.map (·.state.lastMsgEventSeq)).Nodup)
include h

theorem pairwise_inOrder : m.inOrder.Pairwise fun a b => a.state.lastMsgEventSeq.toNat < b.state.lastMsgEventSeq.toNat := by
  have hnodup : (m.inOrder.map (·.state.lastMsgEventSeq)).Nodup :=
    (((perm_insertionSort _ _).map _).nodup_iff).mpr h
  rw [Nodup, pairwise_map] at hnodup
  refine ((pairwise_sorted m.lanes).and hnodup).imp fun {a b} hab => ?_
  exact lt_of_le_of_ne (UInt64.le_iff_toNat_le.mp hab.1) fun heq => hab.2 (UInt64.toNat_inj.mp heq)

/-- The numbers differ, so there is only one order of the lanes that a list is about. -/
theorem insertionSort_filter (p : EventLane → Bool) :
    (m.lanes.filter p).insertionSort (fun a b => a.state.lastMsgEventSeq ≤ b.state.lastMsgEventSeq) = m.inOrder.filter p := by
  have hperm : ((m.lanes.filter p).insertionSort fun a b => a.state.lastMsgEventSeq ≤ b.state.lastMsgEventSeq).Perm
      (m.inOrder.filter p) := (perm_insertionSort _ _).trans ((perm_insertionSort _ _).symm.filter p)
  refine hperm.eq_of_pairwise (fun a b ha hb hab hba => ?_) (pairwise_sorted _) ((pairwise_sorted _).filter p)
  rw [mem_insertionSort, mem_filter] at ha
  rw [mem_filter, mem_inOrder] at hb
  exact inj_on_of_nodup_map h ha.1 hb.1 (UInt64.le_antisymm hab hba)

end

theorem listMessageEvents_eq (texts : Texts) (statusPayload : MessageEventState → Bytes)
    (h : (m.lanes.map (·.state.lastMsgEventSeq)).Nodup) (channel : Channel) {clientMsgNo : Bytes}
    (hmsg : texts.trimSpace clientMsgNo ≠ []) (fromSeq : UInt64) (eventKey : Bytes) {limit : Int} (hlimit : 0 < limit) :
    m.listMessageEvents texts statusPayload channel clientMsgNo fromSeq eventKey limit =
      ((m.inOrder.filter fun l => l.hash ≠ maxUint64 &&
          ((texts.trimSpace eventKey = [] || l.state.eventKey = normalizeEventKey texts (texts.trimSpace eventKey)) &&
            fromSeq < l.state.lastMsgEventSeq)).take limit.toNat).map
        (buildProjectedEvent texts statusPayload channel (texts.trimSpace clientMsgNo) ∘ (·.state)) := by
  rw [← insertionSort_filter h, listMessageEvents, if_neg hmsg, getMessageEventStates,
    if_neg (by omega), List.filter_map, List.filter_filter, List.map_map]
  dsimp only
  rw [← map_insertionSort fun a b : EventLane => a.state.lastMsgEventSeq ≤ b.state.lastMsgEventSeq, map_take]
  · simp only [comp_apply, Bool.and_comm]
  · exact fun _ _ _ _ => Iff.rfl

end

variable {shardNum : Nat} {k : EventKey} {t : EventTables}

def Mirrors (k : EventKey) (t : EventTables) (m : MessageLanes) : Prop :=
  (∀ eventKey, t.states (k, hashWithString eventKey) = m.getMessageEventState eventKey) ∧ t.seqs k = m.seq

/-- The tables of all messages go the same way as the lanes of the event's own message. -/
theorem Mirrors.append (h : Mirrors k t m) (hplaced : m.Placed)
    (hk : EventTables.eventKey shardNum event.channel event.clientMsgNo = k) :
    Mirrors k (t.append texts shardNum event) (m.append texts statusPayload event).2 := by
  subst hk
  have hstates := h.1 event.eventKey
  rw [EventTables.append, hstates]
  cases hi : ignores (m.getMessageEventState event.eventKey) event with
  | true =>
    obtain ⟨answer, state, -, -, happend⟩ := append_of_ignores texts statusPayload hi
    rw [happend]
    exact h
  | false =>
    rw [append_of_stores texts statusPayload hi, if_neg Bool.false_ne_true, h.2]
    refine ⟨fun eventKey => ?_, update_self ..⟩
    rw [store, getState_put hplaced.1]
    dsimp only
    have hhash := hash_stored hplaced texts event
    rw [store] at hhash
    rw [hhash]
    by_cases heq : hashWithString eventKey = hashWithString event.eventKey
    · rw [if_pos heq, heq, update_self]
      rfl
    · rw [if_neg heq, update_of_ne]
      · exact h.1 eventKey
      · exact fun hkeys => heq (Prod.mk.inj hkeys).2

theorem Mirrors.other (h : Mirrors k t m) (hk : EventTables.eventKey shardNum event.channel event.clientMsgNo ≠ k) :
    Mirrors k (t.append texts shardNum event) m := by
  rw [EventTables.append]
  split
  · exact h
  refine ⟨fun eventKey => ?_, ?_⟩
  · refine Eq.trans (update_of_ne ?_ ..) (h.1 eventKey)
    exact fun hkeys => hk (Prod.mk.inj hkeys).1.symm
  · exact Eq.trans (update_of_ne (Ne.symm hk) ..) h.2

/-- The messages are apart: what the tables of all messages hold of one of them after any events is
what its own lanes hold after its own events. -/
theorem tables_of_message (texts : Texts) (statusPayload : MessageEventState → Bytes)
    (shardNum : Nat) (k : EventKey) (events : List MessageEvent) :
    let own := events.filter fun event => EventTables.eventKey shardNum event.channel event.clientMsgNo = k
    let lanes := own.foldl (fun m event => (append texts statusPayload event m).2) {}
    Mirrors k (events.foldl (EventTables.append texts shardNum) {}) lanes ∧ lanes.Placed := by
  dsimp only
  induction events using reverseRecOn with
  | nil => exact ⟨⟨fun _ => rfl, rfl⟩, placed_empty⟩
  | append_singleton events event ih =>
    rw [foldl_append, filter_append, foldl_append, filter_singleton]
    by_cases hk : EventTables.eventKey shardNum event.channel event.clientMsgNo = k
    · rw [decide_eq_true hk]
      exact ⟨ih.1.append ih.2 hk, ih.2.append⟩
    · rw [decide_eq_false hk]
      exact ⟨ih.1.other hk, ih.2⟩

end MessageLanes
end WuKongIM.WKDB

import WuKongIM.WKDB.Conversation

/-! The events of a message in package wkdb: a state for each event key, and a counter for each
message. -/
namespace WuKongIM.WKDB

structure MessageEvent where
  channel : Channel
  clientMsgNo : Bytes
  eventID : Bytes
  eventKey : Bytes
  eventType : Bytes
  visibility : Bytes := []
  occurredAt : UInt64 := 0
  payload : Bytes := []
  deriving DecidableEq

/-- A state without a status has been neither opened nor ended. -/
inductive EventStatus
  | none | «open» | closed | error | cancelled
  deriving DecidableEq

structure MessageEventState where
  channel : Channel
  clientMsgNo : Bytes
  eventKey : Bytes
  status : EventStatus := .none
  lastMsgEventSeq : UInt64 := 0
  lastEventID : Bytes := []
  lastEventType : Bytes := []
  lastVisibility : Bytes := []
  lastOccurredAt : UInt64 := 0
  snapshotPayload : Bytes := []
  endReason : UInt8 := 0
  error : Bytes := []
  deriving DecidableEq

/-- The fields of an event's payload that are read, when it is a JSON object. -/
structure EventPayload where
  kind : Bytes := []
  delta : Bytes := []
  snapshot : Option Bytes := none
  endReason : UInt8 := 0
  error : Bytes := []

/-- The functions of Go's libraries on strings and JSON texts. `appendText` is the snapshot of kind
text whose text goes on with the delta. -/
structure Texts where
  trimSpace : Bytes → Bytes
  toLower : Bytes → Bytes
  unmarshal : Bytes → Option EventPayload
  appendText : Bytes → Bytes → Bytes

/-- White space and letters of ASCII, and no JSON object. -/
def Texts.ascii : Texts where
  trimSpace s := ((s.dropWhile fun b => b = 32 || 9 ≤ b && b ≤ 13).reverse.dropWhile fun b =>
    b = 32 || 9 ≤ b && b ≤ 13).reverse
  toLower s := s.map fun b => if 65 ≤ b && b ≤ 90 then b + 32 else b
  unmarshal _ := none
  appendText snapshot delta := snapshot ++ delta

def streamDelta : Bytes := [115, 116, 114, 101, 97, 109, 46, 100, 101, 108, 116, 97]
def streamClose : Bytes := [115, 116, 114, 101, 97, 109, 46, 99, 108, 111, 115, 101]
def streamError : Bytes := [115, 116, 114, 101, 97, 109, 46, 101, 114, 114, 111, 114]
def streamCancel : Bytes := [115, 116, 114, 101, 97, 109, 46, 99, 97, 110, 99, 101, 108]
def streamSnapshot : Bytes := [115, 116, 114, 101, 97, 109, 46, 115, 110, 97, 112, 115, 104, 111, 116]
def streamFinish : Bytes := [115, 116, 114, 101, 97, 109, 46, 102, 105, 110, 105, 115, 104]
def eventKeyDefault : Bytes := [109, 97, 105, 110]
def snapshotKindText : Bytes := [116, 101, 120, 116]

def isTerminalStatus : EventStatus → Bool
  | .closed | .error | .cancelled => true
  | _ => false

variable (texts : Texts)

def normalizeEventKey (eventKey : Bytes) : Bytes :=
  let eventKey := texts.trimSpace eventKey
  if eventKey = [] then eventKeyDefault else eventKey

/-- A delta that is no JSON object is added as it is, and one of another kind replaces the
snapshot. -/
def applyDeltaSnapshot (snapshotPayload payload : Bytes) : Bytes :=
  if payload = [] then snapshotPayload
  else match texts.unmarshal payload with
    | none => snapshotPayload ++ payload
    | some p =>
      if p.kind ≠ snapshotKindText then payload
      else if p.delta = [] then snapshotPayload
      else texts.appendText snapshotPayload p.delta

/-- The payload's own snapshot, if it brings one, else the one that is there. -/
def endSnapshot (snapshotPayload payload : Bytes) : Bytes :=
  match (texts.unmarshal payload).bind (·.snapshot) with
  | some snapshot => if snapshot = [] then snapshotPayload else snapshot
  | none => snapshotPayload

/-- The caller has filled in the channel, the message and the key, and has returned before this when
the status was terminal. -/
def reduceEventState (state : MessageEventState) (event : MessageEvent) (seq : UInt64) : MessageEventState :=
  let state := { state with
    lastEventID := event.eventID
    lastEventType := event.eventType
    lastVisibility := event.visibility
    lastOccurredAt := event.occurredAt }
  let payload := (texts.unmarshal event.payload).getD {}
  if isTerminalStatus state.status then state
  else
    let state :=
      if event.eventType = streamDelta then
        { state with
          status := if state.status = .none then .open else state.status
          snapshotPayload := applyDeltaSnapshot texts state.snapshotPayload event.payload }
      else if event.eventType = streamSnapshot then { state with snapshotPayload := event.payload }
      else if event.eventType = streamClose then
        { state with
          snapshotPayload := endSnapshot texts state.snapshotPayload event.payload
          status := .closed
          endReason := payload.endReason }
      else if event.eventType = streamError then
        { state with
          snapshotPayload := endSnapshot texts state.snapshotPayload event.payload
          status := .error
          error := payload.error }
      else if event.eventType = streamCancel then
        { state with
          snapshotPayload := endSnapshot texts state.snapshotPayload event.payload
          status := .cancelled }
      else if event.eventType = streamFinish then { state with status := .closed }
      else state
    { state with lastMsgEventSeq := seq }

structure EventKey where
  shard : Nat
  channelHash : UInt64
  clientMsgNo : UInt64
  deriving DecidableEq

/-- The identifier, a colon and the type. -/
def channelHash (c : Channel) : UInt64 := hashWithString (c.id ++ [58] ++ itoa c.type)

structure EventTables where
  states : EventKey × UInt64 → Option MessageEventState := fun _ => none
  seqs : EventKey → Option UInt64 := fun _ => none

namespace EventTables
variable (texts : Texts) (shardNum : Nat) (t : EventTables)

def eventKey (c : Channel) (clientMsgNo : Bytes) : EventKey :=
  ⟨channelDbIndex shardNum c, channelHash c, hashWithString clientMsgNo⟩

/-- The event with its texts trimmed. A missing time is the local clock's, in milliseconds. -/
def normalize (now : UInt64) (event : MessageEvent) : MessageEvent :=
  { event with
    channel := ⟨texts.trimSpace event.channel.id, event.channel.type⟩
    clientMsgNo := texts.trimSpace event.clientMsgNo
    eventID := texts.trimSpace event.eventID
    eventType := texts.toLower (texts.trimSpace event.eventType)
    eventKey := normalizeEventKey texts event.eventKey
    occurredAt := if event.occurredAt = 0 then now / 1000000 else event.occurredAt }

/-- The last event of a key is not stored twice, and nothing follows a terminal status. -/
def ignores (state : Option MessageEventState) (event : MessageEvent) : Bool :=
  match state with
  | none => false
  | some state => (state.lastEventID ≠ [] && state.lastEventID = event.eventID) || isTerminalStatus state.status

/-- The event has been normalized. -/
def append (event : MessageEvent) : EventTables :=
  let k := eventKey shardNum event.channel event.clientMsgNo
  let stateKey := (k, hashWithString event.eventKey)
  if ignores (t.states stateKey) event then t
  else
    let seq := (t.seqs k).getD 0 + 1
    let state := (t.states stateKey).getD
      { channel := event.channel, clientMsgNo := event.clientMsgNo, eventKey := event.eventKey }
    { states := Function.update t.states stateKey (some (reduceEventState texts state event seq))
      seqs := Function.update t.seqs k (some seq) }

def appendMessageEventWithState (now : UInt64) (event : MessageEvent) : EventTables :=
  t.append texts shardNum (normalize texts now event)

variable {texts : Texts} {shardNum : Nat} {t : EventTables} {event : MessageEvent}

def ends (texts : Texts) (event : MessageEvent) : Bool :=
  texts.toLower (texts.trimSpace event.eventType) ∈ [streamClose, streamError, streamCancel, streamFinish]

theorem lastEventID_reduce (state : MessageEventState) (event : MessageEvent) (seq : UInt64) :
    (reduceEventState texts state event seq).lastEventID = event.eventID := by
  rw [reduceEventState]
  split_ifs <;> rfl

theorem isTerminal_reduce {state : MessageEventState} {event : MessageEvent}
    (h : event.eventType ∈ [streamClose, streamError, streamCancel, streamFinish]) (seq : UInt64) :
    isTerminalStatus (reduceEventState texts state event seq).status := by
  have hdelta : event.eventType ≠ streamDelta := fun he => by
    rw [he] at h
    revert h
    decide
  have hsnapshot : event.eventType ≠ streamSnapshot := fun he => by
    rw [he] at h
    revert h
    decide
  simp only [reduceEventState]
  split_ifs with ht <;> first | exact ht | rfl | simp_all

end EventTables
end WuKongIM.WKDB

import WuKongIM.API.EventSync
import WuKongIM.WKCache.CachedLanes

/-! The requests of package api that append an event to a message, as the leader of the channel's
slot handles them, and the event states of a message as clients are told them. The frames that are
pushed to clients are left out. -/
namespace WuKongIM.API
open WKDB WKCache Lib

def eventKeyFinish : Bytes := [95, 95, 102, 105, 110, 105, 115, 104, 95, 95]

structure EventAppendReq where
  channelID : Bytes
  channelType : UInt8
  fromUID : Bytes := []
  messageID : UInt64 := 0
  clientMsgNo : Bytes
  eventID : Bytes
  eventType : Bytes
  eventKey : Bytes := []
  visibility : Bytes := []
  occurredAt : UInt64 := 0
  payload : Bytes := []

structure EventAppendResp where
  clientMsgNo : Bytes
  eventKey : Bytes
  eventID : Bytes
  msgEventSeq : UInt64
  streamStatus : EventStatus
  channelID : Bytes
  channelType : UInt8
  fromUID : Bytes

inductive AppendError
  | invalid (text : String)
  | cache (e : CacheError)
  | notFound

/-- The libraries that the handlers use, and the options of the node. -/
structure EventOptions where
  texts : GoTexts
  statusPayload : MessageEventState → Bytes
  hashCrc32 : Bytes → UInt32
  channelTypeAgent : UInt8
  shardNum : Nat
  systemUID : Bytes

/-- The databases with the lanes of each message, and the cache. -/
structure EventServer where
  db : EventKey → MessageLanes := fun _ => {}
  cache : MessageEventCache := {}

namespace EventAppendReq
variable (o : EventOptions) (req : EventAppendReq) (c : MessageEventCache)

/-- What the request leaves open is filled in from the session of its message, of whatever
channel. -/
def fill : EventAppendReq :=
  match (if o.texts.trimSpace req.clientMsgNo = [] then none else c.sessions (o.texts.trimSpace req.clientMsgNo)) with
  | none => req
  | some s =>
    { req with
      fromUID := if o.texts.trimSpace req.fromUID = [] && o.texts.trimSpace s.info.fromUid ≠ []
        then s.info.fromUid else req.fromUID
      messageID := if req.messageID = 0 && s.info.messageId ≠ 0 then s.info.messageId else req.messageID }

def check : Except AppendError Unit :=
  if o.texts.trimSpace req.channelID = [] then .error (.invalid "channel_id不能为空！")
  else if o.texts.trimSpace req.clientMsgNo = [] then .error (.invalid "client_msg_no不能为空！")
  else if o.texts.trimSpace req.eventID = [] then .error (.invalid "event_id不能为空！")
  else if o.texts.trimSpace req.eventType = [] then .error (.invalid "event_type不能为空！")
  else .ok ()

def fakeChannel : Channel :=
  ⟨if req.channelType = channelTypePerson then getFakeChannelIDWith o.hashCrc32 req.channelID req.fromUID
    else if req.channelType = o.channelTypeAgent then req.fromUID ++ [64] ++ req.channelID
    else req.channelID, req.channelType⟩

/-- The event of a request. An event that finishes the message has a key of its own. -/
def event : MessageEvent :=
  let eventType := o.texts.toLower (o.texts.trimSpace req.eventType)
  let eventKey := normalizeEventKey o.texts.texts req.eventKey
  { channel := req.fakeChannel o
    clientMsgNo := req.clientMsgNo
    eventID := req.eventID
    eventKey := if eventType = streamFinish then eventKeyFinish else eventKey
    eventType
    visibility := req.visibility
    occurredAt := req.occurredAt
    payload := req.payload }

def sessionMeta : SessionMeta where
  clientMsgNo := req.clientMsgNo
  channel := req.fakeChannel o
  fromUid := req.fromUID
  originalChannelId := req.channelID
  messageId := req.messageID

def prepare : Except AppendError EventAppendReq := do
  let req := req.fill o c
  req.check o
  return { req with fromUID := if o.texts.trimSpace req.fromUID = [] then o.systemUID else req.fromUID }

def respond (eventKey : Bytes) (msgEventSeq : UInt64) (streamStatus : EventStatus) : EventAppendResp where
  clientMsgNo := req.clientMsgNo
  eventKey
  eventID := req.eventID
  msgEventSeq
  streamStatus
  channelID := req.channelID
  channelType := req.channelType
  fromUID := req.fromUID

end EventAppendReq

def isTerminalStreamEventType (eventType : Bytes) : Bool :=
  [streamClose, streamError, streamCancel, streamFinish].contains eventType

variable (o : EventOptions)

def attempt {α : Type} (c : MessageEventCache) : Except CacheError (α × MessageEventCache) →
    Except CacheError α × MessageEventCache
  | .ok (a, c') => (.ok a, c')
  | .error e => (.error e, c)

variable (info : SessionMeta)

/-- The first delta of a lane opens it. -/
def handleStreamDelta (event : MessageEvent) (c : MessageEventCache) : Except CacheError EventKeyState × MessageEventCache :=
  match c.appendDelta o.texts event with
  | .error .sessionNotFound | .error .keyNotFound =>
    match c.upsertSession o.texts info event.eventKey 0 with
    | .error e => (.error e, c)
    | .ok (_, c) => attempt c (c.appendDelta o.texts event)
  | r => attempt c r

/-- The payload that is stored. Only a text that is too long, and the panic at a nil map, keep an
event from being stored. -/
def payloadToStore (event : MessageEvent) (c : MessageEventCache) : Except CacheError (Bytes × MessageEventCache) :=
  if isTerminalStreamEventType event.eventType then
    match c.buildTerminalPayload o.texts event with
    | .error .textTooLong => .error .textTooLong
    | .error .nilMap => .error .nilMap
    | .error _ => .ok (event.payload, c)
    | r => r
  else .ok (event.payload, c)

def eventKey (channel : Channel) (clientMsgNo : Bytes) : EventKey :=
  EventTables.eventKey o.shardNum channel (o.texts.trimSpace clientMsgNo)

/-- The event goes through Raft, and its lane's state is then read. The event is stored with its
channel trimmed, but the state is read with the channel as it came. -/
def appendMessageEventWithState (now : UInt64) (event : MessageEvent) (db : EventKey → MessageLanes) :
    Except AppendError MessageEventState × (EventKey → MessageLanes) :=
  if o.texts.trimSpace event.channel.id = [] then (.error .notFound, db)
  else match o.texts.validateEventText event.payload with
    | .error e => (.error (.cache e), db)
    | .ok () =>
      let k := eventKey o ⟨o.texts.trimSpace event.channel.id, event.channel.type⟩ event.clientMsgNo
      let db := Function.update db k ((db k).appendMessageEventWithState o.texts.texts o.statusPayload now event).2
      let key := normalizeEventKey o.texts.texts (normalizeEventKey o.texts.texts event.eventKey)
      match (db (eventKey o event.channel event.clientMsgNo)).getMessageEventState key with
      | none => (.error .notFound, db)
      | some state => (.ok state, db)

variable (eventKey : Bytes)

/-- The errors of the two operations are only logged. -/
def upsertAfterPersist (state : MessageEventState) (c : MessageEventCache) : MessageEventCache :=
  match c.upsertSession o.texts info eventKey state.lastMsgEventSeq with
  | .error _ => c
  | .ok (_, c) => c

def markAfterPersist (state : MessageEventState) (c : MessageEventCache) : MessageEventCache :=
  match c.markEventKeyPersisted o.texts info.clientMsgNo info.channel eventKey state.status state.lastMsgEventSeq with
  | .error _ => c
  | .ok c => c

def syncEventCacheAfterPersist (state : MessageEventState) (c : MessageEventCache) : MessageEventCache :=
  markAfterPersist o info eventKey state (upsertAfterPersist o info eventKey state c)

def handleStreamPersist (now : UInt64) (info : SessionMeta) (event : MessageEvent)
    (s : EventServer) : Except AppendError MessageEventState × EventServer :=
  match payloadToStore o event s.cache with
  | .error e => (.error (.cache e), s)
  | .ok (payload, cache) =>
    match o.texts.validateEventText payload with
    | .error e => (.error (.cache e), { s with cache })
    | .ok () =>
      match appendMessageEventWithState o now { event with payload } s.db with
      | (.error e, db) => (.error e, { db, cache })
      | (.ok state, db) => (.ok state, { db, cache := syncEventCacheAfterPersist o info event.eventKey state cache })

def eventAppend (now : UInt64) (req : EventAppendReq) (s : EventServer) : Except AppendError EventAppendResp × EventServer :=
  match req.prepare o s.cache with
  | .error e => (.error e, s)
  | .ok req =>
    let event := req.event o
    if event.eventType = streamDelta then
      match handleStreamDelta o (req.sessionMeta o) event s.cache with
      | (.error e, cache) => (.error (.cache e), { s with cache })
      | (.ok ks, cache) => (.ok (req.respond event.eventKey ks.persistedSeq ks.status), { s with cache })
    else
      match handleStreamPersist o now (req.sessionMeta o) event s with
      | (.error e, s) => (.error e, s)
      | (.ok state, s) => (.ok (req.respond state.eventKey state.lastMsgEventSeq state.status), s)

variable (g : GoTexts)

def cacheStateToDBState (channel : Channel) (clientMsgNo : Bytes) (cs : EventKeyState) : MessageEventState where
  channel
  clientMsgNo
  eventKey := cs.eventKey
  status := cs.status
  lastMsgEventSeq := cs.persistedSeq
  lastEventID := cs.lastEventID
  lastEventType := cs.lastEventType
  lastVisibility := cs.lastVisibility
  lastOccurredAt := cs.lastOccurredAt
  snapshotPayload := if cs.textSnapshot ≠ [] then g.json.marshal (textSnapshot cs.textSnapshot) else cs.snapshotPayload

/-- The state of an event key when the database and the cache have one. -/
def mergeCacheState (channel : Channel) (clientMsgNo : Bytes) (existing : Option MessageEventState)
    (cs : EventKeyState) : MessageEventState :=
  let ms := cacheStateToDBState g channel clientMsgNo cs
  match existing with
  | none => ms
  | some existing =>
    if existing.lastMsgEventSeq ≤ cs.persistedSeq || cs.status = .open then
      { ms with
        lastMsgEventSeq := if ms.lastMsgEventSeq = 0 then existing.lastMsgEventSeq else ms.lastMsgEventSeq
        endReason := if ms.endReason = 0 then existing.endReason else ms.endReason
        error := if ms.error = [] then existing.error else ms.error
        snapshotPayload :=
          if cs.textSnapshot ≠ [] then g.json.marshal (textSnapshot cs.textSnapshot)
          else if cs.snapshotPayload ≠ [] then cs.snapshotPayload
          else existing.snapshotPayload }
    else existing

/-- The states by their event keys, in no order that is known. -/
def mergeEventStatesWithCache (c : MessageEventCache) (channel : Channel) (clientMsgNo : Bytes)
    (dbStates : List MessageEventState) :
    List MessageEventState :=
  match c.getEventKeyStates g clientMsgNo channel with
  | none => dbStates
  | some cacheStates =>
    let merged := dbStates.foldl (fun m state => m.insert state.eventKey state) (∅ : AList fun _ : Bytes => MessageEventState)
    let merged := cacheStates.foldl
      (fun m cs => m.insert cs.eventKey (mergeCacheState g channel clientMsgNo (m.lookup cs.eventKey) cs)) merged
    merged.entries.map (·.2)

end WuKongIM.API

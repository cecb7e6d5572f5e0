import Mathlib.Data.List.AList
import WuKongIM.WKCache.Payloads

/-! The cache of package wkcache for the events of messages that are still being written. The times
of the sessions are left out: a session may be taken away at any moment. -/
namespace WuKongIM.WKCache
open WKDB Lib

structure SessionMeta where
  clientMsgNo : Bytes
  channel : Channel
  fromUid : Bytes := []
  originalChannelId : Bytes := []
  messageId : UInt64 := 0
  deriving DecidableEq

structure EventKeyState where
  eventKey : Bytes
  persistedSeq : UInt64 := 0
  status : EventStatus := .none
  lastEventID : Bytes := []
  lastEventType : Bytes := []
  lastVisibility : Bytes := []
  lastOccurredAt : UInt64 := 0
  textSnapshot : Bytes := []
  snapshotPayload : Bytes := []
  deriving DecidableEq

structure Session where
  info : SessionMeta
  keyStates : AList fun _ : Bytes => EventKeyState := ∅

structure MessageEventCache where
  sessions : Bytes → Option Session := fun _ => none

namespace MessageEventCache
variable (g : GoTexts) (c : MessageEventCache)

def put (clientMsgNo : Bytes) (s : Session) : MessageEventCache := ⟨Function.update c.sessions clientMsgNo (some s)⟩

def delete (clientMsgNo : Bytes) : MessageEventCache := ⟨Function.update c.sessions clientMsgNo none⟩

/-- The session of a message, which must be of the channel. -/
def find (clientMsgNo : Bytes) (channel : Channel) : Except CacheError Session :=
  if clientMsgNo = [] then .error .invalidClientMsgNo
  else match c.sessions clientMsgNo with
    | none => .error .sessionNotFound
    | some s => if s.info.channel ≠ channel then .error .channelMismatch else .ok s

def findKey (s : Session) (eventKey : Bytes) : Except CacheError EventKeyState :=
  match s.keyStates.lookup eventKey with
  | none => .error .keyNotFound
  | some ks => .ok ks

def putKey (clientMsgNo : Bytes) (s : Session) (eventKey : Bytes) (ks : EventKeyState) : MessageEventCache :=
  c.put clientMsgNo { s with keyStates := s.keyStates.insert eventKey ks }

def registerStreamMessage (info : SessionMeta) : Except CacheError MessageEventCache :=
  let clientMsgNo := g.trimSpace info.clientMsgNo
  if clientMsgNo = [] then .error .invalidClientMsgNo
  else match c.sessions clientMsgNo with
    | some _ => .ok c
    | none => .ok (c.put clientMsgNo { info := { info with clientMsgNo } })

/-- The states of a session that has any, in no order that is known. -/
def getEventKeyStates (clientMsgNo : Bytes) (channel : Channel) : Option (List EventKeyState) :=
  match c.find (g.trimSpace clientMsgNo) channel with
  | .error _ => none
  | .ok s => if s.keyStates.entries = [] then none else some (s.keyStates.entries.map (·.2))

/-- What a new request tells about a message goes into its session. -/
def refresh (old new : SessionMeta) : SessionMeta :=
  { old with
    fromUid := if g.trimSpace new.fromUid ≠ [] then new.fromUid else old.fromUid
    originalChannelId := if g.trimSpace new.originalChannelId ≠ [] then new.originalChannelId else old.originalChannelId
    messageId := if new.messageId ≠ 0 then new.messageId else old.messageId }

def upsertKey (persistedSeq : UInt64) (ks : EventKeyState) : EventKeyState :=
  { ks with
    persistedSeq := if persistedSeq > ks.persistedSeq then persistedSeq else ks.persistedSeq
    status := if ks.status = .none then .open else ks.status }

def upsertSession (info : SessionMeta) (eventKey : Bytes) (persistedSeq : UInt64) :
    Except CacheError (EventKeyState × MessageEventCache) := do
  let clientMsgNo := g.trimSpace info.clientMsgNo
  let eventKey := normalizeEventKey g.texts eventKey
  let s ← match c.find clientMsgNo info.channel with
    | .error .sessionNotFound => pure { info := { info with clientMsgNo } }
    | .error e => .error e
    | .ok s => pure { s with info := refresh g s.info info }
  let ks := upsertKey persistedSeq ((s.keyStates.lookup eventKey).getD { eventKey, status := .open })
  return (ks, c.putKey clientMsgNo s eventKey ks)

/-- A text goes on, and any other payload takes the place of the one before it. -/
def addDelta (ks : EventKeyState) (payload : Bytes) : Except CacheError EventKeyState :=
  let textDelta := g.extractCacheTextDelta payload
  if textDelta ≠ [] then do
    let nextText := ks.textSnapshot ++ textDelta
    g.validateTextContent nextText
    return { ks with textSnapshot := nextText }
  else if payload ≠ [] then do
    g.validateEventText payload
    return { ks with snapshotPayload := payload }
  else return ks

def noteEvent (ks : EventKeyState) (event : MessageEvent) : EventKeyState :=
  { ks with
    lastEventID := g.trimSpace event.eventID
    lastEventType := g.trimSpace event.eventType
    lastVisibility := g.trimSpace event.visibility
    lastOccurredAt := event.occurredAt }

def appendDelta (event : MessageEvent) : Except CacheError (EventKeyState × MessageEventCache) := do
  let clientMsgNo := g.trimSpace event.clientMsgNo
  let eventKey := normalizeEventKey g.texts event.eventKey
  let s ← c.find clientMsgNo event.channel
  let ks ← findKey s eventKey
  if isTerminalStatus ks.status then .error .streamClosed
  else
    let ks ← addDelta g ks event.payload
    let ks := { noteEvent g ks event with status := .open }
    return (ks, c.putKey clientMsgNo s eventKey ks)

/-- The payload that is stored for a terminal event: the event's own with the snapshot of the cache
in it. -/
def buildTerminalPayload (event : MessageEvent) : Except CacheError (Bytes × MessageEventCache) := do
  let clientMsgNo := g.trimSpace event.clientMsgNo
  let eventKey := normalizeEventKey g.texts event.eventKey
  let s ← c.find clientMsgNo event.channel
  let ks ← findKey s eventKey
  let merged ←
    if ks.textSnapshot ≠ [] || ks.snapshotPayload ≠ [] then
      match g.mergeTerminalPayloadWithSnapshot event.payload ks.textSnapshot ks.snapshotPayload with
      | some merged => pure merged
      | none => .error .nilMap
    else pure event.payload
  g.validateEventText merged
  return (merged, c.putKey clientMsgNo s eventKey (noteEvent g ks event))

def markKey (status : EventStatus) (persistedSeq : UInt64) (ks : EventKeyState) : EventKeyState :=
  { ks with
    persistedSeq := if persistedSeq > ks.persistedSeq then persistedSeq else ks.persistedSeq
    status := if status ≠ .none then status else ks.status }

def allEventKeysTerminal (s : Session) : Bool :=
  s.keyStates.entries ≠ [] && s.keyStates.entries.all fun ks => isTerminalStatus ks.2.status

/-- A session whose keys are all terminal is dropped. -/
def markEventKeyPersisted (clientMsgNo : Bytes) (channel : Channel) (eventKey : Bytes)
    (status : EventStatus) (persistedSeq : UInt64) : Except CacheError MessageEventCache := do
  let clientMsgNo := g.trimSpace clientMsgNo
  let eventKey := normalizeEventKey g.texts eventKey
  let s ← c.find clientMsgNo channel
  let ks := markKey status persistedSeq ((s.keyStates.lookup eventKey).getD { eventKey })
  let s := { s with keyStates := s.keyStates.insert eventKey ks }
  return if allEventKeysTerminal s then c.delete clientMsgNo else c.put clientMsgNo s

variable {g : GoTexts} {c : MessageEventCache} {clientMsgNo eventKey : Bytes} {channel : Channel} {event : MessageEvent} {s : Session}

theorem find_eq_ok : c.find clientMsgNo channel = .ok s ↔
    clientMsgNo ≠ [] ∧ c.sessions clientMsgNo = some s ∧ s.info.channel = channel := by
  rw [find]
  split
  · simp_all
  split
  · simp_all
  rename_i s' hs
  rw [hs, Option.some.injEq]
  split
  · next hne =>
    simp only [reduceCtorEq, false_iff, not_and]
    rintro - rfl
    exact hne
  · next hch =>
    rw [Except.ok.injEq]
    constructor
    · rintro rfl
      exact ⟨‹_›, rfl, not_not.mp hch⟩
    · exact fun h => h.2.1

theorem find_eq_sessionNotFound : c.find clientMsgNo channel = .error .sessionNotFound ↔
    clientMsgNo ≠ [] ∧ c.sessions clientMsgNo = none := by
  rw [find]
  split
  · simp_all
  · split
    · simp_all
    · split <;> simp_all

theorem findKey_eq_ok {ks : EventKeyState} : findKey s eventKey = .ok ks ↔ s.keyStates.lookup eventKey = some ks := by
  rw [findKey]
  split <;> simp_all

theorem textSnapshot_of_addDelta {ks added : EventKeyState} {payload : Bytes} (h : addDelta g ks payload = .ok added) :
    added.textSnapshot = ks.textSnapshot ++ g.extractCacheTextDelta payload := by
  rw [addDelta] at h
  split at h
  · obtain ⟨-, -, h⟩ := bind_eq_ok.mp h
    cases h
    rfl
  · next hempty =>
    rw [not_not.mp hempty, List.append_nil]
    split at h
    · obtain ⟨-, -, h⟩ := bind_eq_ok.mp h
      cases h
      rfl
    · cases h
      rfl

theorem appendDelta_eq_ok {ks' : EventKeyState} {c' : MessageEventCache} :
    c.appendDelta g event = .ok (ks', c') ↔ ∃ s ks added, c.find (g.trimSpace event.clientMsgNo) event.channel = .ok s ∧
      s.keyStates.lookup (normalizeEventKey g.texts event.eventKey) = some ks ∧ isTerminalStatus ks.status = false ∧
      addDelta g ks event.payload = .ok added ∧ ks' = { noteEvent g added event with status := .open } ∧
      c' = c.putKey (g.trimSpace event.clientMsgNo) s (normalizeEventKey g.texts event.eventKey) ks' := by
  rw [appendDelta, bind_eq_ok]
  refine exists_congr fun s => ?_
  rw [bind_eq_ok, ← exists_and_left]
  refine exists_congr fun ks => ?_
  rw [findKey_eq_ok]
  constructor
  · rintro ⟨hs, hks, h⟩
    split at h
    · cases h
    rename_i hopen
    obtain ⟨added, hadded, h⟩ := bind_eq_ok.mp h
    cases h
    exact ⟨added, hs, hks, Bool.eq_false_iff.mpr hopen, hadded, rfl, rfl⟩
  · rintro ⟨added, hs, hks, hopen, hadded, rfl, rfl⟩
    refine ⟨hs, hks, ?_⟩
    rw [if_neg (Bool.eq_false_iff.mp hopen), hadded]
    rfl

end MessageEventCache
end WuKongIM.WKCache

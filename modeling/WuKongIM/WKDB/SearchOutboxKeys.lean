import WuKongIM.Lib.UTF8
import WuKongIM.WKDB.MessageStore

/-! The search outbox of package wkdb: the identity of a task, the keys made of it, and the record
that a key and its value decode to. -/
namespace WuKongIM.WKDB
open Lib

structure SearchOutboxIdentity where
  channelID : Bytes
  channelType : UInt8
  messageSeq : UInt64
  messageID : Int64
  deriving DecidableEq

variable (id : SearchOutboxIdentity)

def SearchOutboxIdentity.channel : Channel := ⟨id.channelID, id.channelType⟩

inductive OutboxError where
  /-- an error of the message tables -/
  | chat (e : DBError)
  /-- search outbox identity is invalid -/
  | invalidIdentity
  /-- invalid search outbox channel identity -/
  | channelIdentity
  /-- invalid search outbox message identity -/
  | messageIdentity
  /-- parse search outbox key: invalid search outbox key prefix, length, channel encoding or message identity -/
  | parseKey
  /-- decode search outbox value -/
  | decodeValue
  /-- search outbox key and value identity differ -/
  | identityDiffers
  /-- encode search outbox message -/
  | encodeMessage
  /-- search outbox sequence is zero -/
  | sequenceZero
  /-- search outbox floor is corrupt -/
  | floorCorrupt
  /-- search outbox durable state is corrupt -/
  | stateCorrupt
  /-- search outbox task epoch is required -/
  | epochRequired
  /-- search outbox task epoch is stale -/
  | staleEpoch
  /-- search outbox task state does not allow this operation -/
  | state
  /-- search outbox ack task count exceeds limit -/
  | ackCount
  /-- invalid search outbox quarantine reason -/
  | quarantineReason
  /-- load search outbox quarantine: not found -/
  | quarantineNotFound
  /-- search outbox quarantine record is corrupt -/
  | quarantineCorrupt
  /-- search outbox pull limit must be between 1 and 500 -/
  | pullLimit
  /-- search outbox byte budget must be positive -/
  | byteBudget
  /-- load durable applied index: channel applied index is corrupt -/
  | appliedCorrupt (length : Nat)
  deriving DecidableEq

def maxSearchOutboxChannelIDBytes : Nat := 100

def maxMessageSequence : UInt64 := 0xffffffff

def SearchOutboxIdentity.validate : Except OutboxError Unit :=
  if id.channelID = [] ∨ id.channelID.length > maxSearchOutboxChannelIDBytes ∨ id.channelType = 0 ∨ id.messageSeq = 0 ∨
      id.messageSeq > maxMessageSequence ∨ id.messageID ≤ 0 then .error .invalidIdentity
  else .ok ()

variable (c : Channel)

def isValidSearchOutboxChannelIdentity : Bool :=
  c.id ≠ [] && c.type ≠ 0 && validUTF8 c.id && c.id.length ≤ maxSearchOutboxChannelIDBytes

def tableSearchOutbox : Bytes := [0x1B, 0x01, 0x01, 0]

def searchOutboxChannelPrefix : Except OutboxError Bytes :=
  if isValidSearchOutboxChannelIdentity c then .ok (tableSearchOutbox ++ c.type :: bigEndian 2 c.id.length ++ c.id)
  else .error .channelIdentity

def newSearchOutboxKey (messageSeq : UInt64) (messageID : Int64) : Except OutboxError Bytes := do
  let front ← searchOutboxChannelPrefix c
  if messageSeq = 0 ∨ messageSeq > 0xffffffff ∨ messageID ≤ 0 then .error .messageIdentity
  else .ok (front ++ bigEndian 8 messageSeq.toNat ++ bigEndian 8 messageID.toUInt64.toNat)

def parseSearchOutboxKey (raw : Bytes) : Except OutboxError SearchOutboxIdentity :=
  let fixedBytes := 2 + 2 + 1 + 2 + 8 + 8
  let channelType := raw.getD 4 0
  let channelLength := ofBigEndian ((raw.drop 5).take 2)
  let channelBytes := (raw.drop 7).take channelLength
  let offset := 7 + channelLength
  let messageSeq := ofBigEndian ((raw.drop offset).take 8)
  let rawMessageID := ofBigEndian ((raw.drop (offset + 8)).take 8)
  if raw.length < fixedBytes ∨ raw.take 4 ≠ tableSearchOutbox ∨ channelType = 0 then .error .parseKey
  else if channelLength = 0 ∨ channelLength > maxSearchOutboxChannelIDBytes ∨ raw.length ≠ fixedBytes + channelLength then
    .error .parseKey
  else if !validUTF8 channelBytes then .error .parseKey
  else if messageSeq = 0 ∨ messageSeq > 2 ^ 32 - 1 ∨ rawMessageID = 0 ∨ rawMessageID > 2 ^ 63 - 1 then .error .parseKey
  else .ok ⟨channelBytes, channelType, UInt64.ofNat messageSeq, (UInt64.ofNat rawMessageID).toInt64⟩

/-- The floor of a channel stands under the same bytes with another kind of row. -/
def newSearchOutboxFloorKey : Except OutboxError Bytes := do
  let front ← searchOutboxChannelPrefix c
  return front.set 2 0x04

/-- The least key above all keys that start with these bytes. -/
def nextPrefix (bytes : Bytes) : Option Bytes :=
  match bytes.reverse.dropWhile (· = 0xff) with
  | [] => none
  | last :: front => some (front.reverse ++ [last + 1])

def newSearchOutboxChannelRange (firstMessageSeq : UInt64) : Except OutboxError (Bytes × Bytes) := do
  let front ← searchOutboxChannelPrefix c
  if firstMessageSeq = 0 ∨ firstMessageSeq > 0xffffffff then .error .messageIdentity
  else
    match nextPrefix front with
    | some upper => .ok (front ++ bigEndian 8 firstMessageSeq.toNat ++ bigEndian 8 1, upper)
    | none => .error .channelIdentity

/-- The packets of the protocol library: a frame of a message as the library encodes it, and what it
decodes. Neither has the term nor the mark for the outbox. `binary` splits off the bytes that older
encodings give with a length of two bytes. -/
structure Frames where
  latestVersion : UInt8
  encodeFrame : Message → Option Bytes
  decodeFrame : UInt8 → Bytes → Option Message
  binary : Decoder Bytes

def messageDataVersionLegacy : Nat := 0

def messageDataVersionSearchOutbox : Nat := 1

variable (frames : Frames)

def Frames.marshal (m : Message) : Option Bytes := do
  let data ← frames.encodeFrame m
  return [frames.latestVersion + 100, UInt8.ofNat messageDataVersionSearchOutbox] ++ bigEndian 4 data.length ++ data ++
    bigEndian 8 m.term.toNat ++ [1]

def Frames.read : Decoder Message := do
  let version ← readNat 1
  let newEncode := version > 100
  let version := if newEncode then version - 100 else version
  let (dataVersion, recvPacketData) ←
    if newEncode then do
      let dataVersion ← readNat 1
      if dataVersion > messageDataVersionSearchOutbox then StateT.lift none
      let recvPacketDataLen ← readNat 4
      let data ← takeBytes recvPacketDataLen
      pure (dataVersion, data)
    else do
      let data ← frames.binary
      pure (messageDataVersionLegacy, data)
  let m ← StateT.lift (frames.decodeFrame (UInt8.ofNat version) recvPacketData)
  let term ← readNat 8
  let m := { m with term := UInt64.ofNat term, searchOutbox := false }
  if dataVersion ≥ messageDataVersionSearchOutbox then do
    let flag ← readNat 1
    if flag = 0 then pure m
    else if flag = 1 then pure { m with searchOutbox := true }
    else StateT.lift none
  else pure m

/-- What stands behind the message is not looked at. -/
def Frames.unmarshal (data : Bytes) : Option Message := (frames.read.run data).map Prod.fst

def searchOutboxIdentityFromMessage (m : Message) : SearchOutboxIdentity :=
  ⟨m.channelID, m.channelType, m.messageSeq.toUInt64, m.messageID⟩

/-- The identity and the message of a record. -/
def decodeSearchOutboxRecord (key value : Bytes) : Except OutboxError (SearchOutboxIdentity × Message) := do
  let identity ← parseSearchOutboxKey key
  match frames.unmarshal value with
  | none => .error .decodeValue
  | some message =>
    if !message.searchOutbox ∨ searchOutboxIdentityFromMessage message ≠ identity then .error .identityDiffers
    else .ok (identity, message)

end WuKongIM.WKDB

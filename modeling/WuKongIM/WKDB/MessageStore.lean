import WuKongIM.WKDB.Message

/-! The message tables of package wkdb: shards of ordered keys, the indexes of a message, the two
caches in front of them, and the functions that append, truncate and read messages. -/
namespace WuKongIM.WKDB
open Lib List Function

structure Channel where
  id : Bytes
  type : UInt8
  deriving DecidableEq

def Message.channel (m : Message) : Channel := ⟨m.channelID, m.channelType⟩

def digits (n : Nat) : Bytes :=
  ((if 100 ≤ n then [n / 100] else []) ++ (if 10 ≤ n then [n / 10 % 10] else []) ++ [n % 10]).map fun d => UInt8.ofNat (48 + d)

def itoa (type : UInt8) : Bytes := digits type.toNat

theorem toNat_digit {d : Nat} (h : d < 10) : (UInt8.ofNat (48 + d)).toNat = 48 + d := by
  rw [UInt8.toNat_ofNat']
  omega

/-- The digits are those of one number only, and nothing else is among them. -/
theorem digits_spec (n : Nat) (h : n < 256) : (digits n).foldl (fun acc byte => acc * 10 + (byte.toNat - 48)) 0 = n ∧
    ∀ byte ∈ digits n, 48 ≤ byte ∧ byte ≤ 57 := by
  have hundreds := toNat_digit (show n / 100 < 10 by omega)
  have htens := toNat_digit (show n / 10 % 10 < 10 by omega)
  have hones := toNat_digit (show n % 10 < 10 by omega)
  rw [digits]
  constructor
  · split <;> split <;>
      simp only [nil_append, cons_append, map_cons, map_nil, foldl_cons, foldl_nil, hones] <;> omega
  intro byte hb
  obtain ⟨d, hd, rfl⟩ := mem_map.mp hb
  have hlt : d < 10 := by
    split at hd <;> split at hd <;> simp at hd <;> omega
  rw [UInt8.le_iff_toNat_le, UInt8.le_iff_toNat_le, toNat_digit hlt]
  exact ⟨Nat.le_add_right 48 d, by show 48 + d ≤ 57; omega⟩

theorem itoa_inj {type type' : UInt8} (h : itoa type = itoa type') : type = type' := by
  have hv := (digits_spec type.toNat type.toNat_lt).1
  have hv' := (digits_spec type'.toNat type'.toNat_lt).1
  refine UInt8.toNat_inj.mp ?_
  rw [← hv, ← hv']
  exact congrArg _ h

theorem notMem_itoa {byte type : UInt8} (h : byte < 48 ∨ 57 < byte) : byte ∉ itoa type := by
  intro hm
  obtain ⟨h1, h2⟩ := (digits_spec type.toNat type.toNat_lt).2 byte hm
  rcases h with h | h
  · exact UInt8.not_le.mpr h h1
  · exact UInt8.not_le.mpr h h2

/-- FNV-1a on 64 bits. -/
def hashWithString (s : Bytes) : UInt64 :=
  s.foldl (fun hash byte => (hash ^^^ byte.toUInt64) * 1099511628211) 14695981039346656037

/-- The identifier, a hyphen and the type. -/
def Channel.key (c : Channel) : Bytes := c.id ++ [45] ++ itoa c.type

def channelToNum (c : Channel) : UInt64 := hashWithString c.key

/-- The type, an ampersand and the identifier. -/
def channelToKey (c : Channel) : Bytes := itoa c.type ++ [38] ++ c.id

/-- The sender, the identifier and the byte of the type, with colons between them. -/
def makeKey (uid : Bytes) (c : Channel) : Bytes := uid ++ [58] ++ c.id ++ [58] ++ [c.type]

/-- A key of the index of senders. -/
structure FromUidKey where
  hash : UInt64
  num : UInt64
  seq : UInt64
  deriving DecidableEq

def FromUidKey.key (k : FromUidKey) : Nat := (k.hash.toNat * 2 ^ 64 + k.num.toNat) * 2 ^ 64 + k.seq.toNat

/-- One database. The tables differ in the first bytes of their keys, so they are apart. -/
structure Shard where
  rows : List Row := []
  fromUids : List FromUidKey := []
  messageIds : UInt64 → Option (UInt64 × UInt64) := fun _ => none
  lastSeqs : UInt64 → Option UInt64 := fun _ => none

structure WukongDB where
  shardNum : Nat
  pos : 0 < shardNum
  dbs : Nat → Shard := fun _ => {}
  channelSeqCache : Bytes → Option UInt64 := fun _ => none
  userLastMsgSeqCache : Bytes → Option UInt64 := fun _ => none

def maxUint64 : UInt64 := 0xffffffffffffffff

namespace Shard

def writeMessage (num : UInt64) (s : Shard) (m : Message) : Shard :=
  { s with
    rows := putAll Row.key (m.rows num) s.rows
    fromUids := put FromUidKey.key ⟨hashWithString m.fromUID, num, m.messageSeq.toUInt64⟩ s.fromUids
    messageIds := update s.messageIds m.messageID.toUInt64 (some (num, m.messageSeq.toUInt64)) }

def setChannelLastMessageSeq (num seq : UInt64) (s : Shard) : Shard :=
  { s with lastSeqs := update s.lastSeqs num (some seq) }

def deleteRange (lower upper : Nat) (s : Shard) : Shard :=
  { s with rows := s.rows.filter fun r => !(lower ≤ r.key && r.key < upper) }

def newIter (s : Shard) (lower upper : Nat) : List Row := s.rows.filter fun r => lower ≤ r.key && r.key < upper

def queryUserLastMsgSeq (s : Shard) (num : UInt64) (fromUid : Bytes) : UInt64 :=
  let low := FromUidKey.key ⟨hashWithString fromUid, num, 0⟩
  let high := FromUidKey.key ⟨hashWithString fromUid, num, maxUint64⟩
  match (s.fromUids.filter fun k => low ≤ k.key && k.key < high).getLast? with
  | some k => k.seq
  | none => 0

end Shard

/-- The loop of `iteratorChannelMessagesDirection` after its first move, with the messages that it
hands to the callback. -/
def scan (limit : Nat) (iterFnc : Message → Bool) : List Row → Nat → UInt64 → Message → Bool → Except DBError (List Message)
  | [], _, _, pre, hasData => .ok (if hasData then [pre] else [])
  | r :: rows, size, preSeq, pre, _ =>
    if preSeq ≠ r.seq then
      if preSeq ≠ 0 then
        if !iterFnc pre then .ok [pre]
        else if limit ≠ 0 ∧ size + 1 ≥ limit then .ok [pre]
        else do
          let m ← (Message.ofSeq r.seq).readColumn r.column
          let rest ← scan limit iterFnc rows (size + 1) r.seq m true
          return pre :: rest
      else do
        let m ← (Message.ofSeq r.seq).readColumn r.column
        scan limit iterFnc rows size r.seq m true
    else do
      let m ← pre.readColumn r.column
      scan limit iterFnc rows size preSeq m true

/-- The iterator moves to its first row, and the loop moves on before it reads. -/
def iteratorChannelMessagesDirection (rows : List Row) (limit : Nat) (reverse : Bool)
    (iterFnc : Message → Bool) : Except DBError (List Message) :=
  match if reverse then rows.reverse else rows with
  | [] => .ok []
  | _ :: rows => scan limit iterFnc rows 0 0 {} false

def iteratorChannelMessages (rows : List Row) (limit : Nat) (iterFnc : Message → Bool) : Except DBError (List Message) :=
  iteratorChannelMessagesDirection rows limit false iterFnc

def scanSize (size : Message → UInt64) (limitSize : UInt64) :
    List Row → UInt64 → UInt64 → Message → Bool → Except DBError (List Message)
  | [], _, _, pre, lastNeedAppend => .ok (if lastNeedAppend then [pre] else [])
  | r :: rows, total, preSeq, pre, _ =>
    if r.seq = 0 then .error .panic
    else if preSeq ≠ r.seq then
      if preSeq ≠ 0 then
        if limitSize ≠ 0 ∧ total + size pre ≥ limitSize then .ok [pre]
        else do
          let m ← (Message.ofSeq r.seq).readColumn r.column
          let rest ← scanSize size limitSize rows (total + size pre) r.seq m true
          return pre :: rest
      else do
        let m ← (Message.ofSeq r.seq).readColumn r.column
        scanSize size limitSize rows total r.seq m true
    else do
      let m ← pre.readColumn r.column
      scanSize size limitSize rows total preSeq m true

def parseChannelMessagesWithLimitSize (size : Message → UInt64) (rows : List Row)
    (limitSize : UInt64) : Except DBError (List Message) :=
  scanSize size limitSize rows 0 0 {} false

namespace WukongDB

variable (db : WukongDB) (c : Channel)

def channelDbIndex : Nat := (channelToNum c).toNat % db.shardNum

def channelDb : Shard := db.dbs (db.channelDbIndex c)

def commit (batch : Shard → Shard) : WukongDB :=
  { db with dbs := update db.dbs (db.channelDbIndex c) (batch (db.channelDb c)) }

/-- The number of the last message, from the cache or the database. -/
def getChannelLastMessageSeq : UInt64 × WukongDB :=
  match db.channelSeqCache (channelToKey c) with
  | some seq => (seq, db)
  | none =>
    match (db.channelDb c).lastSeqs (channelToNum c) with
    | none => (0, db)
    | some seq => (seq, { db with channelSeqCache := update db.channelSeqCache (channelToKey c) (some seq) })

def updateIfGreater (cache : Bytes → Option UInt64) (m : Message) : Bytes → Option UInt64 :=
  if m.fromUID = [] then cache
  else
    match cache (makeKey m.fromUID c) with
    | none => update cache (makeKey m.fromUID c) (some m.messageSeq.toUInt64)
    | some existing =>
      if m.messageSeq.toUInt64 > existing then
        update cache (makeKey m.fromUID c) (some m.messageSeq.toUInt64)
      else cache

def appendMessages (msgs : List Message) : Except DBError WukongDB :=
  match msgs.find? fun m => m.channel ≠ c with
  | some m => .error (.channelIdentity m.channelID m.channelType c.id c.type)
  | none =>
    match msgs.getLast? with
    | none => .error .panic
    | some lastMsg =>
      let num := channelToNum c
      let lastSeq := lastMsg.messageSeq.toUInt64
      let db := db.commit c fun s => (msgs.foldl (Shard.writeMessage num) s).setChannelLastMessageSeq num lastSeq
      .ok { db with
        channelSeqCache := update db.channelSeqCache (channelToKey c) (some lastSeq)
        userLastMsgSeqCache := msgs.foldl (updateIfGreater c) db.userLastMsgSeqCache }

def truncateLogTo (messageSeq : UInt64) : Except DBError WukongDB :=
  if messageSeq = 0 then .error (.truncateMessageSeq messageSeq)
  else
    let (lastMsgSeq, db) := db.getChannelLastMessageSeq c
    if messageSeq ≥ lastMsgSeq then .ok db
    else
      let num := channelToNum c
      let db := db.commit c fun s =>
        (s.deleteRange (primaryKey num (messageSeq + 1)) (primaryKey num maxUint64)).setChannelLastMessageSeq num messageSeq
      .ok { db with channelSeqCache := update db.channelSeqCache (channelToKey c) none }

/-- The window of numbers from `minSeq` up to, but without, `maxSeq`, cut at the last message. -/
def loadRange (minSeq maxSeq : UInt64) (limit : Nat) : Except DBError (List Message) × WukongDB :=
  let (lastSeq, db) := db.getChannelLastMessageSeq c
  let maxSeq := if maxSeq > lastSeq then lastSeq + 1 else maxSeq
  let num := channelToNum c
  let iter := (db.channelDb c).newIter (primaryKey num minSeq) (primaryKey num maxSeq)
  (iteratorChannelMessages iter limit fun _ => true, db)

variable (startMessageSeq endMessageSeq : UInt64)

def loadPrevRangeMsgs (limit : Nat) : Except DBError (List Message) × WukongDB :=
  if startMessageSeq = 0 then (.error (.startMessageSeq startMessageSeq), db)
  else if endMessageSeq ≠ 0 ∧ endMessageSeq > startMessageSeq then
    (.error (.endMessageSeq startMessageSeq endMessageSeq), db)
  else
    let maxSeq := startMessageSeq + 1
    let minSeq :=
      if endMessageSeq = 0 then
        if startMessageSeq.toNat < limit then 1 else startMessageSeq - UInt64.ofNat limit + 1
      else if (startMessageSeq - endMessageSeq).toNat > limit then startMessageSeq - UInt64.ofNat limit + 1
      else endMessageSeq + 1
    db.loadRange c minSeq maxSeq limit

def loadNextRangeMsgs (limit : Nat) : Except DBError (List Message) × WukongDB :=
  db.loadRange c startMessageSeq (if endMessageSeq = 0 then maxUint64 else endMessageSeq) limit

/-- The message that a callback keeps which takes one message only. -/
def lastOf (msgs : List Message) : Except DBError Message :=
  let msg := msgs.getLast?.getD {}
  if isEmptyMessage msg then .error .notFound else .ok msg

def loadMsg (seq : UInt64) : Except DBError Message := do
  let num := channelToNum c
  let iter := (db.channelDb c).newIter (primaryKey num seq) (primaryKey num (seq + 1))
  let msgs ← iteratorChannelMessages iter 1 fun _ => false
  lastOf msgs

def loadNextRangeMsgsForSize (size : Message → UInt64) (db : WukongDB) (c : Channel)
    (startMessageSeq endMessageSeq limitSize : UInt64) : Except DBError (List Message) :=
  let maxSeq := if endMessageSeq = 0 then maxUint64 else endMessageSeq
  let num := channelToNum c
  let iter := (db.channelDb c).newIter (primaryKey num startMessageSeq) (primaryKey num maxSeq)
  parseChannelMessagesWithLimitSize size iter limitSize

/-- The databases are asked in turn for the key of the message. -/
def findMessage (db : WukongDB) (messageId : UInt64) : List Nat → Except DBError Message
  | [] => .error .notFound
  | i :: shards =>
    match (db.dbs i).messageIds messageId with
    | none => db.findMessage messageId shards
    | some (num, seq) => do
      let iter := (db.dbs i).newIter (primaryKey num seq + minColumnKey) (primaryKey num seq + maxColumnKey)
      let msgs ← iteratorChannelMessages iter 0 fun _ => false
      lastOf msgs

def getMessage (messageId : UInt64) : Except DBError Message :=
  db.findMessage messageId (List.range db.shardNum)

def getUserLastMsgSeq (fromUid : Bytes) (c : Channel) : UInt64 × WukongDB :=
  match db.userLastMsgSeqCache (makeKey fromUid c) with
  | some seq => (seq, db)
  | none =>
    let seq := (db.channelDb c).queryUserLastMsgSeq (channelToNum c) fromUid
    (seq, { db with userLastMsgSeqCache := update db.userLastMsgSeqCache (makeKey fromUid c) (some seq) })

end WukongDB
end WuKongIM.WKDB

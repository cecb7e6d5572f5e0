import WuKongIM.WKDB.SearchOutboxLedger

/-! `PullSearchOutbox` of package wkdb, running alone: one scan over the queues of all databases,
which hands out records within a budget, counts the others and puts aside those that cannot be
handed out. -/
namespace WuKongIM.WKDB
open Lib

def maxSearchOutboxRecordBytes : Nat := 5 * 1024 * 1024

structure SearchOutboxRecord where
  epoch : UInt64
  identity : SearchOutboxIdentity
  message : Message
  appliedIndex : UInt64

structure SearchOutboxPullResult where
  records : List SearchOutboxRecord := []
  pending : Nat := 0
  quarantined : Nat := 0
  oldestCreatedAt : Int64 := 0
  appliedBlocked : Nat := 0

structure Queued where
  shard : Nat
  key : Bytes
  value : Bytes
  deriving DecidableEq

/-- The bytes of a record. No sum of two lengths leaves 64 bits. -/
def Queued.recordBytes (r : Queued) : Nat := r.key.length + r.value.length

/-- What a record decodes to, or the reason to put it aside. -/
def Queued.decode (frames : Frames) (r : Queued) : Except QuarantineReason (SearchOutboxIdentity × Message) :=
  if r.recordBytes > maxSearchOutboxRecordBytes then .error .sourceOversize
  else
    match decodeSearchOutboxRecord frames r.key r.value with
    | .error _ => .error .invalidRecord
    | .ok (identity, message) => if message.timestamp ≤ 0 then .error .invalidTimestamp else .ok (identity, message)

def OutboxDB.getChannelAppliedIndex (db : OutboxDB) (c : Channel) : Except OutboxError UInt64 :=
  match (db.outbox (db.getChannelShardIndex c)).applied (channelToNum c) with
  | none => .ok 0
  | some data => if data.length ≠ 8 then .error (.appliedCorrupt data.length) else .ok (UInt64.ofNat (ofBigEndian data))

/-- The variables of the loop, with the database as the loop has left it so far. -/
structure Scan where
  db : OutboxDB
  result : SearchOutboxPullResult := {}
  appliedByChannel : Channel → Option UInt64 := fun _ => none
  usedBytes : UInt64 := 0
  recordsStopped : Bool := false
  unknownOldest : Bool := false

/-- A scan that fails leaves the database as it is by then. -/
abbrev ScanOutcome := Except (OutboxError × OutboxDB)

namespace Scan

variable (scan : Scan)

/-- A record that cannot be handed out. One that stays in the queue is pending, and its time is not
known: it is too large to be decoded, or cannot be decoded, or has none. -/
def quarantine (r : Queued) (reason : QuarantineReason) (now : Int64) : ScanOutcome Scan :=
  match (scan.db.outbox r.shard).quarantineSearchOutboxCandidate r.shard r.key r.value reason now with
  | .error e => .error (e, scan.db)
  | .ok (removed, s) =>
    let scan := { scan with db := scan.db.setShard r.shard s }
    if removed then .ok scan
    else .ok { scan with result := { scan.result with pending := scan.result.pending + 1 }, unknownOldest := true }

/-- The applied index of a channel is read once. -/
def loadApplied (c : Channel) : ScanOutcome (UInt64 × Scan) :=
  match scan.appliedByChannel c with
  | some applied => .ok (applied, scan)
  | none =>
    match scan.db.getChannelAppliedIndex c with
    | .error e => .error (e, scan.db)
    | .ok applied =>
      .ok (applied, { scan with appliedByChannel := Function.update scan.appliedByChannel c (some applied) })

def oldest (timestamp : Int64) : Int64 :=
  if scan.result.oldestCreatedAt = 0 ∨ timestamp < scan.result.oldestCreatedAt then timestamp
    else scan.result.oldestCreatedAt

def countPending (message : Message) : Scan :=
  { scan with result := { scan.result with
    pending := scan.result.pending + 1
    oldestCreatedAt := scan.oldest message.timestamp.toInt64 } }

def countBlocked : Scan :=
  { scan with result := { scan.result with appliedBlocked := scan.result.appliedBlocked + 1 } }

/-- The three conditions that end the handing out, and then the record itself. -/
def handOut (limit : Int) (maxBytes : UInt64) (scan : Scan) (r : Queued)
    (identity : SearchOutboxIdentity) (message : Message) (applied : UInt64) : ScanOutcome Scan :=
  if r.recordBytes > maxBytes.toNat then .ok scan
  else if scan.recordsStopped then .ok scan
  else if scan.result.records.length = limit ∨ r.recordBytes > (maxBytes - scan.usedBytes).toNat then
    .ok { scan with recordsStopped := true }
  else
    match (scan.db.outbox r.shard).pinSearchOutboxRecord r.key r.value with
    | .error e => .error (e, scan.db)
    | .ok (none, s) => .ok { scan with db := scan.db.setShard r.shard s }
    | .ok (some epoch, s) => .ok { scan with
        db := scan.db.setShard r.shard s
        result := { scan.result with records := scan.result.records ++ [⟨epoch, identity, message, applied⟩] }
        usedBytes := scan.usedBytes + UInt64.ofNat r.recordBytes }

/-- One record of the iteration. `now` is the time at which a record is put aside. -/
def visit (frames : Frames) (now : Queued → Int64) (limit : Int) (maxBytes : UInt64) (scan : Scan)
    (r : Queued) : ScanOutcome Scan :=
  match r.decode frames with
  | .error reason => scan.quarantine r reason (now r)
  | .ok (identity, message) => do
    let (applied, scan) ← scan.loadApplied identity.channel
    let scan := scan.countPending message
    if applied = 0 ∨ applied < identity.messageSeq then return scan.countBlocked
    else scan.handOut limit maxBytes r identity message applied

/-- The iterator of a database passes what is queued when it is opened. -/
def visitShard (frames : Frames) (now : Queued → Int64) (limit : Int) (maxBytes : UInt64)
    (scan : Scan) (i : Nat) : ScanOutcome Scan :=
  ((scan.db.outbox i).queued.entries.map fun e => Queued.mk i e.1 e.2).foldlM (visit frames now limit maxBytes) scan

end Scan

def OutboxDB.countSearchOutboxQuarantine (db : OutboxDB) : Nat :=
  ((List.range db.chat.shardNum).map fun i => (db.outbox i).quarantine.entries.length).sum

/-- The result of a pull, and the database after it. -/
def OutboxDB.pullSearchOutbox (frames : Frames) (now : Queued → Int64) (db : OutboxDB) (limit : Int)
    (maxBytes : UInt64) : ScanOutcome (SearchOutboxPullResult × OutboxDB) :=
  if limit < 1 ∨ limit > maxSearchOutboxPullLimit then .error (.pullLimit, db)
  else if maxBytes = 0 then .error (.byteBudget, db)
  else do
    let scan ← (List.range db.chat.shardNum).foldlM (Scan.visitShard frames now limit maxBytes) { db }
    let quarantined := scan.db.countSearchOutboxQuarantine
    let oldestCreatedAt := if scan.unknownOldest then 0 else scan.result.oldestCreatedAt
    return ({ scan.result with quarantined, oldestCreatedAt }, scan.db)

end WuKongIM.WKDB

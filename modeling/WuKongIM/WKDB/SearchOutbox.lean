import WuKongIM.Lib.Table
import WuKongIM.WKDB.SearchOutboxKeys

/-! The search outbox of package wkdb: its rows in one database, and what is done to them while the
lock of the database is held. -/
namespace WuKongIM.WKDB
open Lib Function

instance : Std.LawfulOrderLT Bytes := inferInstance

inductive OutboxStatus where
  | active | quarantined | acknowledged
  deriving DecidableEq

def OutboxStatus.byte : OutboxStatus → UInt8
  | .active => 1
  | .quarantined => 2
  | .acknowledged => 3

def OutboxStatus.ofByte (byte : UInt8) : Option OutboxStatus :=
  if byte = 1 then some .active else if byte = 2 then some .quarantined else if byte = 3 then some .acknowledged else none

structure SearchOutboxState where
  epoch : UInt64
  status : OutboxStatus
  deriving DecidableEq

def SearchOutboxState.marshal (state : SearchOutboxState) : Bytes :=
  1 :: state.status.byte :: bigEndian 8 state.epoch.toNat

def SearchOutboxState.unmarshal : Bytes → Option SearchOutboxState
  | version :: status :: epoch =>
    if epoch.length ≠ 8 ∨ version ≠ 1 ∨ UInt64.ofNat (ofBigEndian epoch) = 0 then none
    else (OutboxStatus.ofByte status).map (SearchOutboxState.mk (UInt64.ofNat (ofBigEndian epoch)))
  | _ => none

structure SearchOutboxTask where
  identity : SearchOutboxIdentity
  epoch : UInt64
  deriving DecidableEq

def SearchOutboxTask.key (task : SearchOutboxTask) : Except OutboxError Bytes := do
  task.identity.validate
  if task.epoch = 0 then .error .epochRequired
  else newSearchOutboxKey task.identity.channel task.identity.messageSeq task.identity.messageID

/-- The codes that are accepted. Any other text is no reason. -/
inductive QuarantineReason where
  | invalidRecord | invalidTimestamp | sourceOversize | invalidProjection | projectionOversize | bulkItemRejected | termTooLong
  deriving DecidableEq

/-- A row of the quarantine, as its JSON text decodes. A reason outside the codes is none. -/
structure SearchOutboxQuarantineRecord where
  shardID : Nat
  identity : Option SearchOutboxIdentity
  rawKey : Bytes
  rawValue : Bytes
  epoch : UInt64
  reason : Option QuarantineReason
  quarantinedAt : Int64
  deriving DecidableEq

/-- The rows of the outbox in one database. The key of a state or of a quarantined record is the
task's key behind the identifier of a table of its own. The applied indexes stand under the hash of
the channel. -/
structure OutboxShard where
  queued : Table Bytes Bytes := .empty
  states : Bytes → Option Bytes := fun _ => none
  quarantine : Table Bytes SearchOutboxQuarantineRecord := .empty
  floors : Bytes → Option Bytes := fun _ => none
  applied : UInt64 → Option Bytes := fun _ => none

namespace OutboxShard

/-- A task without a state is of the first epoch. The flag says whether there is a state. -/
def loadSearchOutboxState (s : OutboxShard) (rawKey : Bytes) : Except OutboxError (SearchOutboxState × Bool) :=
  match s.states rawKey with
  | none => .ok (⟨1, .active⟩, false)
  | some value =>
    match SearchOutboxState.unmarshal value with
    | none => .error .stateCorrupt
    | some state => .ok (state, true)

def setState (rawKey : Bytes) (state : SearchOutboxState) (s : OutboxShard) : OutboxShard :=
  { s with states := update s.states rawKey (some state.marshal) }

/-- One task of an acknowledgement: what is read is what the database holds, what is written goes to
the batch. -/
def ackTask (frames : Frames) (s batch : OutboxShard) (task : SearchOutboxTask) : Except OutboxError OutboxShard := do
  let rawKey ← task.key
  let (state, _) ← s.loadSearchOutboxState rawKey
  if state.epoch ≠ task.epoch then .error .staleEpoch
  else if state.status = .acknowledged then .ok batch
  else if state.status ≠ .active then .error .state
  else
    match s.queued.get rawKey with
    | none => .error .state
    | some value =>
      let _ ← decodeSearchOutboxRecord frames rawKey value
      let batch := batch.setState rawKey { state with status := .acknowledged }
      return { batch with queued := batch.queued.erase rawKey }

def ackSearchOutboxShard (frames : Frames) (tasks : List SearchOutboxTask) (s : OutboxShard) :
    Except OutboxError OutboxShard :=
  tasks.foldlM (ackTask frames s) s

variable (shardID : Nat)

def quarantineSearchOutboxRawLocked (rawKey value : Bytes) (state : SearchOutboxState)
    (reason : QuarantineReason) (now : Int64) (s : OutboxShard) : Except OutboxError OutboxShard :=
  if state.status ≠ .active then .error .state
  else
    let s := s.setState rawKey { state with status := .quarantined }
    .ok { s with
      queued := s.queued.erase rawKey
      quarantine := s.quarantine.set rawKey
        ⟨shardID, (parseSearchOutboxKey rawKey).toOption, rawKey, value, state.epoch, some reason, now⟩ }

def loadSearchOutboxQuarantine (rawKey : Bytes) (epoch : UInt64) (s : OutboxShard) :
    Except OutboxError SearchOutboxQuarantineRecord :=
  match s.quarantine.get rawKey with
  | none => .error .quarantineNotFound
  | some record =>
    if record.shardID ≠ shardID ∨ record.epoch ≠ epoch ∨ record.rawKey ≠ rawKey ∨
        record.reason = none ∨ record.quarantinedAt ≤ 0 then .error .quarantineCorrupt
    else .ok record

def quarantineSearchOutbox (task : SearchOutboxTask) (reason : Option QuarantineReason)
    (now : Int64) (s : OutboxShard) : Except OutboxError OutboxShard :=
  match reason with
  | none => .error .quarantineReason
  | some reason => do
    let rawKey ← task.key
    let (state, _) ← s.loadSearchOutboxState rawKey
    if state.epoch ≠ task.epoch then .error .staleEpoch
    else if state.status = .quarantined then
      let _ ← s.loadSearchOutboxQuarantine shardID rawKey state.epoch
      return s
    else if state.status ≠ .active then .error .state
    else
      match s.queued.get rawKey with
      | none => .error .state
      | some value => s.quarantineSearchOutboxRawLocked shardID rawKey value state reason now

/-- The task is put back in the epoch after its own. `loadMsg` reads the message of the task. A
repeated request finds the next epoch and changes nothing. -/
def restoreSearchOutbox (frames : Frames) (shardID : Nat) (loadMsg : Except DBError Message)
    (task : SearchOutboxTask) (s : OutboxShard) : Except OutboxError (UInt64 × OutboxShard) := do
  let rawKey ← task.key
  let (state, found) ← s.loadSearchOutboxState rawKey
  if task.epoch < maxUint64 ∧ state.epoch = task.epoch + 1 then .ok (state.epoch, s)
  else if state.epoch ≠ task.epoch then .error .staleEpoch
  else if !found ∨ state.status ≠ .quarantined ∨ state.epoch = maxUint64 then .error .state
  else
    let record ← s.loadSearchOutboxQuarantine shardID rawKey task.epoch
    match decodeSearchOutboxRecord frames rawKey record.rawValue with
    | .error _ => .error .state
    | .ok (_, message) =>
      if message.timestamp ≤ 0 then .error .state
      else
        let current ← loadMsg.mapError .chat
        if searchOutboxIdentityFromMessage current ≠ task.identity then .error .state
        else if s.queued.get rawKey ≠ none then .error .state
        else
          let s := s.setState rawKey ⟨state.epoch + 1, .active⟩
          .ok (state.epoch + 1, { s with
            queued := s.queued.set rawKey record.rawValue
            quarantine := s.quarantine.erase rawKey })

variable (rawKey expected : Bytes)

/-- The epoch of a record that is to be handed out, if the record is still the one that was read. -/
def pinSearchOutboxRecord (s : OutboxShard) : Except OutboxError (Option UInt64 × OutboxShard) :=
  match s.queued.get rawKey with
  | none => .ok (none, s)
  | some current =>
    if current ≠ expected then .ok (none, s)
    else do
      let (state, found) ← s.loadSearchOutboxState rawKey
      if state.status ≠ .active then .error .state
      else .ok (some state.epoch, if found then s else s.setState rawKey state)

/-- The flag says whether the record is out of the queue. -/
def quarantineSearchOutboxCandidate (reason : QuarantineReason) (now : Int64)
    (s : OutboxShard) : Except OutboxError (Bool × OutboxShard) :=
  match s.queued.get rawKey with
  | none => .ok (true, s)
  | some current =>
    if current ≠ expected then .ok (false, s)
    else do
      let (state, _) ← s.loadSearchOutboxState rawKey
      let s ← s.quarantineSearchOutboxRawLocked shardID rawKey current state reason now
      return (true, s)

variable (c : Channel)

def getSearchOutboxFloor (s : OutboxShard) : Except OutboxError (Option UInt64) :=
  if !isValidSearchOutboxChannelIdentity c then .ok none
  else do
    let key ← newSearchOutboxFloorKey c
    match s.floors key with
    | none => .ok none
    | some value => if value.length ≠ 8 then .error .floorCorrupt else .ok (some (UInt64.ofNat (ofBigEndian value)))

def ensureSearchOutboxFloor (firstSearchOutboxSeq : UInt64) (s : OutboxShard) : Except OutboxError OutboxShard :=
  if firstSearchOutboxSeq = 0 then .error .sequenceZero
  else do
    match ← s.getSearchOutboxFloor c with
    | some _ => return s
    | none =>
      let key ← newSearchOutboxFloorKey c
      return { s with floors := update s.floors key (some (bigEndian 8 (firstSearchOutboxSeq - 1).toNat)) }

/-- The record of one message. A task that is quarantined or acknowledged is passed over. -/
def writeSearchOutbox (frames : Frames) (s batch : OutboxShard) (m : Message) : Except OutboxError OutboxShard := do
  let identity := searchOutboxIdentityFromMessage m
  identity.validate
  let key ← newSearchOutboxKey identity.channel identity.messageSeq identity.messageID
  let (state, found) ← s.loadSearchOutboxState key
  if state.status ≠ .active then .ok batch
  else
    let batch := if found then batch else batch.setState key state
    match frames.marshal m with
    | none => .error .encodeMessage
    | some value => .ok { batch with queued := batch.queued.set key value }

/-- The first marked message of a channel sets its floor. -/
def firstFloor (msgs : List Message) (s : OutboxShard) : Except OutboxError OutboxShard :=
  match msgs.find? Message.searchOutbox with
  | none => .ok s
  | some first => s.ensureSearchOutboxFloor c first.messageSeq.toUInt64

def appendMessages (frames : Frames) (c : Channel) (msgs : List Message) (s : OutboxShard) :
    Except OutboxError OutboxShard := do
  let batch ← s.firstFloor c msgs
  (msgs.filter Message.searchOutbox).foldlM (writeSearchOutbox frames s) batch

variable (messageSeq : UInt64) (s : OutboxShard)

def truncateFloor : Except OutboxError (Bytes → Option Bytes) := do
  match ← s.getSearchOutboxFloor c with
  | none => return s.floors
  | some floor =>
    if messageSeq < floor then
      return update s.floors (← newSearchOutboxFloorKey c) none
    else return s.floors

def truncateQueued : Except OutboxError (Table Bytes Bytes) :=
  if isValidSearchOutboxChannelIdentity c ∧ messageSeq < maxMessageSequence then do
    let (lower, upper) ← newSearchOutboxChannelRange c (messageSeq + 1)
    return s.queued.remove fun key => lower ≤ key ∧ key < upper
  else .ok s.queued

/-- What `TruncateLogTo` does to the outbox once there is something to cut. -/
def truncateLogTo : Except OutboxError OutboxShard := do
  let floors ← s.truncateFloor c messageSeq
  let queued ← s.truncateQueued c messageSeq
  return { s with floors, queued }

end OutboxShard

structure OutboxDB where
  chat : WukongDB
  outbox : Nat → OutboxShard := fun _ => {}

/-- The sections of the calls that hold the lock of one database from their first read to their
commit. An acknowledgement has one for each database that it names. A pull has one for each record
that it hands out or puts aside. -/
inductive OutboxCall where
  | appendMessages (c : Channel) (msgs : List Message)
  | truncateLogTo (c : Channel) (messageSeq : UInt64)
  | pin (shardID : Nat) (rawKey expected : Bytes)
  | candidate (shardID : Nat) (rawKey expected : Bytes) (reason : QuarantineReason) (now : Int64)
  | ack (shardID : Nat) (tasks : List SearchOutboxTask)
  | quarantine (task : SearchOutboxTask) (reason : Option QuarantineReason) (now : Int64)
  | restore (task : SearchOutboxTask)

namespace OutboxDB

variable (db : OutboxDB)

def getChannelShardIndex (c : Channel) : Nat := db.chat.channelDbIndex c

def setShard (i : Nat) (s : OutboxShard) : OutboxDB := { db with outbox := update db.outbox i s }

def appendMessages (frames : Frames) (db : OutboxDB) (c : Channel) (msgs : List Message) : Except OutboxError OutboxDB := do
  let chat ← (db.chat.appendMessages c msgs).mapError .chat
  let i := db.getChannelShardIndex c
  let s ← (db.outbox i).appendMessages frames c msgs
  return { db.setShard i s with chat }

def truncateLogTo (db : OutboxDB) (c : Channel) (messageSeq : UInt64) : OutboxDB × Except OutboxError Unit :=
  if messageSeq = 0 then (db, .error (.chat (.truncateMessageSeq messageSeq)))
  else
    let (lastMsgSeq, chat) := db.chat.getChannelLastMessageSeq c
    let db := { db with chat }
    if messageSeq ≥ lastMsgSeq then (db, .ok ())
    else
      let i := db.getChannelShardIndex c
      match (db.outbox i).truncateLogTo c messageSeq with
      | .error e => (db, .error e)
      | .ok s =>
        match chat.truncateLogTo c messageSeq with
        | .error e => (db, .error (.chat e))
        | .ok chat => ({ db.setShard i s with chat }, .ok ())

/-- A section on one database. One that fails writes nothing. -/
def onShard (i : Nat) (call : OutboxShard → Except OutboxError OutboxShard) : OutboxDB :=
  match call (db.outbox i) with
  | .ok s => db.setShard i s
  | .error _ => db

variable (frames : Frames)

def perform (db : OutboxDB) : OutboxCall → OutboxDB
  | .appendMessages c msgs =>
    match db.appendMessages frames c msgs with
    | .ok db => db
    | .error _ => db
  | .truncateLogTo c messageSeq => (db.truncateLogTo c messageSeq).1
  | .pin i rawKey expected => db.onShard i fun s => Prod.snd <$> s.pinSearchOutboxRecord rawKey expected
  | .candidate i rawKey expected reason now =>
    db.onShard i fun s => Prod.snd <$> s.quarantineSearchOutboxCandidate i rawKey expected reason now
  | .ack i tasks => db.onShard i (OutboxShard.ackSearchOutboxShard frames tasks)
  | .quarantine task reason now =>
    let i := db.getChannelShardIndex task.identity.channel
    db.onShard i (OutboxShard.quarantineSearchOutbox i task reason now)
  | .restore task =>
    let i := db.getChannelShardIndex task.identity.channel
    let loadMsg := db.chat.loadMsg task.identity.channel task.identity.messageSeq
    db.onShard i fun s => Prod.snd <$> s.restoreSearchOutbox frames i loadMsg task

def run (db : OutboxDB) (calls : List OutboxCall) : OutboxDB := calls.foldl (perform frames) db

/-- The check of an acknowledgement before any lock is taken. A task named twice is kept once. -/
def ackPreflight (kept : List SearchOutboxTask) (task : SearchOutboxTask) : Except OutboxError (List SearchOutboxTask) := do
  let _ ← task.key
  match kept.find? fun t => t.identity = task.identity with
  | some first => if first.epoch ≠ task.epoch then .error .staleEpoch else .ok kept
  | none => .ok (kept ++ [task])

/-- The databases are taken in turn. What the ones before a failure have done stays. -/
def ackShards (frames : Frames) (kept : List SearchOutboxTask) (db : OutboxDB) :
    List Nat → OutboxDB × Except OutboxError Unit
  | [] => (db, .ok ())
  | i :: shards =>
    let tasks := kept.filter fun task => db.getChannelShardIndex task.identity.channel = i
    if tasks = [] then ackShards frames kept db shards
    else
      match (db.outbox i).ackSearchOutboxShard frames tasks with
      | .error e => (db, .error e)
      | .ok s => ackShards frames kept (db.setShard i s) shards

def maxSearchOutboxPullLimit : Nat := 500

def ackSearchOutboxTasks (db : OutboxDB) (tasks : List SearchOutboxTask) : OutboxDB × Except OutboxError Unit :=
  if tasks = [] then (db, .ok ())
  else if tasks.length > maxSearchOutboxPullLimit then (db, .error .ackCount)
  else
    match tasks.foldlM ackPreflight [] with
    | .error e => (db, .error e)
    | .ok kept => ackShards frames kept db (List.range db.chat.shardNum)

end OutboxDB
end WuKongIM.WKDB

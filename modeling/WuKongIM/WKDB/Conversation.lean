import Mathlib.Data.Finset.Basic
import WuKongIM.WKDB.MessageStore

/-! The conversation tables of package wkdb. A user's rows lie in one database, under the hash of
the user, and no function reads two users' rows together, so the tables are kept by user. -/
namespace WuKongIM.WKDB
open Lib Function

/-- Times are the nanoseconds that the columns keep. -/
structure Conversation where
  id : UInt64 := 0
  uid : Bytes
  type : UInt8 := 0
  channel : Channel
  unreadCount : UInt32 := 0
  readToMsgSeq : UInt64 := 0
  deletedAtMsgSeq : UInt64 := 0
  createdAt : Option UInt64 := none
  updatedAt : Option UInt64 := none
  deriving DecidableEq

structure ConversationRow where
  id : UInt64
  uid : Option Bytes := none
  channelId : Option Bytes := none
  channelType : Option UInt8 := none
  type : Option UInt8 := none
  unreadCount : Option UInt32 := none
  readedToMsgSeq : Option UInt64 := none
  createdAt : Option UInt64 := none
  updatedAt : Option UInt64 := none
  deletedAtMsgSeq : Option UInt64 := none
  deriving DecidableEq

def ConversationRow.key (r : ConversationRow) : Nat := r.id.toNat

/-- A time column counts when it is a positive signed number. -/
def readTime (column : Option UInt64) : Option UInt64 := column.filter fun tm => 0 < tm && tm < 0x8000000000000000

def ConversationRow.conversation (r : ConversationRow) : Conversation where
  id := r.id
  uid := r.uid.getD []
  type := r.type.getD 0
  channel := ⟨r.channelId.getD [], r.channelType.getD 0⟩
  unreadCount := r.unreadCount.getD 0
  readToMsgSeq := r.readedToMsgSeq.getD 0
  deletedAtMsgSeq := r.deletedAtMsgSeq.getD 0
  createdAt := readTime r.createdAt
  updatedAt := readTime r.updatedAt

/-- What one database keeps for one user. The relation from channels to their local users has keys
of its own; `localUsers` holds those keys of it that end in this user. -/
structure UserTable where
  rows : List ConversationRow := []
  channelIndex : UInt64 → Option UInt64 := fun _ => none
  updatedAtIndex : Finset (UInt64 × UInt64) := ∅
  localUsers : Finset (Bytes × Nat × UInt64) := ∅

structure UserKey where
  shard : Nat
  hash : UInt64
  deriving DecidableEq

abbrev ConversationDB := UserKey → UserTable

namespace UserTable

variable (t : UserTable)

def row (id : UInt64) : Option ConversationRow := t.rows.find? fun r => r.key = id.toNat

def setColumns (id : UInt64) (set : ConversationRow → ConversationRow) (t : UserTable) : UserTable :=
  { t with rows := put ConversationRow.key (set ((t.row id).getD { id })) t.rows }

def writeConversation (c : Conversation) (t : UserTable) : UserTable :=
  { t.setColumns c.id fun r =>
      { r with
        id := c.id
        uid := some c.uid
        channelId := some c.channel.id
        channelType := some c.channel.type
        type := some c.type
        unreadCount := some c.unreadCount
        readedToMsgSeq := some c.readToMsgSeq
        createdAt := c.createdAt <|> r.createdAt
        updatedAt := c.updatedAt <|> r.updatedAt } with
    channelIndex := update t.channelIndex (channelToNum c.channel) (some c.id)
    updatedAtIndex := match c.updatedAt with
      | some tm => insert (tm, c.id) t.updatedAtIndex
      | none => t.updatedAtIndex }

def deleteConversationIndex (c : Conversation) (t : UserTable) : UserTable :=
  { t with
    channelIndex := update t.channelIndex (channelToNum c.channel) none
    updatedAtIndex := match c.updatedAt with
      | some tm => t.updatedAtIndex.erase (tm, c.id)
      | none => t.updatedAtIndex }

def deleteColumns (id : UInt64) (t : UserTable) : UserTable :=
  { t with rows := t.rows.filter fun r => r.id ≠ id }

variable (c : Channel)

/-- Zero when the channel has no entry. -/
def getConversationIdByChannel : UInt64 := (t.channelIndex (channelToNum c)).getD 0

def getConversation : Option Conversation :=
  let id := t.getConversationIdByChannel c
  if id = 0 then none else (t.row id).map (·.conversation)

def oldConversation : Option Conversation :=
  (t.getConversation c).filter fun old => old.channel.id ≠ []

def existConversation : Bool := (t.channelIndex (channelToNum c)).isSome

/-- The loop compares each identifier with the one before it, which starts at zero: a row of
identifier zero is handed over only when no other row follows. -/
def iterateConversation : List ConversationRow → List Conversation
  | [] => []
  | [r] => [r.conversation]
  | r :: rows => if r.id = 0 then iterateConversation rows else r.conversation :: iterateConversation rows

/-- The rows below the largest identifier, which bounds the scan. -/
def getConversations : List Conversation :=
  iterateConversation (t.rows.filter fun r => r.id ≠ maxUint64)

end UserTable

/-- A batch of package wkdb, with the database of each entry. It is carried out field by field,
whatever the order in which it was filled. -/
structure Batch where
  delKvs : List (Nat × Conversation) := []
  delRangeKvs : List (UserKey × UInt64) := []
  setKvs : List (Nat × Conversation) := []

instance : Append Batch where
  append a b := ⟨a.delKvs ++ b.delKvs, a.delRangeKvs ++ b.delRangeKvs, a.setKvs ++ b.setKvs⟩

def ConversationDB.modify (db : ConversationDB) (k : UserKey) (f : UserTable → UserTable) : ConversationDB :=
  update db k (f (db k))

/-- The keys of an index or a row hold the hash of the conversation's own user. -/
def ConversationDB.commit (db : ConversationDB) (b : Batch) : ConversationDB :=
  let db := b.delKvs.foldl (fun db e =>
    modify db ⟨e.1, hashWithString e.2.uid⟩ (UserTable.deleteConversationIndex e.2)) db
  let db := b.delRangeKvs.foldl (fun db e => modify db e.1 (UserTable.deleteColumns e.2)) db
  b.setKvs.foldl (fun db e => modify db ⟨e.1, hashWithString e.2.uid⟩ (UserTable.writeConversation e.2)) db

/-- FNV-1 on 32 bits. -/
def sum32 (s : Bytes) : UInt32 := s.foldl (fun hash byte => (hash * 16777619) ^^^ byte.toUInt32) 2166136261

variable (shardNum : Nat)

def shardId (v : Bytes) : Nat := if shardNum = 1 then 0 else (sum32 v).toNat % shardNum

def channelDbIndex (c : Channel) : Nat := (channelToNum c).toNat % shardNum

def userKey (uid : Bytes) : UserKey := ⟨shardId shardNum uid, hashWithString uid⟩

namespace ConversationDB
variable (shardNum : Nat) (db : ConversationDB) (uid : Bytes)

/-- One round of the loops that add or update: the old conversation is looked up, and the write goes
to the database, of the user `uid`. -/
def addOrUpdate (c : Conversation) : Batch :=
  match (db (userKey shardNum uid)).oldConversation c.channel with
  | some old =>
    { delKvs := [(shardId shardNum uid, old)]
      setKvs := [(shardId shardNum uid, { c with id := old.id, createdAt := none })] }
  | none => { setKvs := [(shardId shardNum uid, c)] }

variable (conversations : List Conversation)

/-- One batch takes all conversations of a user, in the database of the user's first channel. -/
def setConversationLocalUserRelation : ConversationDB :=
  conversations.foldl (fun db c =>
    let first := (conversations.find? fun d => d.uid = c.uid).getD c
    modify db (userKey shardNum c.uid) fun t =>
      { t with localUsers := insert (c.uid, channelDbIndex shardNum first.channel, channelToNum c.channel) t.localUsers }) db

variable (channels : List (Nat × Channel))

def deleteConversationLocalUserRelation : ConversationDB :=
  modify db (userKey shardNum uid) fun t =>
    { t with localUsers := channels.foldl (fun users c => users.erase (uid, c.1, channelToNum c.2)) t.localUsers }

/-- The batches of several databases make one batch here, since their keys are apart. -/
def addOrUpdateConversations : ConversationDB :=
  if conversations = [] then db else
    let batch := (conversations.filter fun c => c.uid ≠ []).foldl (fun batch c => batch ++ addOrUpdate shardNum db c.uid c) {}
    (setConversationLocalUserRelation shardNum db conversations).commit batch

def addOrUpdateConversationsBatchIfNotExist : ConversationDB :=
  db.commit
    { setKvs := (conversations.filter fun c =>
        c.uid ≠ [] && !(db (userKey shardNum c.uid)).existConversation c.channel).map fun c => (shardId shardNum c.uid, c) }

def addOrUpdateConversationsWithUser : ConversationDB :=
  if uid = [] then db else
    let batch := conversations.foldl (fun batch c => batch ++ addOrUpdate shardNum db uid c) {}
    (setConversationLocalUserRelation shardNum db conversations).commit batch

/-- Nothing is checked about the row: an entry of the channel index is enough. -/
def updateConversationDeletedAtMsgSeq (c : Channel) (deletedAtMsgSeq : UInt64) : ConversationDB :=
  let id := (db (userKey shardNum uid)).getConversationIdByChannel c
  if id = 0 then db else
    modify db (userKey shardNum uid) (UserTable.setColumns id fun r => { r with deletedAtMsgSeq := some deletedAtMsgSeq })

/-- The update time is the local clock's, and its index stays as it was. -/
def updateConversationIfSeqGreater (now : UInt64) (uid : Bytes) (c : Channel) (readToMsgSeq : UInt64) : ConversationDB :=
  match (db (userKey shardNum uid)).oldConversation c with
  | none => db
  | some old =>
    if old.readToMsgSeq ≥ readToMsgSeq then db else
      modify db (userKey shardNum uid) (UserTable.setColumns old.id fun r =>
        { r with readedToMsgSeq := some readToMsgSeq, updatedAt := some now })

/-- Every row of the channel goes, with its index. -/
def deleteConversationRows (c : Channel) : Batch :=
  let olds := (db (userKey shardNum uid)).getConversations.filter fun old => old.channel = c
  { delKvs := olds.map fun old => (shardId shardNum uid, old)
    delRangeKvs := olds.map fun old => (userKey shardNum uid, old.id) }

/-- Deletes the conversations of these channels, with the keys of the relation in the given
databases. -/
def deleteChannels : ConversationDB :=
  let batch := channels.foldl (fun batch c => batch ++ deleteConversationRows shardNum db uid c.2) {}
  (deleteConversationLocalUserRelation shardNum db uid channels).commit batch

def deleteConversation (c : Channel) : ConversationDB :=
  deleteChannels shardNum db uid [(channelDbIndex shardNum c, c)]

/-- Here the relation is looked for in the user's database. -/
def deleteConversations (channels : List Channel) : ConversationDB :=
  deleteChannels shardNum db uid (channels.map fun c => (shardId shardNum uid, c))

end ConversationDB
end WuKongIM.WKDB

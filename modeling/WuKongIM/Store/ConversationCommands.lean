import WuKongIM.WKDB.Conversation

/-! The commands of a slot's log that change conversations, and their handlers. -/
namespace WuKongIM.Cluster
open WKDB

/-- The users of a channel with the message that each has read to: a map, so each user stands
once. -/
structure BatchUpdateConversationModel where
  channel : Channel
  uids : List (Bytes × UInt64)
  nodup : (uids.map Prod.fst).Nodup

inductive ConversationCMD
  | addOrUpdateConversations (conversations : List Conversation)
  | addOrUpdateUserConversations (uid : Bytes) (conversations : List Conversation)
  | addOrUpdateConversationsBatchIfNotExist (conversations : List Conversation)
  | deleteConversation (uid : Bytes) (channel : Channel)
  | deleteConversations (uid : Bytes) (channels : List Channel)
  | batchUpdateConversation (models : List BatchUpdateConversationModel)
  | updateConversationDeletedAtMsgSeq (uid : Bytes) (channel : Channel) (deletedAtMsgSeq : UInt64)
  | updateConversationIfSeqGreater (uid : Bytes) (channel : Channel) (readToMsgSeq : UInt64)

/-- The users whose conversations a command creates, updates or deletes. -/
def ConversationCMD.users : ConversationCMD → List Bytes
  | addOrUpdateConversations conversations => conversations.map (·.uid)
  | addOrUpdateUserConversations uid conversations => uid :: conversations.map (·.uid)
  | addOrUpdateConversationsBatchIfNotExist conversations => conversations.map (·.uid)
  | deleteConversation uid _ => [uid]
  | deleteConversations uid _ => [uid]
  | batchUpdateConversation models => models.flatMap fun m => m.uids.map Prod.fst
  | updateConversationDeletedAtMsgSeq uid _ _ => [uid]
  | updateConversationIfSeqGreater uid _ _ => [uid]

/-- What all replicas have in common. -/
structure Options where
  shardNum : Nat
  isCmdChannel : Bytes → Bool

/-- What a replica's handlers see besides the log and the options: the clock while a log is applied,
in nanoseconds, and the orders in which Go walks through maps. -/
structure Env where
  now : UInt64 → UInt64
  uidOrder : UInt64 → Nat → List (Bytes × UInt64) → List (Bytes × UInt64)
  groupOrder : UInt64 → List (Bytes × List Conversation) → List (Bytes × List Conversation)
  uidOrder_perm : ∀ index i l, (uidOrder index i l).Perm l
  groupOrder_perm : ∀ index l, (groupOrder index l).Perm l

variable (o : Options) (env : Env) (logIndex : UInt64)

/-- The conversation that the handler of `CMDBatchUpdateConversation` writes, with identifier
zero. -/
def BatchUpdateConversationModel.conversation (m : BatchUpdateConversationModel) (e : Bytes × UInt64) : Conversation where
  uid := e.1
  type := if o.isCmdChannel m.channel.id then 1 else 0
  channel := m.channel
  readToMsgSeq := e.2

def handleBatchUpdateConversation (db : ConversationDB) (models : List BatchUpdateConversationModel) : ConversationDB :=
  models.zipIdx.foldl (fun db m =>
    (env.uidOrder logIndex m.2 m.1.uids).foldl (fun db e =>
      db.addOrUpdateConversationsWithUser o.shardNum e.1 [m.1.conversation o e]) db) db

def ConversationCMD.apply (db : ConversationDB) : ConversationCMD → ConversationDB
  | addOrUpdateConversations conversations => db.addOrUpdateConversations o.shardNum conversations
  | addOrUpdateUserConversations uid conversations => db.addOrUpdateConversationsWithUser o.shardNum uid conversations
  | addOrUpdateConversationsBatchIfNotExist conversations =>
    db.addOrUpdateConversationsBatchIfNotExist o.shardNum conversations
  | deleteConversation uid channel => db.deleteConversation o.shardNum uid channel
  | deleteConversations uid channels => db.deleteConversations o.shardNum uid channels
  | batchUpdateConversation models => handleBatchUpdateConversation o env logIndex db models
  | updateConversationDeletedAtMsgSeq uid channel seq => db.updateConversationDeletedAtMsgSeq o.shardNum uid channel seq
  | updateConversationIfSeqGreater uid channel seq =>
    db.updateConversationIfSeqGreater o.shardNum (env.now logIndex) uid channel seq

end WuKongIM.Cluster

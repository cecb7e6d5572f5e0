import WuKongIM.Store.ConversationCache
import WuKongIM.WKDB.ChannelTables
import WuKongIM.WKDB.MessageEvents
import WuKongIM.WKDB.UserTables

/-! How the store applies the log of a slot: one command after another, or, from ten logs on, with
three kinds of commands put off to the end and merged. -/
namespace WuKongIM.Cluster
open WKDB

structure ChannelClusterConfig where
  channel : Channel
  replicaMaxCount : UInt16 := 0
  replicas : List UInt64 := []
  learners : List UInt64 := []
  leaderId : UInt64 := 0
  term : UInt32 := 0
  migrateFrom : UInt64 := 0
  migrateTo : UInt64 := 0
  status : UInt8 := 0
  confVersion : UInt64 := 0
  version : UInt16 := 0
  createdAt : Option UInt64 := none
  updatedAt : Option UInt64 := none
  deriving DecidableEq

inductive TableCMD
  | addSubscribers (channel : Channel) (members : List Member)
  | removeSubscribers (channel : Channel) (uids : List Bytes)
  | removeAllSubscriber (channel : Channel)
  | addAllowlist (channel : Channel) (members : List Member)
  | removeAllowlist (channel : Channel) (uids : List Bytes)
  | removeAllAllowlist (channel : Channel)
  | addDenylist (channel : Channel) (members : List Member)
  | removeDenylist (channel : Channel) (uids : List Bytes)
  | removeAllDenylist (channel : Channel)
  | addChannelInfo (info : ChannelInfo)
  | updateChannelInfo (info : ChannelInfo)
  | deleteChannel (channel : Channel)
  | addUser (u : User)
  | updateUser (u : User)
  | addDevice (d : Device)
  | updateDevice (d : Device)
  | updateDeviceIfTokenMatches (d : Device) (version : UInt64) (hash : Bytes)
  | systemUIDsAdd (uids : List Bytes)
  | systemUIDsRemove (uids : List Bytes)
  | addOrUpdateTester (tester : Tester)
  | removeTester (no : Bytes)
  | updateUserPluginNo (p : PluginUser)
  | removePluginUser (pluginNo uid : Bytes)
  | appendMessageEvent (event : MessageEvent)

inductive CMD
  | conversation (c : ConversationCMD)
  | channelClusterConfigSave (cfg : ChannelClusterConfig)
  | table (c : TableCMD)

structure Log where
  index : UInt64
  cmd : CMD

structure Tables where
  channels : ChannelTables := {}
  users : UserTables := {}
  events : EventTables := {}

structure DB where
  conversations : ConversationDB := fun _ => {}
  conversationCache : ConversationCache := fun _ => none
  clusterConfigs : UInt64 → Option ChannelClusterConfig := fun _ => none
  tables : Tables := {}

structure ApplyOptions extends Options where
  texts : Texts
  tokenHash : Bytes → Bytes
  newestFirst : List Conversation → List Conversation

/-- A command that its handler neither refuses nor panics on. Users' names decide databases and must
not be empty; the other conditions are the handlers' own. -/
def ConversationCMD.wellFormed : ConversationCMD → Bool
  | addOrUpdateConversations conversations => conversations.all fun c => c.uid ≠ []
  | addOrUpdateUserConversations _ conversations => conversations.all fun c => c.uid ≠ []
  | addOrUpdateConversationsBatchIfNotExist conversations => conversations.all fun c => c.uid ≠ []
  | deleteConversation uid _ => uid ≠ []
  | deleteConversations uid _ => uid ≠ []
  | batchUpdateConversation _ => true
  | updateConversationDeletedAtMsgSeq uid _ _ => uid ≠ []
  | updateConversationIfSeqGreater uid _ _ => uid ≠ []

def TableCMD.wellFormed (texts : Texts) : TableCMD → Bool
  | addSubscribers channel members => channelToNum channel ≠ 0 && members.all fun m => hashWithString m.uid ≠ 0
  | removeAllSubscriber channel => channelToNum channel ≠ 0
  | addUser u | updateUser u => u.uid ≠ []
  | addDevice d | updateDevice d => d.id ≠ 0 && d.uid ≠ []
  | updateDeviceIfTokenMatches d version _ =>
    d.id ≠ 0 && d.uid ≠ [] && d.token ≠ [] && version < d.tokenVersion && d.tokenVersion < 9007199254740991
  | appendMessageEvent e => texts.trimSpace e.clientMsgNo ≠ [] && texts.trimSpace e.eventID ≠
      [] && texts.trimSpace e.eventType ≠ []
  | _ => true

def CMD.wellFormed (texts : Texts) : CMD → Bool
  | conversation c => c.wellFormed
  | channelClusterConfigSave _ => true
  | table c => c.wellFormed texts

variable (o : ApplyOptions) (env : Env) (logIndex : UInt64)

def TableCMD.apply (t : Tables) : TableCMD → Tables
  | addSubscribers channel members => { t with channels := t.channels.addSubscribers channel members }
  | removeSubscribers channel uids => { t with channels := t.channels.removeSubscribers channel uids }
  | removeAllSubscriber channel => { t with channels := t.channels.removeAllSubscriber channel }
  | addAllowlist channel members => { t with channels := t.channels.addAllowlist channel members }
  | removeAllowlist channel uids => { t with channels := t.channels.removeAllowlist channel uids }
  | removeAllAllowlist channel => { t with channels := t.channels.removeAllAllowlist channel }
  | addDenylist channel members => { t with channels := t.channels.addDenylist channel members }
  | removeDenylist channel uids => { t with channels := t.channels.removeDenylist channel uids }
  | removeAllDenylist channel => { t with channels := t.channels.removeAllDenylist channel }
  | addChannelInfo info => { t with channels := t.channels.addChannel info }
  | updateChannelInfo info => { t with channels := t.channels.updateChannel info }
  | deleteChannel channel => { t with channels := t.channels.deleteChannel channel }
  | addUser u => { t with users := t.users.addUser o.shardNum u }
  | updateUser u => { t with users := t.users.updateUser o.shardNum u }
  | addDevice d => { t with users := t.users.modifyDevices (shardId o.shardNum d.uid) (·.addDevice o.tokenHash d) }
  | updateDevice d => { t with users := t.users.modifyDevices (shardId o.shardNum d.uid) (·.updateDevice o.tokenHash d) }
  | updateDeviceIfTokenMatches d version hash =>
    { t with users := t.users.modifyDevices (shardId o.shardNum d.uid) (·.updateDeviceIfTokenMatches o.tokenHash d version hash) }
  | systemUIDsAdd uids => { t with users := t.users.addSystemUids uids }
  | systemUIDsRemove uids => { t with users := t.users.removeSystemUids uids }
  | addOrUpdateTester tester => { t with users := t.users.addOrUpdateTester tester }
  | removeTester no => { t with users := t.users.removeTester no }
  | updateUserPluginNo p => { t with users := t.users.addOrUpdatePluginUser p }
  | removePluginUser pluginNo uid => { t with users := t.users.removePluginUser pluginNo uid }
  | appendMessageEvent e =>
    { t with events := t.events.appendMessageEventWithState o.texts o.shardNum (env.now logIndex) e }

/-- The version of the configuration is the index of its log. -/
def saveChannelClusterConfig (configs : UInt64 → Option ChannelClusterConfig)
    (cfg : ChannelClusterConfig) (confVersion : UInt64) : UInt64 → Option ChannelClusterConfig :=
  let num := channelToNum cfg.channel
  Function.update configs num (some
    { cfg with
      confVersion := confVersion
      createdAt := cfg.createdAt <|> (configs num).bind (·.createdAt)
      updatedAt := cfg.updatedAt <|> (configs num).bind (·.updatedAt) })

def DB.notify (db : DB) (calls : List CacheCall) : DB :=
  { db with conversationCache := calls.foldl (CacheCall.perform o.newestFirst env logIndex) db.conversationCache }

def CMD.apply (db : DB) : CMD → DB
  | conversation c => DB.notify o env logIndex { db with conversations := c.apply o.toOptions env logIndex db.conversations }
    (c.cacheCalls env logIndex o.toOptions db.conversations)
  | channelClusterConfigSave cfg => { db with clusterConfigs := saveChannelClusterConfig db.clusterConfigs cfg logIndex }
  | table c => { db with tables := c.apply o env logIndex db.tables }

variable (o : ApplyOptions) (env : Env) (db : DB)

/-- A command that is refused ends the application of the log. -/
def applyLog (log : Log) : Option DB :=
  if log.cmd.wellFormed o.texts then some (log.cmd.apply o env log.index db) else none

/-- The commands that `applyCMDs` puts off. -/
inductive Postponed
  | config (cfg : ChannelClusterConfig) (confVersion : UInt64)
  | userConversations (uid : Bytes) (conversations : List Conversation)
  | missingConversations (conversations : List Conversation)

def Postponed.config? : Postponed → Option (ChannelClusterConfig × UInt64)
  | config cfg confVersion => some (cfg, confVersion)
  | _ => none

def Postponed.userConversations? : Postponed → Option (Bytes × List Conversation)
  | userConversations uid conversations => some (uid, conversations)
  | _ => none

def Postponed.missingConversations? : Postponed → Option (List Conversation)
  | missingConversations conversations => some conversations
  | _ => none

def Log.postponed (log : Log) : Option Postponed :=
  match log.cmd with
  | .channelClusterConfigSave cfg => some (.config cfg log.index)
  | .conversation (.addOrUpdateUserConversations uid conversations) => some (.userConversations uid conversations)
  | .conversation (.addOrUpdateConversationsBatchIfNotExist conversations) => some (.missingConversations conversations)
  | _ => none

def handleChannelClusterConfigSavesForCMDs (cmds : List (ChannelClusterConfig × UInt64)) : DB :=
  { db with clusterConfigs := cmds.foldl (fun configs c => saveChannelClusterConfig configs c.1 c.2) db.clusterConfigs }

/-- `logIndex` stands for the call, whose map has an order of its own. -/
def handleAddOrUpdateUserConversationsForCMDs (logIndex : UInt64) (db : DB) (cmds : List (Bytes × List Conversation)) : DB :=
  let users := env.groupOrder logIndex (conversationMap cmds)
  DB.notify o env logIndex
    { db with
      conversations := users.foldl (fun db c => db.addOrUpdateConversationsWithUser o.shardNum c.1 c.2) db.conversations }
    (users.flatMap fun c => callIf (c.1 ≠ []) (.updateConversationsInCache c.2))

def handleAddOrUpdateConversationsBatchIfNotExistForCMDs (logIndex : UInt64) (db : DB)
    (cmds : List (List Conversation)) : DB :=
  DB.notify o env logIndex
    { db with conversations := db.conversations.addOrUpdateConversationsBatchIfNotExist o.shardNum cmds.flatten }
    (callIf (cmds.flatten.any fun c => c.uid ≠ []) (.updateConversationsInCache cmds.flatten))

/-- A postponed command that cannot be decoded is refused when its turn comes. -/
def applyCMDs (logs : List Log) : Option DB := do
  let db ← (logs.filter fun log => log.postponed.isNone).foldlM (applyLog o env) db
  let postponed := logs.filterMap Log.postponed
  let db := handleChannelClusterConfigSavesForCMDs db (postponed.filterMap Postponed.config?)
  guard ((logs.filter fun log => log.postponed.isSome).all fun log => log.cmd.wellFormed o.texts)
  let logIndex := (logs.head?.map (·.index)).getD 0
  let db := handleAddOrUpdateUserConversationsForCMDs o env logIndex db (postponed.filterMap Postponed.userConversations?)
  return handleAddOrUpdateConversationsBatchIfNotExistForCMDs o env logIndex db
    (postponed.filterMap Postponed.missingConversations?)

def applySlotLogs (logs : List Log) : Option DB :=
  if logs.length ≥ 10 then applyCMDs o env db logs else logs.foldlM (applyLog o env) db

end WuKongIM.Cluster

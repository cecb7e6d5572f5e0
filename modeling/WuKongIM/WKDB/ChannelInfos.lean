import WuKongIM.WKDB.Members

/-! The information of the channels in package wkdb with its indexes and its cache: how a channel is
added, updated, deleted, read and searched for, and how the counts of the two lists are kept. -/
namespace WuKongIM.WKDB
open Lib Function

inductive InfoIndex
  | ban | disband | subscriberCount | allowlistCount | denylistCount | createdAt | updatedAt | sendBan | allowStranger
  deriving DecidableEq

def InfoIndex.code : InfoIndex → Nat
  | .ban => 0x0601
  | .disband => 0x0602
  | .subscriberCount => 0x0603
  | .allowlistCount => 0x0604
  | .denylistCount => 0x0605
  | .createdAt => 0x0606
  | .updatedAt => 0x0607
  | .sendBan => 0x0608
  | .allowStranger => 0x0609

/-- `NewChannelInfoSecondIndexKey` as a number: the name of the family, the value and the number of
the channel. -/
def secondIndexKey (name : Nat) (value id : UInt64) : Nat := (name * 2 ^ 64 + value.toNat) * 2 ^ 64 + id.toNat

/-- A key of the second index. All databases of a channel's entries are found by its number. -/
structure InfoEntry where
  index : InfoIndex
  value : UInt64
  id : UInt64
  deriving DecidableEq

def InfoEntry.key (e : InfoEntry) : Nat := secondIndexKey e.index.code e.value e.id

/-- The key of the first index, which lies among those of the second one and is shorter: it ends
with the number. -/
def channelIndexKey (num : UInt64) : Nat := secondIndexKey 0x0601 num 0

/-- What is handed in and out and no column is written for. -/
structure UnstoredInfo where
  subscriberCount : Int64 := 0
  lastMsgSeq : UInt64 := 0
  lastMsgTime : UInt64 := 0
  webhook : Bytes := []
  deriving DecidableEq

/-- The information of a channel as it is handed in and out. -/
structure ChannelRecord where
  id : UInt64 := 0
  base : ChannelBase := ⟨⟨[], 0⟩, false, false, false, false, false⟩
  allowlistCount : UInt32 := 0
  denylistCount : UInt32 := 0
  createdAt : Option UInt64 := none
  updatedAt : Option UInt64 := none
  unstored : UnstoredInfo := {}
  deriving DecidableEq

def boolToUint64 (b : Bool) : UInt64 := if b then 1 else 0

/-- The entries that `writeChannelInfoBaseIndex` sets and `deleteChannelInfoBaseIndex` deletes. -/
def ChannelRecord.baseEntries (r : ChannelRecord) (id : UInt64) : List InfoEntry :=
  r.createdAt.toList.map (⟨.createdAt, ·, id⟩) ++ r.updatedAt.toList.map (⟨.updatedAt, ·, id⟩) ++
    [⟨.ban, boolToUint64 r.base.ban, id⟩, ⟨.disband, boolToUint64 r.base.disband, id⟩, ⟨.sendBan,
      boolToUint64 r.base.sendBan, id⟩, ⟨.allowStranger, boolToUint64 r.base.allowStranger, id⟩]

def ChannelInfoRow.read (row : ChannelInfoRow) (id : UInt64) : Option ChannelRecord :=
  if row = {} then none
  else some
    { id
      base := row.base.getD ⟨⟨[], 0⟩, false, false, false, false, false⟩
      allowlistCount := row.allowlistCount.getD 0
      denylistCount := row.denylistCount.getD 0
      createdAt := readTime row.createdAt
      updatedAt := readTime row.updatedAt }

structure ChannelDB where
  shardNum : Nat
  tables : ChannelTables := {}
  entries : List InfoEntry := []
  channelIndex : UInt64 → Option UInt64 := fun _ => none
  channelInfoCache : Bytes → Option ChannelRecord := fun _ => none

/-- The identifier, a colon and the type. -/
def infoCacheKey (c : Channel) : Bytes := c.id ++ [58] ++ itoa c.type

namespace ChannelDB
variable (s : ChannelDB)

def shardOf (id : UInt64) : Nat := id.toNat % s.shardNum

def readInfo (id : UInt64) : Option ChannelRecord := (s.tables.infos id).read id

/-- The cache takes the record under the name that stands in it. -/
def getChannel (c : Channel) : ChannelRecord × ChannelDB :=
  match s.channelInfoCache (infoCacheKey c) with
  | some r => (r, s)
  | none =>
    if channelToNum c = 0 then ({}, s) else
      match s.readInfo (channelToNum c) with
      | none => ({}, s)
      | some r => (r, { s with channelInfoCache := update s.channelInfoCache (infoCacheKey r.base.channel) (some r) })

def addChannel (r : ChannelRecord) : ChannelDB :=
  let num := channelToNum r.base.channel
  { s with
    tables := s.tables.addChannel ⟨r.base, r.createdAt, r.updatedAt⟩
    entries := putAll InfoEntry.key (r.baseEntries num) s.entries
    channelIndex := update s.channelIndex num (some num)
    channelInfoCache := update s.channelInfoCache (infoCacheKey r.base.channel) (some { r with id := num }) }

/-- The entries of what is there go first, but for the time of creation; the cache is changed where
it has the channel. -/
def updateChannel (trimSpace : Bytes → Bytes) (r : ChannelRecord) : ChannelDB :=
  let num := channelToNum r.base.channel
  let (old, s) := s.getChannel r.base.channel
  let stale := if trimSpace old.base.channel.id = [] then [] else { old with createdAt := none }.baseEntries old.id
  let channelIndex := if trimSpace old.base.channel.id = [] then s.channelIndex
    else update s.channelIndex (channelToNum old.base.channel) none
  { s with
    tables := s.tables.updateChannel ⟨r.base, r.createdAt, r.updatedAt⟩
    entries := putAll InfoEntry.key ({ r with createdAt := none }.baseEntries num) (s.entries.filter fun e => e ∉ stale)
    channelIndex := update channelIndex num (some num)
    channelInfoCache := if (s.channelInfoCache (infoCacheKey r.base.channel)).isSome then
        update s.channelInfoCache (infoCacheKey r.base.channel) (some { r with id := num })
      else s.channelInfoCache }

/-- The keys from the first name with the number to the last name with the number, in the channel's
database. -/
def inDeletedRange (num : UInt64) (id : UInt64) (key : Nat) : Bool :=
  s.shardOf id = s.shardOf num && secondIndexKey minColumnKey 0 num ≤ key && key < secondIndexKey maxColumnKey maxUint64 num

def deleteChannel (c : Channel) : ChannelDB :=
  let num := channelToNum c
  if num = 0 then s else
    { s with
      tables := s.tables.deleteChannel c
      entries := s.entries.filter fun e => !s.inDeletedRange num e.id e.key
      channelIndex := fun k => if s.inDeletedRange num k (channelIndexKey k) then none else s.channelIndex k
      channelInfoCache := update s.channelInfoCache (infoCacheKey c) none }

def getTotalChannelCount : UInt64 := s.tables.channelCount.getD 0

variable (c : Channel)

/-- The entry of the new count joins those of the old ones. No entry is written for a reset. -/
def incEntries (index : InfoIndex) (count : Int) (column : Option UInt32) : List InfoEntry :=
  if count = 0 then s.entries
  else put InfoEntry.key ⟨index, UInt64.ofInt (count + (column.getD 0).toNat), channelToNum c⟩ s.entries

variable (tables : ChannelTables)

def setAllowlistCount (count : Int) : ChannelDB :=
  { s with tables, entries := s.incEntries c .allowlistCount count (s.tables.infos (channelToNum c)).allowlistCount }

def setDenylistCount (count : Int) : ChannelDB :=
  { s with tables, entries := s.incEntries c .denylistCount count (s.tables.infos (channelToNum c)).denylistCount }

def addAllowlist (members : List Member) : ChannelDB :=
  s.setAllowlistCount c (s.tables.addAllowlist c members) members.length

def removeAllowlist (uids : List Bytes) : ChannelDB :=
  s.setAllowlistCount c (s.tables.removeAllowlist c uids) (-((s.tables.allowlist (channelToNum c)).byUids uids).length)

def removeAllAllowlist : ChannelDB := s.setAllowlistCount c (s.tables.removeAllAllowlist c) 0

def addDenylist (members : List Member) : ChannelDB :=
  s.setDenylistCount c (s.tables.addDenylist c members) members.length

def removeDenylist (uids : List Bytes) : ChannelDB :=
  s.setDenylistCount c (s.tables.removeDenylist c uids) (-((s.tables.denylist (channelToNum c)).byUids uids).length)

def removeAllDenylist : ChannelDB := s.setDenylistCount c (s.tables.removeAllDenylist c) 0

end ChannelDB

structure ChannelSearchReq where
  channelId : Bytes := []
  channelType : UInt8 := 0
  ban : Option Bool := none
  disband : Option Bool := none
  subscriberCountGte : Option Int := none
  subscriberCountLte : Option Int := none
  denylistCountGte : Option Int := none
  denylistCountLte : Option Int := none
  allowlistCountGte : Option Int := none
  allowlistCountLte : Option Int := none
  limit : Int := 0
  offsetCreatedAt : Int := 0
  pre : Bool := false

namespace ChannelSearchReq
variable (req : ChannelSearchReq)

/-- The keys of one value of a family. The largest number bounds them. -/
def flagKeys (index : InfoIndex) (flag : Option Bool) : Option (Nat × Nat) :=
  flag.map fun b => (secondIndexKey index.code (boolToUint64 b) 0, secondIndexKey index.code (boolToUint64 b) maxUint64)

def countKeys (index : InfoIndex) (gte lte : Option Int) : Option (Nat × Nat) :=
  if gte.isNone && lte.isNone then none
  else some (secondIndexKey index.code (UInt64.ofInt (gte.getD 0)) 0,
    secondIndexKey index.code ((lte.map UInt64.ofInt).getD maxUint64) maxUint64)

/-- The first family that the request asks for decides which keys are looked at. -/
def indexKeys : Option (Nat × Nat) :=
  flagKeys .ban req.ban <|> flagKeys .disband req.disband <|>
    countKeys .subscriberCount req.subscriberCountGte req.subscriberCountLte <|>
    countKeys .allowlistCount req.allowlistCountGte req.allowlistCountLte <|>
    countKeys .denylistCount req.denylistCountGte req.denylistCountLte

/-- Without a family, the keys of the times of creation up to the offset, or after it. -/
def createdAtKeys : Nat × Nat :=
  let (first, last) :=
    if req.offsetCreatedAt > 0 then
      if req.pre then (UInt64.ofInt (req.offsetCreatedAt + 1), maxUint64) else (0, UInt64.ofInt req.offsetCreatedAt)
    else (UInt64.ofInt req.offsetCreatedAt, maxUint64)
  (secondIndexKey InfoIndex.createdAt.code first 0, secondIndexKey InfoIndex.createdAt.code last 0)

def skips (r : ChannelRecord) : Bool :=
  (req.channelId ≠ [] && req.channelId ≠ r.base.channel.id) ||
    (req.channelType ≠ 0 && req.channelType ≠ r.base.channel.type) ||
    req.ban.any (· ≠ r.base.ban) || req.disband.any (· ≠ r.base.disband)

def ends (r : ChannelRecord) : Bool :=
  0 < req.offsetCreatedAt && r.createdAt.any fun tm =>
    if req.pre then (tm.toNat : Int) ≤ req.offsetCreatedAt else req.offsetCreatedAt ≤ (tm.toNat : Int)

/-- The callback of the search over the records in their order. One record more than the limit is
taken. -/
def take : List ChannelRecord → Int → List ChannelRecord
  | [], _ => []
  | r :: rs, currentSize =>
    if req.skips r then take rs currentSize
    else if req.ends r || req.limit < currentSize then []
    else r :: take rs (currentSize + 1)

end ChannelSearchReq

variable (s : ChannelDB) (req : ChannelSearchReq)

/-- The records behind the keys of a range in one database. A key without a row yields an empty
record. -/
def ChannelDB.recordsBetween (shard : Nat) (keys : Nat × Nat) : List ChannelRecord :=
  (s.entries.filter fun e => s.shardOf e.id = shard && keys.1 ≤ e.key && e.key < keys.2).map fun e => (s.readInfo e.id).getD {}

def ChannelDB.searchShard (shard : Nat) : List ChannelRecord :=
  match req.indexKeys with
  | some keys => req.take (s.recordsBetween shard keys).reverse 0
  | none =>
    let records := s.recordsBetween shard req.createdAtKeys
    req.take (if req.pre then records else records.reverse) 0

/-- The one channel that a request asks for. -/
def ChannelSearchReq.channel : Option Channel :=
  if req.channelId ≠ [] ∧ req.channelType ≠ 0 then some ⟨req.channelId, req.channelType⟩ else none

/-- What `SearchChannels` collects from all databases before it sorts the records, cuts them to the
limit and looks up the last message and the number of subscribers of each. A single channel is
looked up as `getChannel` does, and is answered even where there is none. -/
def ChannelDB.searchChannels : List ChannelRecord :=
  match req.channel with
  | some c => [(s.getChannel c).1]
  | none => (List.range s.shardNum).flatMap (s.searchShard req)

end WuKongIM.WKDB

import WuKongIM.WKDB.Conversation

/-! The tables of package wkdb about channels: subscribers, the two lists of members, the
information of a channel with its counts, and the number of channels. -/
namespace WuKongIM.WKDB
open Lib Function

structure Member where
  uid : Bytes
  createdAt : Option UInt64 := none
  updatedAt : Option UInt64 := none
  deriving DecidableEq

structure MemberTable where
  rows : UInt64 → Option Member := fun _ => none
  uidIndex : UInt64 → Option UInt64 := fun _ => none

namespace MemberTable

/-- The columns of a time stay when the member brings none. -/
def write (t : MemberTable) (m : Member) : MemberTable :=
  let id := hashWithString m.uid
  let old := t.rows id
  { rows := update t.rows id (some
      { m with
        createdAt := m.createdAt <|> old.bind (·.createdAt)
        updatedAt := m.updatedAt <|> old.bind (·.updatedAt) })
    uidIndex := update t.uidIndex id (some id) }

def byUids (t : MemberTable) (uids : List Bytes) : List (UInt64 × Member) :=
  uids.filterMap fun uid => (t.rows (hashWithString uid)).map fun m => (hashWithString uid, m)

/-- One member goes; `index` is the key of its index. -/
def remove (index : UInt64 × Member → UInt64) (t : MemberTable) (e : UInt64 × Member) : MemberTable :=
  { rows := update t.rows e.1 none
    uidIndex := update t.uidIndex (index e) none }

end MemberTable

structure ChannelBase where
  channel : Channel
  ban : Bool
  large : Bool
  disband : Bool
  sendBan : Bool
  allowStranger : Bool
  deriving DecidableEq

structure ChannelInfo where
  base : ChannelBase
  createdAt : Option UInt64 := none
  updatedAt : Option UInt64 := none
  deriving DecidableEq

/-- A count may be there before the channel is. -/
structure ChannelInfoRow where
  base : Option ChannelBase := none
  createdAt : Option UInt64 := none
  updatedAt : Option UInt64 := none
  allowlistCount : Option UInt32 := none
  denylistCount : Option UInt32 := none
  deriving DecidableEq

structure ChannelTables where
  subscribers : UInt64 → MemberTable := fun _ => {}
  allowlist : UInt64 → MemberTable := fun _ => {}
  denylist : UInt64 → MemberTable := fun _ => {}
  infos : UInt64 → ChannelInfoRow := fun _ => {}
  channelCount : Option UInt64 := none

/-- A count of zero resets the column. -/
def incChannelInfoColumnCount (count : Int) (column : Option UInt32) : UInt32 :=
  if count = 0 then 0 else UInt32.ofInt (count + (column.getD 0).toNat)

namespace ChannelTables
variable (t : ChannelTables) (c : Channel)

def addSubscribers (members : List Member) : ChannelTables :=
  let num := channelToNum c
  { t with subscribers := update t.subscribers num (members.foldl MemberTable.write (t.subscribers num)) }

variable (uids : List Bytes)

/-- The index is found by the stored name. -/
def removeSubscribers : ChannelTables :=
  let num := channelToNum c
  let table := t.subscribers num
  { t with
    subscribers := update t.subscribers num
      ((table.byUids uids.eraseDups).foldl (MemberTable.remove fun e => hashWithString e.2.uid) table) }

/-- The largest hash bounds the deletion of the index. -/
def removeAllSubscriber : ChannelTables :=
  let num := channelToNum c
  let table := t.subscribers num
  { t with
    subscribers := update t.subscribers num
      { uidIndex := fun id => if id = maxUint64 then table.uidIndex id else none } }

/-- The list that is left after the removal of all members, up to the largest hash. -/
def emptied (table : MemberTable) : MemberTable where
  rows id := if id = maxUint64 then table.rows id else none
  uidIndex id := if id = maxUint64 then table.uidIndex id else none

def incAllowlistCount (count : Int) (r : ChannelInfoRow) : ChannelInfoRow :=
  { r with allowlistCount := some (incChannelInfoColumnCount count r.allowlistCount) }

def incDenylistCount (count : Int) (r : ChannelInfoRow) : ChannelInfoRow :=
  { r with denylistCount := some (incChannelInfoColumnCount count r.denylistCount) }

/-- The table of one list and the row with its count after a change of both. -/
def setAllowlist (num : UInt64) (table : MemberTable) (count : Int) : ChannelTables :=
  { t with
    allowlist := update t.allowlist num table
    infos := update t.infos num (incAllowlistCount count (t.infos num)) }

def setDenylist (num : UInt64) (table : MemberTable) (count : Int) : ChannelTables :=
  { t with
    denylist := update t.denylist num table
    infos := update t.infos num (incDenylistCount count (t.infos num)) }

/-- Members that are in the list already are counted again. -/
def addAllowlist (members : List Member) : ChannelTables :=
  let num := channelToNum c
  t.setAllowlist num (members.foldl MemberTable.write (t.allowlist num)) members.length

def removeAllowlist : ChannelTables :=
  let num := channelToNum c
  let members := (t.allowlist num).byUids uids
  t.setAllowlist num (members.foldl (MemberTable.remove Prod.fst) (t.allowlist num)) (-members.length)

def removeAllAllowlist : ChannelTables :=
  let num := channelToNum c
  t.setAllowlist num (emptied (t.allowlist num)) 0

def addDenylist (members : List Member) : ChannelTables :=
  let num := channelToNum c
  t.setDenylist num (members.foldl MemberTable.write (t.denylist num)) members.length

def removeDenylist : ChannelTables :=
  let num := channelToNum c
  let members := (t.denylist num).byUids uids
  t.setDenylist num (members.foldl (MemberTable.remove Prod.fst) (t.denylist num)) (-members.length)

def removeAllDenylist : ChannelTables :=
  let num := channelToNum c
  t.setDenylist num (emptied (t.denylist num)) 0

variable (info : ChannelInfo)

def writeChannelInfo (createdAt : Option UInt64) : ChannelTables :=
  let num := channelToNum info.base.channel
  { t with
    infos := update t.infos num
      { t.infos num with
        base := some info.base
        createdAt := createdAt <|> (t.infos num).createdAt
        updatedAt := info.updatedAt <|> (t.infos num).updatedAt } }

def addChannel : ChannelTables := t.writeChannelInfo info info.createdAt

/-- An update leaves the time of creation alone. -/
def updateChannel : ChannelTables := t.writeChannelInfo info none

def incChannelCount (v : Int) : Option UInt64 := some (UInt64.ofInt (v + (t.channelCount.getD 0).toNat))

/-- Only the row of the channel goes, with its counts; the number of channels sinks whether or not
the row was there. -/
def deleteChannel : ChannelTables :=
  let num := channelToNum c
  if num = 0 then t else
    { t with infos := update t.infos num {}, channelCount := t.incChannelCount (-1) }

end ChannelTables
end WuKongIM.WKDB

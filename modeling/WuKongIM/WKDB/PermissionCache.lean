import WuKongIM.Lib.Joined
import WuKongIM.WKDB.MessageStore

/-! The cache of permissions in package wkdb: one table for the three kinds of members of a channel
and for the question whether a channel has an allowlist, under keys that are joined from free-form
names. -/
namespace WuKongIM.WKDB
open Lib

inductive PermissionType
  | denylist | subscriber | allowlist | hasAllowlist
  deriving DecidableEq

def PermissionType.code : PermissionType → UInt8
  | .denylist => 1
  | .subscriber => 2
  | .allowlist => 3
  | .hasAllowlist => 4

/-- What follows the identifier of the channel in a key. A user without a name leaves no trace. -/
def keyTail (type : UInt8) (uid : Bytes) : Bytes := if uid = [] then itoa type else itoa type ++ [58] ++ uid

def getPermissionKey (p : PermissionType) (c : Channel) (uid : Bytes) : Bytes :=
  itoa p.code ++ [58] ++ c.id ++ [58] ++ keyTail c.type uid

/-- The entries that have not expired. -/
abbrev PermissionCache := Bytes → Option Bool

namespace PermissionCache
variable (cache : PermissionCache) (c : Channel) (uid : Bytes) (uids : List Bytes) (value : Bool)

def getPermission (key : Bytes) : Option Bool := cache key

def setPermission (key : Bytes) (value : Bool) : PermissionCache := Function.update cache key (some value)

def remove (key : Bytes) : PermissionCache := Function.update cache key none

def getDenylistExists : Option Bool := cache.getPermission (getPermissionKey .denylist c uid)

def setDenylistExists : PermissionCache := cache.setPermission (getPermissionKey .denylist c uid) value

def getSubscriberExists : Option Bool := cache.getPermission (getPermissionKey .subscriber c uid)

def setSubscriberExists : PermissionCache := cache.setPermission (getPermissionKey .subscriber c uid) value

def getAllowlistExists : Option Bool := cache.getPermission (getPermissionKey .allowlist c uid)

def setAllowlistExists : PermissionCache := cache.setPermission (getPermissionKey .allowlist c uid) value

def getHasAllowlist : Option Bool := cache.getPermission (getPermissionKey .hasAllowlist c [])

def setHasAllowlist : PermissionCache := cache.setPermission (getPermissionKey .hasAllowlist c []) value

def batchSetDenylistExists : PermissionCache := uids.foldl (fun cache uid => cache.setDenylistExists c uid value) cache

def batchSetSubscriberExists : PermissionCache := uids.foldl (fun cache uid => cache.setSubscriberExists c uid value) cache

/-- New members give the channel an allowlist; a removal says nothing about what is left. -/
def batchSetAllowlistExists : PermissionCache :=
  let cache := uids.foldl (fun cache uid => cache.setAllowlistExists c uid value) cache
  if value = true ∧ uids ≠ [] then cache.setHasAllowlist c true else cache

/-- The beginning that the invalidations look for, with its last colon. -/
def channelKeys (p : PermissionType) : Bytes := itoa p.code ++ [58] ++ c.id ++ [58] ++ itoa c.type ++ [58]

/-- Keys that are longer than the beginning. -/
def goesOn (start key : Bytes) : Bool := start.length < key.length && key.take start.length = start

def invalidateUser : PermissionCache :=
  ((cache.remove (getPermissionKey .denylist c uid)).remove (getPermissionKey .subscriber c uid)).remove
    (getPermissionKey .allowlist c uid)

def invalidateChannel : PermissionCache := fun key =>
  if goesOn (channelKeys c .denylist) key || goesOn (channelKeys c .subscriber) key || goesOn
    (channelKeys c .allowlist) key ||
    key = getPermissionKey .hasAllowlist c [] then none else cache key

/-- Whether a channel has an allowlist stands under one key. -/
def invalidateChannelByType (p : PermissionType) : PermissionCache :=
  if p = .hasAllowlist then cache.remove (getPermissionKey p c [])
  else fun key => if goesOn (channelKeys c p) key then none else cache key

end PermissionCache
end WuKongIM.WKDB

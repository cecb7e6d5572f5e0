import WuKongIM.WKDB.Conversation

/-! The tables of package wkdb about users: the users, their devices, and the small tables of system
users, testers and users of plugins. -/
namespace WuKongIM.WKDB
open Lib Function

structure User where
  uid : Bytes
  createdAt : Option UInt64 := none
  updatedAt : Option UInt64 := none
  deriving DecidableEq

structure Device where
  id : UInt64 := 0
  uid : Bytes := []
  token : Bytes := []
  tokenVersion : UInt64 := 0
  deviceFlag : UInt64 := 0
  deviceLevel : UInt8 := 0
  createdAt : Option UInt64 := none
  updatedAt : Option UInt64 := none
  deriving DecidableEq

def isEmptyDevice (d : Device) : Bool := d.uid = []

/-- The devices in one database: the rows, and the identifiers under the hash of a user in ascending
order. -/
structure DeviceShard where
  rows : UInt64 → Option Device := fun _ => none
  uidIndex : UInt64 → List UInt64 := fun _ => []

namespace DeviceShard
variable (t : DeviceShard)

/-- A device without a user counts as missing. -/
def getDeviceById (id : UInt64) : Option Device :=
  (t.rows id).bind fun d =>
    let d := { d with createdAt := readTime d.createdAt, updatedAt := readTime d.updatedAt }
    if isEmptyDevice d then none else some d

/-- The loop of `getDeviceId`: the first device of the highest version. It ends without a result at
an entry that has no row. -/
def select (deviceFlag : UInt64) : List UInt64 → Device → Option Device
  | [], selected => if isEmptyDevice selected then none else some selected
  | id :: ids, selected =>
    match t.getDeviceById id with
    | none => none
    | some d =>
      select deviceFlag ids
        (if d.deviceFlag = deviceFlag ∧ (isEmptyDevice selected ∨
          d.tokenVersion > selected.tokenVersion) then d else selected)

def getDeviceId (uid : Bytes) (deviceFlag : UInt64) : UInt64 :=
  match t.select deviceFlag ((t.uidIndex (hashWithString uid)).filter fun id => id ≠ maxUint64) {} with
  | some d => d.id
  | none => 0

def getDevice (uid : Bytes) (deviceFlag : UInt64) : Option Device :=
  let id := t.getDeviceId uid deviceFlag
  if id = 0 then none else t.getDeviceById id

def writeDevice (d : Device) : DeviceShard :=
  let old := t.rows d.id
  let hash := hashWithString d.uid
  { rows := update t.rows d.id (some
      { d with
        createdAt := d.createdAt <|> old.bind (·.createdAt)
        updatedAt := d.updatedAt <|> old.bind (·.updatedAt) })
    uidIndex := update t.uidIndex hash (put UInt64.toNat d.id (t.uidIndex hash)) }

def deleteDeviceIndex (old : Device) : DeviceShard :=
  let hash := hashWithString old.uid
  { t with uidIndex := update t.uidIndex hash ((t.uidIndex hash).filter fun id => id ≠ old.id) }

end DeviceShard

def deviceTokenWriteAllowed (old next : Device) : Bool :=
  if old.tokenVersion = 0 ∧ next.tokenVersion = 0 then true
  else if next.tokenVersion ≠ old.tokenVersion then next.tokenVersion > old.tokenVersion
  else next.token = old.token ∧ next.deviceLevel = old.deviceLevel

structure DeviceTokenCondition where
  version : UInt64
  hash : Bytes
  deriving DecidableEq

namespace DeviceShard
variable (t : DeviceShard) (tokenHash : Bytes → Bytes)

/-- The condition holds, or the update has been made already. -/
def meets (expected : Option DeviceTokenCondition) (old d : Device) : Bool :=
  match expected with
  | none => true
  | some expected =>
    (!isEmptyDevice old && old.tokenVersion = expected.version && tokenHash old.token = expected.hash) ||
      (old.tokenVersion = d.tokenVersion && old.token = d.token && old.deviceLevel = d.deviceLevel)

variable (d : Device)

def updateDeviceWithTokenCondition (expected : Option DeviceTokenCondition) : DeviceShard :=
  let old := (t.getDeviceById d.id).getD {}
  let currentID := t.getDeviceId d.uid d.deviceFlag
  -- another row of the same device, with a higher version, takes the place of the row named
  let target := if currentID ≠ 0 ∧ currentID ≠ d.id then
      match t.getDeviceById currentID with
      | some current =>
        if current.tokenVersion > old.tokenVersion ∨ (isEmptyDevice old ∧ d.tokenVersion > 0) then (current.id, current)
        else (d.id, old)
      | none => (d.id, old)
    else (d.id, old)
  let old := target.2
  let d := { d with id := target.1, createdAt := none }
  if !meets tokenHash expected old d then t
  else if !deviceTokenWriteAllowed old d then t
  else (if isEmptyDevice old then t else t.deleteDeviceIndex old).writeDevice d

def updateDevice : DeviceShard :=
  t.updateDeviceWithTokenCondition tokenHash d none

def updateDeviceIfTokenMatches (version : UInt64) (hash : Bytes) : DeviceShard :=
  t.updateDeviceWithTokenCondition tokenHash d (some ⟨version, hash⟩)

def addDevice : DeviceShard :=
  match t.getDevice d.uid d.deviceFlag with
  | some old =>
    if old.tokenVersion > 0 ∨ d.tokenVersion > 0 then
      if !deviceTokenWriteAllowed old d then t else t.updateDevice tokenHash { d with id := old.id }
    else t.writeDevice d
  | none => t.writeDevice d

end DeviceShard

structure Tester where
  no : Bytes
  addr : Bytes
  createdAt : UInt64
  updatedAt : UInt64
  deriving DecidableEq

structure PluginUser where
  uid : Bytes
  pluginNo : Bytes
  createdAt : Option UInt64 := none
  updatedAt : Option UInt64 := none
  deriving DecidableEq

structure UserTables where
  users : UserKey → Option User := fun _ => none
  devices : Nat → DeviceShard := fun _ => {}
  systemUids : UInt64 → Option Bytes := fun _ => none
  testers : UInt64 → Option Tester := fun _ => none
  pluginUsers : UInt64 → Option PluginUser := fun _ => none

namespace UserTables
variable (t : UserTables)

/-- The time of creation is written with the first row only. -/
def addUser (shardNum : Nat) (u : User) : UserTables :=
  let k := userKey shardNum u.uid
  let old := (t.users k).filter fun old => old.uid ≠ []
  { t with users := update t.users k (some
      { u with
        createdAt := if old.isSome then (t.users k).bind (·.createdAt) else u.createdAt <|> (t.users k).bind (·.createdAt)
        updatedAt := u.updatedAt <|> (t.users k).bind (·.updatedAt) }) }

/-- The code of `UpdateUser` is that of `AddUser`. -/
def updateUser (shardNum : Nat) (u : User) : UserTables := t.addUser shardNum u

def modifyDevices (shard : Nat) (f : DeviceShard → DeviceShard) : UserTables :=
  { t with devices := update t.devices shard (f (t.devices shard)) }

def addSystemUids (uids : List Bytes) : UserTables :=
  { t with systemUids := uids.foldl (fun s uid => update s (hashWithString uid) (some uid)) t.systemUids }

def removeSystemUids (uids : List Bytes) : UserTables :=
  { t with systemUids := uids.foldl (fun s uid => update s (hashWithString uid) none) t.systemUids }

def addOrUpdateTester (tester : Tester) : UserTables :=
  { t with testers := update t.testers (hashWithString tester.no) (some tester) }

def removeTester (no : Bytes) : UserTables :=
  { t with testers := update t.testers (hashWithString no) none }

variable (pluginNo uid : Bytes)

/-- The number of the plugin and the user, with an underscore between them. -/
def getPluginId : UInt64 := hashWithString (pluginNo ++ [95] ++ uid)

def addOrUpdatePluginUser (p : PluginUser) : UserTables :=
  let id := getPluginId p.pluginNo p.uid
  let old := t.pluginUsers id
  { t with pluginUsers := update t.pluginUsers id (some
      { p with
        createdAt := p.createdAt <|> old.bind (·.createdAt)
        updatedAt := p.updatedAt <|> old.bind (·.updatedAt) }) }

def removePluginUser : UserTables :=
  { t with pluginUsers := update t.pluginUsers (getPluginId pluginNo uid) none }

end UserTables
end WuKongIM.WKDB

import WuKongIM.Store.CMD
import WuKongIM.WKDB.MessageStore

/-! The commands that carry the information of a channel and a device. Which fields of a channel are
written depends on a version, and the reader takes the version of the command; the version of a
device's token stands at the end or is left out. -/
namespace WuKongIM.Commands
open Lib Raft.Wire Cluster List Option
open RawCMD (logged logged_eq)
open WKDB (Bytes Channel)

variable (p : WKProto) (t : Option Int)

/-- A point of time in nanoseconds since 1970; `UnixNano` keeps 64 bits of it. -/
def putInstant : Bytes := putTime p (t.map UInt64.ofInt)

def instant : Decoder (Option Int) := Option.map (fun nano : UInt64 => (nano.toNat : Int)) <$> time p

def instantKept : Option Int := (timeKept (t.map UInt64.ofInt)).map fun nano => (nano.toNat : Int)

theorem reads_instant : Reads (instant p) (putInstant p t) (instantKept t) := (reads_time p _).map _

def InstantFits : Prop := ∀ nano ∈ t, 0 < nano ∧ nano < 2 ^ 64

theorem toNat_ofInt (nano : Int) : (UInt64.ofInt nano).toNat = nano % 2 ^ 64 := by
  have hlt : (nano % 2 ^ 64).toNat < 2 ^ 64 := by omega
  rw [UInt64.ofInt, UInt64.toNat_ofNat_of_lt' hlt]
  omega

theorem instantKept_eq_self {t : Option Int} : instantKept t = t ↔ InstantFits t := by
  cases t with
  | none => simp [instantKept, timeKept, InstantFits]
  | some nano =>
    have hmod := toNat_ofInt nano
    have hpos : (0 < UInt64.ofInt nano) ↔ 0 < nano % 2 ^ 64 := by
      rw [UInt64.lt_iff_toNat_lt, UInt64.toNat_zero]
      omega
    have hfits : InstantFits (some nano) ↔ 0 < nano ∧ nano < 2 ^ 64 := by simp [InstantFits]
    rw [hfits]
    by_cases h : 0 < UInt64.ofInt nano
    · have hkept : instantKept (some nano) = some (nano % 2 ^ 64) := by
        simp [instantKept, timeKept, h, hmod]
      rw [hkept, some.injEq]
      rw [hpos] at h
      omega
    · have hkept : instantKept (some nano) = none := by simp [instantKept, timeKept, Option.filter, h]
      rw [hkept]
      rw [hpos] at h
      refine iff_of_false (by simp) ?_
      omega

structure ChannelInfo where
  id : UInt64 := 0
  channel : Channel
  ban : Bool := false
  large : Bool := false
  disband : Bool := false
  subscriberCount : Int := 0
  denylistCount : Int := 0
  allowlistCount : Int := 0
  lastMsgSeq : UInt64 := 0
  lastMsgTime : UInt64 := 0
  webhook : Bytes := []
  sendBan : Bool := false
  allowStranger : Bool := false
  createdAt : Option Int := none
  updatedAt : Option Int := none
  deriving DecidableEq

def boolToUint8 (b : Bool) : UInt8 := if b then 1 else 0

def uint8ToBool (b : UInt8) : Bool := b == 1

def bool : Decoder Bool := uint8ToBool <$> p.uint8

theorem reads_bool (b : Bool) : Reads (bool p) (p.putUint8 (boolToUint8 b)) b := by
  have h := (p.reads_uint8 (boolToUint8 b)).map uint8ToBool
  cases b <;> exact h

def putChannelBase (c : ChannelInfo) : Bytes :=
  p.putString c.channel.id ++ (p.putUint8 c.channel.type ++ (p.putUint8 (boolToUint8 c.ban) ++ (p.putUint8 (boolToUint8 c.large) ++
    (p.putUint8 (boolToUint8 c.disband) ++ (putInstant p c.createdAt ++ putInstant p c.updatedAt)))))

def encodeChannelInfo (c : ChannelInfo) (version : CmdVersion) : Bytes :=
  putChannelBase p c ++ ((if decide (0 < version) then p.putString c.webhook else []) ++
    if decide (2 < version) then p.putUint8 (boolToUint8 c.allowStranger) ++ p.putUint8 (boolToUint8 c.sendBan) else [])

def strangers : Decoder (Bool × Bool) := do
  let allowStranger ← bool p
  let sendBan ← bool p
  return (allowStranger, sendBan)

def channelBase : Decoder ChannelInfo := do
  let channelId ← p.string
  let channelType ← p.uint8
  let ban ← bool p
  let large ← bool p
  let disband ← bool p
  let createdAt ← instant p
  let updatedAt ← instant p
  return { channel := ⟨channelId, channelType⟩, ban, large, disband, createdAt, updatedAt }

def channelInfo (version : CmdVersion) : Decoder ChannelInfo := do
  let c ← channelBase p
  let webhook ← optional (decide (0 < version)) p.string []
  let (allowStranger, sendBan) ← optional (decide (2 < version)) (strangers p) (false, false)
  return { c with webhook, sendBan, allowStranger }

def decodeChannelInfo (c : RawCMD) : Option ChannelInfo := ((channelInfo p c.version).run c.data).map (·.1)

variable {p}

def ChannelInfo.carriedBy (c : ChannelInfo) (version : CmdVersion) : ChannelInfo where
  channel := c.channel
  ban := c.ban
  large := c.large
  disband := c.disband
  webhook := if 0 < version then c.webhook else []
  sendBan := decide (2 < version) && c.sendBan
  allowStranger := decide (2 < version) && c.allowStranger
  createdAt := c.createdAt
  updatedAt := c.updatedAt

section
variable {c : ChannelInfo} {version : CmdVersion}

section
variable (hid : p.holds c.channel.id)
include hid

theorem reads_channelBase : Reads (channelBase p) (putChannelBase p c)
      { c.carriedBy 0 with createdAt := instantKept c.createdAt, updatedAt := instantKept c.updatedAt } :=
  (p.reads_string _ hid).bind <| (p.reads_uint8 c.channel.type).bind <| (reads_bool p c.ban).bind <|
    (reads_bool p c.large).bind <| (reads_bool p c.disband).bind <| (reads_instant p c.createdAt).bind <|
    (reads_instant p c.updatedAt).result _

theorem reads_channelInfo (hwebhook : p.holds c.webhook) : Reads (channelInfo p version) (encodeChannelInfo p c version)
      { c.carriedBy version with createdAt := instantKept c.createdAt, updatedAt := instantKept c.updatedAt } := by
  have hhook : Reads (optional (decide (0 < version)) p.string [])
      (if decide (0 < version) then p.putString c.webhook else []) (if 0 < version then c.webhook else []) := by
    refine .optional (fun h => ?_) fun h => if_neg (of_decide_eq_false h)
    rw [if_pos (of_decide_eq_true h)]
    exact p.reads_string _ hwebhook
  have hstrangers : Reads (optional (decide (2 < version)) (strangers p) (false, false))
      (if decide (2 < version) then p.putUint8 (boolToUint8 c.allowStranger) ++ p.putUint8 (boolToUint8 c.sendBan) else [])
      (decide (2 < version) && c.allowStranger, decide (2 < version) && c.sendBan) := by
    refine .optional (fun h => ?_) fun h => by rw [h, Bool.false_and, Bool.false_and]
    rw [h]
    exact (reads_bool p c.allowStranger).bind ((reads_bool p c.sendBan).result _)
  exact (reads_channelBase hid).bind <| hhook.bind <| hstrangers.result _

theorem run_channelInfo_one : (channelInfo p 1).run (encodeChannelInfo p c 0) = none := by
  have hdata : encodeChannelInfo p c 0 = putChannelBase p c ++ [] := rfl
  rw [hdata, channelInfo, StateT.run_bind, reads_channelBase hid, bind_eq_bind, bind_some]
  rw [StateT.run_bind]
  have hnone : (optional (decide (0 < (1 : CmdVersion))) p.string []).run [] = none := p.string_nil
  rw [hnone]
  rfl

end

theorem decodeChannelInfo_logged (cmdType : CMDType) (hid : p.holds c.channel.id) (hwebhook : p.holds c.webhook) :
    (logged p { cmdType, data := encodeChannelInfo p c version, version }).bind
      (decodeChannelInfo p) = if version = 0 then none
      else some { c.carriedBy version with createdAt := instantKept c.createdAt, updatedAt := instantKept c.updatedAt } := by
  rw [logged_eq, bind_some, decodeChannelInfo]
  split
  · next h =>
    subst h
    rw [run_channelInfo_one hid, map_none]
  · have hread : (channelInfo p version).run (encodeChannelInfo p c version ++ []) = _ := reads_channelInfo hid hwebhook []
    rw [append_nil] at hread
    rw [hread, map_some]

theorem carriedBy_eq_iff :
    { c.carriedBy version with createdAt := instantKept c.createdAt, updatedAt := instantKept c.updatedAt } =
        c.carriedBy version ↔ InstantFits c.createdAt ∧ InstantFits c.updatedAt := by
  rw [← instantKept_eq_self, ← instantKept_eq_self]
  simp [ChannelInfo.carriedBy]

end

structure Device where
  id : UInt64 := 0
  uid : Bytes
  token : Bytes := []
  tokenVersion : UInt64 := 0
  deviceFlag : UInt64 := 0
  deviceLevel : UInt8 := 0
  connCount : UInt32 := 0
  sendMsgCount : UInt64 := 0
  recvMsgCount : UInt64 := 0
  sendMsgBytes : UInt64 := 0
  recvMsgBytes : UInt64 := 0
  createdAt : Option Int := none
  updatedAt : Option Int := none
  deriving DecidableEq

section
variable (p : WKProto)

/-- The record of a device before its token had a version. -/
def putDevice (d : Device) : Bytes :=
  p.putUint64 d.id ++ (p.putString d.uid ++ (p.putUint64 d.deviceFlag ++ (p.putUint8 d.deviceLevel ++ (p.putString d.token ++
    (putInstant p d.createdAt ++ putInstant p d.updatedAt)))))

def encodeCMDDevice (d : Device) : Bytes := putDevice p d ++ if 0 < d.tokenVersion then p.putUint64 d.tokenVersion else []

def device : Decoder Device := do
  let id ← p.uint64
  let uid ← p.string
  let deviceFlag ← p.uint64
  let deviceLevel ← p.uint8
  let token ← p.string
  let createdAt ← instant p
  let updatedAt ← instant p
  return { id, uid, deviceFlag, deviceLevel, token, createdAt, updatedAt }

/-- The version is recognised by the bytes that are left. -/
def decodeCMDDevice (c : RawCMD) : Option Device := do
  let (d, rest) ← (device p).run c.data
  if 0 < rest.length then
    if rest.length ≠ 8 then none
    else
      let (tokenVersion, _) ← p.uint64.run rest
      return { d with tokenVersion }
  else return d

end

def Device.carried (d : Device) : Device :=
  { d with connCount := 0, sendMsgCount := 0, recvMsgCount := 0, sendMsgBytes := 0, recvMsgBytes := 0 }

section
variable {d : Device} {tokenVersion : UInt64}

/-- The device that is read, with a version from the end of the record. -/
def Device.received (d : Device) (tokenVersion : UInt64) : Device :=
  { d.carried with tokenVersion, createdAt := instantKept d.createdAt, updatedAt := instantKept d.updatedAt }

section
variable (huid : p.holds d.uid) (htoken : p.holds d.token)
include huid htoken

theorem reads_device : Reads (device p) (putDevice p d) (d.received 0) :=
  (p.reads_uint64 d.id).bind <| (p.reads_string _ huid).bind <| (p.reads_uint64 d.deviceFlag).bind <|
    (p.reads_uint8 d.deviceLevel).bind <| (p.reads_string _ htoken).bind <| (reads_instant p d.createdAt).bind <|
    (reads_instant p d.updatedAt).result _

variable {cmd : RawCMD}

theorem decodeCMDDevice_without (h : cmd.data = putDevice p d) : decodeCMDDevice p cmd = some (d.received 0) := by
  have hread := reads_device huid htoken []
  rw [append_nil] at hread
  rw [decodeCMDDevice, h, hread]
  rfl

theorem decodeCMDDevice_with (h : cmd.data = putDevice p d ++ p.putUint64 tokenVersion) :
    decodeCMDDevice p cmd = some (d.received tokenVersion) := by
  have hversion := p.reads_uint64 tokenVersion []
  rw [append_nil] at hversion
  rw [decodeCMDDevice, h, reads_device huid htoken, bind_eq_bind, bind_some]
  dsimp only
  rw [hversion, p.length_putUint64]
  rfl

/-- A version that is not written is zero. -/
theorem decodeCMDDevice_encoded (h : cmd.data = encodeCMDDevice p d) :
    decodeCMDDevice p cmd = some (d.received d.tokenVersion) := by
  rw [encodeCMDDevice] at h
  split at h
  · exact decodeCMDDevice_with huid htoken h
  rename_i hzero
  have hversion : d.tokenVersion = 0 := by simpa [UInt64.pos_iff_ne_zero] using hzero
  rw [append_nil] at h
  rw [hversion]
  exact decodeCMDDevice_without huid htoken h

end

theorem received_eq_iff : d.received tokenVersion = { d.carried with tokenVersion } ↔
    InstantFits d.createdAt ∧ InstantFits d.updatedAt := by
  rw [← instantKept_eq_self, ← instantKept_eq_self]
  simp [Device.received, Device.carried]

end

/-- The information of a channel is read back in the fields of its version unless the version is
zero, and a device with the version that stands at the end of its record or with zero; times must be
after 1970 and fit into 64 bits. -/
theorem versioned_commands_read_back (p : WKProto) (cmdType : CMDType) (c : ChannelInfo) (version : CmdVersion) (d : Device)
    (hc : p.holds c.channel.id ∧ p.holds c.webhook) (hd : p.holds d.uid ∧ p.holds d.token) :
    ((logged p { cmdType, data := encodeChannelInfo p c version, version }).bind (decodeChannelInfo p) =
        some (c.carriedBy version) ↔
      version ≠ 0 ∧ InstantFits c.createdAt ∧ InstantFits c.updatedAt) ∧
    ((logged p { cmdType, data := encodeCMDDevice p d }).bind (decodeCMDDevice p) = some d.carried ∧
        (logged p { cmdType, data := putDevice p d ++ p.putUint64 d.tokenVersion }).bind (decodeCMDDevice p) =
          some d.carried ∧
        (logged p { cmdType, data := putDevice p d }).bind (decodeCMDDevice p) =
          some { d.carried with tokenVersion := 0 } ↔
      InstantFits d.createdAt ∧ InstantFits d.updatedAt) := by
  refine ⟨?_, ?_⟩
  · rw [decodeChannelInfo_logged cmdType hc.1 hc.2]
    split
    · next h => exact iff_of_false nofun fun hne => hne.1 h
    · next h => rw [Option.some.injEq, carriedBy_eq_iff, and_iff_right h]
  · rw [logged_eq, logged_eq, logged_eq, bind_some, bind_some, bind_some,
      decodeCMDDevice_encoded hd.1 hd.2 rfl, decodeCMDDevice_with hd.1 hd.2 rfl, decodeCMDDevice_without hd.1 hd.2 rfl,
      Option.some.injEq, Option.some.injEq]
    have hversion : d.received d.tokenVersion = d.carried ↔ _ := received_eq_iff
    rw [hversion, received_eq_iff, and_self, and_self]

private def noticeBoard : ChannelInfo where
  channel := ⟨[103], 2⟩
  webhook := [119]
  sendBan := true
  createdAt := some 1700000000000000000

private def tablet : Device where
  uid := [117]
  token := [116]
  tokenVersion := 42

theorem versioned_commands_read_back_notice :
    (logged .twoByte { cmdType := 5, data := encodeChannelInfo .twoByte noticeBoard 2, version := 2 }).bind
        (decodeChannelInfo .twoByte) = some (noticeBoard.carriedBy 2) ∧
      (logged .twoByte { cmdType := 5, data := encodeCMDDevice .twoByte tablet }).bind (decodeCMDDevice .twoByte) =
        some tablet.carried := by
  have h := versioned_commands_read_back .twoByte 5 noticeBoard 2 tablet (by decide) (by decide)
  have hnone : InstantFits none := nofun
  have hsome : InstantFits (some 1700000000000000000) := by simp [InstantFits]
  exact ⟨h.1.mpr ⟨by decide, hsome, hnone⟩, (h.2.mpr ⟨hnone, hnone⟩).1⟩

/-- Written with version zero, the information of a channel cannot be read. -/
theorem versioned_commands_read_back_fails :
    ¬∀ (c : ChannelInfo) (version : CmdVersion), WKProto.twoByte.holds c.channel.id → WKProto.twoByte.holds c.webhook →
      (logged .twoByte { cmdType := 5, data := encodeChannelInfo .twoByte c version, version }).bind
        (decodeChannelInfo .twoByte) =
        some (c.carriedBy version) := by
  intro h
  have hdecoded := h noticeBoard 0 (by decide) (by decide)
  exact absurd hdecoded (by decide +kernel)

end WuKongIM.Commands

import WuKongIM.Channels.ChannelIds
import WuKongIM.WKDB.ChannelTables

/-! The permission step for a message from packages service and channel, and what it answers for a
channel and for its command channel. -/
namespace WuKongIM.Channels
open WKDB List

inductive ReasonCode
  | success | systemError | ban | disband | inBlacklist | subscriberNotExist | notInWhitelist
  | other (code : UInt8)
  deriving DecidableEq

/-- The answer of another node. -/
inductive AllowSendResp
  | ok
  | error
  | status (reason : ReasonCode)

structure SenderInfo where
  uid : Bytes
  trustedInternal : Bool := false

/-- What the step reads: the options, the accounts of the system, the nodes and the store. A read
that fails has no answer. -/
structure PermissionService where
  cmdSuffix : Bytes
  whitelistOffOfPerson : Bool
  isSystemAccount : Bytes → Bool
  isLocalNode : UInt64 → Bool
  slotLeaderOfChannel : Bytes → Option UInt64
  requestAllowSendForPerson : UInt64 → Bytes → Bytes → Option AllowSendResp
  getChannel : Bytes → ChannelType → Option ChannelBase
  existDenylist : Bytes → ChannelType → Bytes → Option Bool
  existSubscriber : Bytes → ChannelType → Bytes → Option Bool
  hasAllowlist : Bytes → ChannelType → Option Bool
  existAllowlist : Bytes → ChannelType → Bytes → Option Bool

def isPublicChannelType : ChannelType → Bool
  | .info | .customerService | .visitors | .agent => true
  | .person | .other _ => false

namespace PermissionService
variable (s : PermissionService) (channelId : Bytes) (channelType : ChannelType) (fromUid : Bytes)

def isCmdChannel : Bool := s.cmdSuffix.isSuffixOf channelId

def orginalConvertCmdChannel : Bytes := if s.isCmdChannel channelId then channelId else channelId ++ s.cmdSuffix

def cmdChannelConvertOrginalChannel : Bytes :=
  if s.isCmdChannel channelId then channelId.take (channelId.length - s.cmdSuffix.length) else channelId

def hasPermissionForChannel : Option ReasonCode :=
  if isPublicChannelType channelType then some .success
  else do
    let channelInfo ← s.getChannel channelId channelType
    return if channelInfo.ban then .ban else if channelInfo.disband then .disband else .success

def allowSend (toUid : Bytes) : Option ReasonCode := do
  if ← s.existDenylist toUid .person fromUid then return .inBlacklist
  if !s.whitelistOffOfPerson then
    if !(← s.existAllowlist toUid .person fromUid) then return .notInWhitelist
  return .success

def requestAllowSend (toUid : Bytes) : Option ReasonCode := do
  let leaderNode ← s.slotLeaderOfChannel toUid
  if s.isLocalNode leaderNode then s.allowSend fromUid toUid
  else
    match ← s.requestAllowSendForPerson leaderNode fromUid toUid with
    | .ok => some .success
    | .error => none
    | .status reason => some reason

def hasPermissionForPerson : Option ReasonCode :=
  let (uid1, uid2) := getFromUIDAndToUIDWith (s.cmdChannelConvertOrginalChannel channelId)
  let toUid := if uid1 = fromUid then uid2 else uid1
  if s.isSystemAccount toUid then some .success else s.requestAllowSend fromUid toUid

def hasPermissionForCommChannel : Option ReasonCode := do
  let realFakeChannelId := s.cmdChannelConvertOrginalChannel channelId
  if ← s.existDenylist realFakeChannelId channelType fromUid then return .inBlacklist
  if !(← s.existSubscriber realFakeChannelId channelType fromUid) then return .subscriberNotExist
  if channelType ≠ .person then
    if ← s.hasAllowlist realFakeChannelId channelType then
      if !(← s.existAllowlist realFakeChannelId channelType fromUid) then return .notInWhitelist
  return .success

/-- The users of a channel of an agent and the visitor of a channel of visitors. -/
def exempt : Bool :=
  match channelType with
  | .agent => fromUid = (getUidAndAgentUIDWith channelId).1 ∨ fromUid = (getUidAndAgentUIDWith channelId).2
  | .visitors => fromUid = channelId
  | _ => false

def hasPermissionForSender (sender : SenderInfo) : Option ReasonCode :=
  if channelType = .info then some .success
  else if channelType = .customerService then some .success
  else if exempt channelId channelType sender.uid then some .success
  else if sender.trustedInternal then some .success
  else if s.isSystemAccount sender.uid then some .success
  else if channelType = .person then s.hasPermissionForPerson channelId sender.uid
  else s.hasPermissionForCommChannel channelId channelType sender.uid

/-- The step for one event. A failed check is told as an error of the system. -/
def permission (sender : SenderInfo) : ReasonCode :=
  let reasonCode := (s.hasPermissionForChannel channelId channelType).getD .systemError
  if reasonCode ≠ .success then reasonCode
  else (s.hasPermissionForSender channelId channelType sender).getD .systemError

variable {s channelId}

private theorem isCmdChannel_append : s.isCmdChannel (channelId ++ s.cmdSuffix) :=
  isSuffixOf_iff_suffix.mpr (suffix_append channelId s.cmdSuffix)

private theorem convert_append : s.cmdChannelConvertOrginalChannel (channelId ++ s.cmdSuffix) = channelId := by
  rw [cmdChannelConvertOrginalChannel, if_pos isCmdChannel_append, length_append, Nat.add_sub_cancel, take_left]

/-- Both checks of the members begin with the original channel. -/
theorem convert_convert : s.cmdChannelConvertOrginalChannel (s.orginalConvertCmdChannel channelId) =
    s.cmdChannelConvertOrginalChannel channelId := by
  rw [orginalConvertCmdChannel]
  split
  · rfl
  · rw [convert_append, cmdChannelConvertOrginalChannel, if_neg ‹_›]

variable (s channelId)

/-- The reason for a sender whom the type of the channel does not exempt. -/
def ordinary : ReasonCode :=
  (if channelType = .info ∨ channelType = .customerService ∨ s.isSystemAccount fromUid then some .success
  else if channelType = .person then s.hasPermissionForPerson channelId fromUid
  else s.hasPermissionForCommChannel channelId channelType fromUid).getD .systemError

private theorem ordinary_convert : s.ordinary (s.orginalConvertCmdChannel channelId) channelType fromUid =
    s.ordinary channelId channelType fromUid := by
  simp only [ordinary, hasPermissionForPerson, hasPermissionForCommChannel, convert_convert]

private theorem hasPermissionForSender_eq : (s.hasPermissionForSender channelId channelType ⟨fromUid, false⟩).getD .systemError =
    if exempt channelId channelType fromUid then .success else s.ordinary channelId channelType fromUid := by
  by_cases h : exempt channelId channelType fromUid
  · simp [hasPermissionForSender, h]
  · simp [hasPermissionForSender, ordinary, h, ite_or]

/-- What the flags of a channel tell every sender; those of a public channel are not read. -/
def channelReason : ReasonCode :=
  if isPublicChannelType channelType then .success
  else match s.getChannel channelId channelType with
    | none => .systemError
    | some info => if info.ban then .ban else if info.disband then .disband else .success

private theorem hasPermissionForChannel_eq : (s.hasPermissionForChannel channelId channelType).getD .systemError =
    s.channelReason channelId channelType := by
  rw [hasPermissionForChannel, channelReason]
  split
  · rfl
  · cases s.getChannel channelId channelType <;> rfl

private theorem permission_eq : s.permission channelId channelType ⟨fromUid, false⟩ =
    if s.channelReason channelId channelType ≠ .success then s.channelReason channelId channelType
    else if exempt channelId channelType fromUid then .success else s.ordinary channelId channelType fromUid := by
  rw [permission, hasPermissionForSender_eq, hasPermissionForChannel_eq]

/-- A command channel is answered like its channel exactly if the flags of the channel itself, for
which the identifier is not converted, tell the same, and the sender is exempt in both or needs it
in neither. -/
theorem command_channel_permission :
    s.permission (s.orginalConvertCmdChannel channelId) channelType ⟨fromUid, false⟩ =
      s.permission channelId channelType ⟨fromUid, false⟩ ↔
    (s.channelReason (s.orginalConvertCmdChannel channelId) channelType = s.channelReason channelId channelType ∨
      s.channelReason (s.orginalConvertCmdChannel channelId) channelType = .success ∧
        s.ordinary channelId channelType fromUid = s.channelReason channelId channelType ∨
      s.channelReason channelId channelType = .success ∧
        s.ordinary channelId channelType fromUid = s.channelReason (s.orginalConvertCmdChannel channelId) channelType) ∧
    (exempt (s.orginalConvertCmdChannel channelId) channelType fromUid = exempt channelId channelType fromUid ∨
      s.ordinary channelId channelType fromUid = .success) := by
  rw [permission_eq, permission_eq, ordinary_convert]
  cases hpublic : isPublicChannelType channelType with
  | true =>
    have hreason (id : Bytes) : s.channelReason id channelType = .success := by
      simp [channelReason, hpublic]
    grind
  | false =>
    have hexempt (id : Bytes) : exempt id channelType fromUid = false := by
      cases channelType <;> first | rfl | cases hpublic
    grind

/-- A subscriber of the banned group `g`, with a command channel of its own name. -/
private def bannedGroup : PermissionService where
  cmdSuffix := [95, 95, 95, 95, 99, 109, 100]
  whitelistOffOfPerson := true
  isSystemAccount _ := false
  isLocalNode _ := true
  slotLeaderOfChannel _ := some 1
  requestAllowSendForPerson _ _ _ := none
  getChannel id _ := some ⟨⟨id, 2⟩, id = [103], false, false, false, false⟩
  existDenylist _ _ _ := some false
  existSubscriber id _ _ := some (id = [103])
  hasAllowlist _ _ := some false
  existAllowlist _ _ _ := some false

theorem command_channel_permission_fails : ∃ s id channelType uid,
    permission s id channelType ⟨uid, false⟩ = .ban ∧
    s.permission (s.orginalConvertCmdChannel id) channelType ⟨uid, false⟩ = .success :=
  ⟨bannedGroup, [103], .other 2, [117], by decide, by decide⟩

end PermissionService
end WuKongIM.Channels

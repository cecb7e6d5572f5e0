import WuKongIM.API.EventSync
import WuKongIM.Lib.Joined
import WuKongIM.Store.ConversationSlots

/-! The identifiers of channels from package options: a personal channel is named by its two users,
in the order of their checksums. -/
namespace WuKongIM.Channels
open WKDB API Lib List

/-- The types that the handlers tell apart. -/
inductive ChannelType
  | person
  | info
  | customerService
  | visitors
  | agent
  | other (code : UInt8)
  deriving DecidableEq

abbrev hashCrc32 : Bytes → UInt32 := Cluster.checksumIEEE

def getFromUIDAndToUIDWith (channelId : Bytes) : Bytes × Bytes :=
  match channelId.splitOn 64 with
  | [fromUID, toUID] => (fromUID, toUID)
  | _ => ([], [])

def getUidAndAgentUIDWith : Bytes → Bytes × Bytes := getFromUIDAndToUIDWith

def getAgentChannelIDWith (uid agentUID : Bytes) : Bytes := uid ++ [64] ++ agentUID

/-- An at sign, a hash or an ampersand. -/
def isSpecialChar (s : Bytes) : Bool := s.contains 64 || s.contains 35 || s.contains 38

/-- The channel of a packet that `uid` has sent to `channelID`. -/
def resolveSendChannelID (channelID : Bytes) (channelType : ChannelType) (uid : Bytes) : Option Bytes :=
  if channelID.contains 38 then none
  else
    let resolvedChannelID :=
      match channelType with
      | .person => getFakeChannelIDWith hashCrc32 channelID uid
      | .agent => getAgentChannelIDWith uid channelID
      | _ => channelID
    if resolvedChannelID.contains 38 then none else some resolvedChannelID

variable {a b c d : Bytes}

theorem not_mem_of_not_special (h : isSpecialChar a = false) : 64 ∉ a ∧ 38 ∉ a := by
  obtain ⟨h, hamp⟩ := Bool.or_eq_false_iff.mp h
  exact ⟨by simpa using (Bool.or_eq_false_iff.mp h).1, by simpa using hamp⟩

theorem fakeID_cases (a b : Bytes) : getFakeChannelIDWith hashCrc32 a b = a ++ 64 :: b ∨
    getFakeChannelIDWith hashCrc32 a b = b ++ 64 :: a := by
  unfold getFakeChannelIDWith
  split
  · exact .inl (append_assoc a [64] b)
  · exact .inr (append_assoc b [64] a)

theorem fromTo_join (ha : 64 ∉ a) (hb : 64 ∉ b) : getFromUIDAndToUIDWith (a ++ 64 :: b) = (a, b) := by
  rw [getFromUIDAndToUIDWith, splitOn_append_cons_self_of_not_mem ha, splitOn_eq_singleton hb]

/-- Users with different checksums stand in one order, whoever comes first; of users with the same
checksum the first one comes last. -/
theorem fakeID_comm (ha : 64 ∉ a) (hb : 64 ∉ b) :
    getFakeChannelIDWith hashCrc32 a b = getFakeChannelIDWith hashCrc32 b a ↔ (hashCrc32 a = hashCrc32 b → a = b) := by
  unfold getFakeChannelIDWith
  by_cases h : hashCrc32 a = hashCrc32 b
  · rw [h, if_neg (UInt32.lt_irrefl _), if_neg (UInt32.lt_irrefl _), append_assoc, append_assoc]
    exact ⟨fun he _ => (joined_inj hb ha he).1.symm, fun hab => by rw [hab rfl]⟩
  · refine iff_of_true ?_ fun he => absurd he h
    rcases UInt32.lt_or_lt_of_ne h with h | h
    · rw [if_neg (UInt32.lt_asymm h), if_pos h]
    · rw [if_pos h, if_neg (UInt32.lt_asymm h)]

theorem resolve_person (ha : 38 ∉ a) (hb : 38 ∉ b) :
    resolveSendChannelID a .person b = some (getFakeChannelIDWith hashCrc32 a b) := by
  have hfake : 38 ∉ getFakeChannelIDWith hashCrc32 a b := by
    rcases fakeID_cases a b with h | h <;> simp [h, ha, hb]
  simp [resolveSendChannelID, ha, hfake]

/-- The channel of two users tells who they are, and it is one channel for both directions exactly
if their checksums tell them apart. -/
theorem personal_channel (ha : isSpecialChar a = false) (hb : isSpecialChar b = false)
    (hc : isSpecialChar c = false) (hd : isSpecialChar d = false) :
    (getFakeChannelIDWith hashCrc32 a b = getFakeChannelIDWith hashCrc32 b a ↔ (hashCrc32 a = hashCrc32 b → a = b)) ∧
    (getFakeChannelIDWith hashCrc32 a b = getFakeChannelIDWith hashCrc32 c d → ({a, b} : Set Bytes) = {c, d}) ∧
    (getFromUIDAndToUIDWith (getFakeChannelIDWith hashCrc32 a b) = (a, b) ∨
      getFromUIDAndToUIDWith (getFakeChannelIDWith hashCrc32 a b) = (b, a)) ∧
    (resolveSendChannelID b .person a = resolveSendChannelID a .person b ↔ (hashCrc32 a = hashCrc32 b → a = b)) := by
  obtain ⟨ha, ha'⟩ := not_mem_of_not_special ha
  obtain ⟨hb, hb'⟩ := not_mem_of_not_special hb
  have hc := (not_mem_of_not_special hc).1
  have hd := (not_mem_of_not_special hd).1
  refine ⟨fakeID_comm ha hb, fun h => Set.pair_eq_pair_iff.mpr ?_, ?_, ?_⟩
  · rcases fakeID_cases a b with hab | hab <;> rcases fakeID_cases c d with hcd | hcd <;>
      rw [hab, hcd] at h
    · exact .inl (joined_inj ha hc h)
    · exact .inr (joined_inj ha hd h)
    · exact .inr (joined_inj hb hc h).symm
    · exact .inl (joined_inj hb hd h).symm
  · rcases fakeID_cases a b with h | h <;> rw [h]
    · exact .inl (fromTo_join ha hb)
    · exact .inr (fromTo_join hb ha)
  · rw [resolve_person hb' ha', resolve_person ha' hb', Option.some_inj, eq_comm]
    exact fakeID_comm ha hb

theorem personal_channel_letters : getFakeChannelIDWith hashCrc32 [97] [98] = getFakeChannelIDWith hashCrc32 [98] [97] :=
  (personal_channel (c := [97]) (d := [98]) (by decide) (by decide) (by decide) (by decide)).1.mpr (by decide +kernel)

/-- `h79ic` and `txehw` have one checksum, and two channels. -/
theorem personal_channel_fails : ∃ a b, isSpecialChar a = false ∧ isSpecialChar b = false ∧
    resolveSendChannelID b .person a ≠ resolveSendChannelID a .person b :=
  ⟨[104, 55, 57, 105, 99], [116, 120, 101, 104, 119], by decide, by decide, by decide +kernel⟩

end WuKongIM.Channels

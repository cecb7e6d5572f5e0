import WuKongIM.Store.ConversationCommands

/-! The slots to which the store proposes the commands that change conversations. -/
namespace WuKongIM.Cluster
open WKDB List

/-- CRC-32 with the polynomial of IEEE 802.3. -/
def checksumIEEE (v : Bytes) : UInt32 :=
  let shift (crc : UInt32) : UInt32 := if crc &&& 1 = 1 then (crc >>> 1) ^^^ 0xedb88320 else crc >>> 1
  v.foldl (fun crc byte => Nat.repeat shift 8 (crc ^^^ byte.toUInt32)) 0xffffffff ^^^ 0xffffffff

example : checksumIEEE [49, 50, 51, 52, 53, 54, 55, 56, 57] = 0xcbf43926 := by decide +kernel

def getSlotNum (slotCount : UInt32) (v : Bytes) : UInt32 := checksumIEEE v % slotCount

structure SlotServer where
  nodeSlotCount : UInt32
  slotCount : UInt32
  pos : slotCount ≠ 0

def SlotServer.getSlotId (s : SlotServer) (v : Bytes) : UInt32 :=
  getSlotNum (if s.nodeSlotCount = 0 then s.slotCount else s.nodeSlotCount) v

def channelTypePerson : UInt8 := 1

structure Proposal where
  slotId : UInt32
  cmd : ConversationCMD

inductive Operation
  | addOrUpdateConversations (conversations : List Conversation)
  | addOrUpdateUserConversations (uid : Bytes) (conversations : List Conversation)
  | addConversationsIfNotExist (conversations : List Conversation)
  | updateConversationDeletedAtMsgSeq (uid : Bytes) (channel : Channel) (deletedAtMsgSeq : UInt64)
  | deleteConversation (uid : Bytes) (channel : Channel)
  | deleteConversations (uid : Bytes) (channels : List Channel)
  | updateConversationIfSeqGreaterAsync (uid : Bytes) (channel : Channel) (readToMsgSeq : UInt64)

structure Store where
  slot : SlotServer
  shardNum : Nat
  wdb : ConversationDB
  nextPrimaryKey : Nat → UInt64

namespace Store
variable (s : Store)

def slotConversations (conversations : List Conversation) : List (UInt32 × List Conversation) :=
  (conversations.map fun c => s.slot.getSlotId c.uid).dedup.map fun slotId =>
    (slotId, conversations.filter fun c => s.slot.getSlotId c.uid = slotId)

/-- A conversation without a user cannot be encoded, and then nothing is proposed. -/
def propose (slotId : UInt32) (conversations : List Conversation) (cmd : ConversationCMD) : List Proposal :=
  if conversations.any fun c => c.uid = [] then [] else [⟨slotId, cmd⟩]

def addOrUpdateConversations (conversations : List Conversation) : List Proposal :=
  (s.slotConversations conversations).flatMap fun g => propose g.1 g.2 (.addOrUpdateConversations g.2)

def withIds (conversations : List Conversation) : List Conversation :=
  conversations.zipIdx.map fun (c, i) => if c.id = 0 then { c with id := s.nextPrimaryKey i } else c

def addOrUpdateUserConversations (uid : Bytes) (conversations : List Conversation) : List Proposal :=
  if conversations = [] then [] else
    let conversations := s.withIds conversations
    propose (s.slot.getSlotId uid) conversations (.addOrUpdateUserConversations uid conversations)

/-- The look-up of a conversation without a user panics. -/
def addConversationsIfNotExist (conversations : List Conversation) : List Proposal :=
  if conversations.any fun c => c.uid = [] then [] else
    let missing := conversations.filter fun c => !(s.wdb (userKey s.shardNum c.uid)).existConversation c.channel
    (s.slotConversations (s.withIds missing)).flatMap fun g =>
      propose g.1 g.2 (.addOrUpdateConversationsBatchIfNotExist g.2)

def updateConversationDeletedAtMsgSeq (uid : Bytes) (c : Channel) (deletedAtMsgSeq : UInt64) : List Proposal :=
  [⟨s.slot.getSlotId uid, .updateConversationDeletedAtMsgSeq uid c deletedAtMsgSeq⟩]

def deleteConversation (uid : Bytes) (c : Channel) : List Proposal :=
  [⟨s.slot.getSlotId uid, .deleteConversation uid c⟩]

def deleteConversations (uid : Bytes) (channels : List Channel) : List Proposal :=
  [⟨s.slot.getSlotId uid, .deleteConversations uid channels⟩]

/-- The slot is the user's for a personal channel and the channel's for any other. -/
def updateConversationIfSeqGreaterAsync (uid : Bytes) (c : Channel) (readToMsgSeq : UInt64) : List Proposal :=
  let slotId := if c.type = channelTypePerson then s.slot.getSlotId uid else s.slot.getSlotId c.id
  [⟨slotId, .updateConversationIfSeqGreater uid c readToMsgSeq⟩]

def proposals : Operation → List Proposal
  | .addOrUpdateConversations conversations => s.addOrUpdateConversations conversations
  | .addOrUpdateUserConversations uid conversations => s.addOrUpdateUserConversations uid conversations
  | .addConversationsIfNotExist conversations => s.addConversationsIfNotExist conversations
  | .updateConversationDeletedAtMsgSeq uid c seq => s.updateConversationDeletedAtMsgSeq uid c seq
  | .deleteConversation uid c => s.deleteConversation uid c
  | .deleteConversations uid channels => s.deleteConversations uid channels
  | .updateConversationIfSeqGreaterAsync uid c seq => s.updateConversationIfSeqGreaterAsync uid c seq

end Store

/-- A user whose conversations a proposed command changes owns the slot that it is proposed to. -/
def Proposal.Owned (slot : SlotServer) (p : Proposal) : Prop := ∀ u ∈ p.cmd.users, p.slotId = slot.getSlotId u

/-- Every string that decides a slot falls into the slot of the user. -/
def SlotServer.SameSlot (slot : SlotServer) : Operation → Prop
  | .addOrUpdateUserConversations uid conversations =>
    (∃ c ∈ conversations, c.uid = []) ∨ ∀ c ∈ conversations, slot.getSlotId c.uid = slot.getSlotId uid
  | .updateConversationIfSeqGreaterAsync uid c _ =>
    c.type = channelTypePerson ∨ slot.getSlotId c.id = slot.getSlotId uid
  | _ => True

namespace Store
variable {s : Store}

variable {conversations : List Conversation} {cmd : ConversationCMD} {slotId : UInt32}

theorem mem_propose {p : Proposal} : p ∈ propose slotId conversations cmd ↔
    (∀ c ∈ conversations, c.uid ≠ []) ∧ p = ⟨slotId, cmd⟩ := by
  rw [propose]
  split
  · rename_i h
    obtain ⟨c, hc, hu⟩ := any_eq_true.mp h
    exact ⟨nofun, fun h => absurd (of_decide_eq_true hu) (h.1 c hc)⟩
  · rename_i h
    have hne : ∀ c ∈ conversations, c.uid ≠ [] := fun c hc hu => h (any_eq_true.mpr ⟨c, hc, decide_eq_true hu⟩)
    rw [mem_singleton]
    exact ⟨fun h => ⟨hne, h⟩, And.right⟩

theorem uid_of_mem_group {g : UInt32 × List Conversation}
    (hg : g ∈ s.slotConversations conversations) {c : Conversation} (hc : c ∈ g.2) : g.1 = s.slot.getSlotId c.uid := by
  obtain ⟨slotId, -, rfl⟩ := mem_map.mp hg
  exact (of_decide_eq_true (mem_filter.mp hc).2).symm

theorem owned_groups {cmd : List Conversation → ConversationCMD} (hcmd : ∀ l, (cmd l).users = l.map (·.uid)) :
    ∀ p ∈ (s.slotConversations conversations).flatMap fun g => propose g.1 g.2 (cmd g.2), p.Owned s.slot := by
  intro p hp u hu
  obtain ⟨g, hg, hp⟩ := mem_flatMap.mp hp
  obtain ⟨-, rfl⟩ := mem_propose.mp hp
  rw [hcmd] at hu
  obtain ⟨c, hc, rfl⟩ := mem_map.mp hu
  exact uid_of_mem_group hg hc

theorem uids_withIds (conversations : List Conversation) :
    (s.withIds conversations).map (·.uid) = conversations.map (·.uid) := by
  have h (e : Conversation × Nat) :
      (if e.1.id = 0 then { e.1 with id := s.nextPrimaryKey e.2 } else e.1).uid = e.1.uid := by
    split <;> rfl
  calc (s.withIds conversations).map (·.uid) = conversations.zipIdx.map fun e => e.1.uid := by
        rw [withIds, map_map]
        exact map_congr_left fun e _ => h e
    _ = (conversations.zipIdx.map Prod.fst).map (·.uid) := map_map.symm
    _ = conversations.map (·.uid) := by rw [zipIdx_map_fst]

theorem forall_withIds {p : Bytes → Prop} : (∀ c ∈ s.withIds conversations, p c.uid) ↔ ∀ c ∈ conversations, p c.uid := by
  have h (l : List Conversation) : (∀ c ∈ l, p c.uid) ↔ ∀ u ∈ l.map (·.uid), p u := forall_mem_map.symm
  rw [h, h, uids_withIds]

/-- All items of the user's list go to the user's slot, so they have to fall into it themselves. -/
theorem owned_userConversations (uid : Bytes) (conversations : List Conversation) :
    (∀ p ∈ s.addOrUpdateUserConversations uid conversations, p.Owned s.slot) ↔
      s.slot.SameSlot (.addOrUpdateUserConversations uid conversations) := by
  rw [addOrUpdateUserConversations]
  split
  · rename_i h
    subst h
    exact ⟨fun _ => .inr nofun, nofun⟩
  have hslots : _ ↔ ∀ c ∈ conversations, _ :=
    forall_withIds (s := s) (p := fun u => s.slot.getSlotId u = s.slot.getSlotId uid)
  simp only [mem_propose, forall_withIds (p := fun u => u ≠ [])]
  constructor
  · intro h
    by_cases hu : ∃ c ∈ conversations, c.uid = []
    · exact .inl hu
    · refine .inr (hslots.mp fun c hc => ?_)
      have hown := h _ ⟨fun c hc hn => hu ⟨c, hc, hn⟩, rfl⟩
      exact (hown c.uid (mem_cons_of_mem uid (mem_map.mpr ⟨c, hc, rfl⟩))).symm
  · rintro h p ⟨hne, rfl⟩ u hu
    rcases h with ⟨c, hc, hn⟩ | h
    · exact absurd hn (hne c hc)
    rcases mem_cons.mp hu with rfl | hu
    · rfl
    · obtain ⟨c, hc, rfl⟩ := mem_map.mp hu
      exact (hslots.mpr h c hc).symm

theorem owned_single {uid : Bytes} (h : cmd.users = [uid]) :
    (∀ p ∈ [(⟨slotId, cmd⟩ : Proposal)], p.Owned s.slot) ↔ slotId = s.slot.getSlotId uid := by
  simp only [mem_singleton, forall_eq, Proposal.Owned, h]

/-- An operation proposes each command to the slot of every user whose conversations the command
changes exactly when the strings that it takes slots from fall into the same slot. -/
theorem owned_iff_sameSlot (s : Store) (op : Operation) :
    (∀ p ∈ s.proposals op, p.Owned s.slot) ↔ s.slot.SameSlot op := by
  cases op with
  | addOrUpdateConversations conversations => exact iff_true_intro (owned_groups fun _ => rfl)
  | addOrUpdateUserConversations uid conversations => exact owned_userConversations uid conversations
  | addConversationsIfNotExist conversations =>
    refine iff_true_intro ?_
    rw [proposals, addConversationsIfNotExist]
    split
    · exact nofun
    · exact owned_groups fun _ => rfl
  | updateConversationDeletedAtMsgSeq uid c seq | deleteConversation uid c | deleteConversations uid channels =>
    exact iff_true_intro ((owned_single rfl).mpr rfl)
  | updateConversationIfSeqGreaterAsync uid c seq =>
    refine (owned_single rfl).trans ?_
    split
    · rename_i h
      exact iff_of_true rfl (.inl h)
    · rename_i h
      exact (or_iff_right h).symm

end Store

private def reader : Store := ⟨⟨64, 64, by decide⟩, 8, fun _ => {}, fun i => UInt64.ofNat (i + 1)⟩

/-- The read position of user `u` in the group `g` is proposed to the slot of `g`, while the
deletion of the same conversation goes to the slot of `u`. -/
theorem owned_fails :
    (reader.proposals (.updateConversationIfSeqGreaterAsync [117] ⟨[103], 2⟩ 5)).map (·.slotId) = [54] ∧
      (reader.proposals (.deleteConversation [117] ⟨[103], 2⟩)).map (·.slotId) = [62] ∧
      ¬ ∀ p ∈ reader.proposals (.updateConversationIfSeqGreaterAsync [117] ⟨[103], 2⟩ 5), p.Owned reader.slot := by
  refine ⟨by decide +kernel, by decide +kernel, fun h => ?_⟩
  have := h _ mem_cons_self [117] mem_cons_self
  revert this
  decide +kernel

end WuKongIM.Cluster

import WuKongIM.Lib.Run
import WuKongIM.WKDB.Conversation

/-! The requests of package api that move the read position of a conversation, and how it is told in
the answers of the two requests that sync conversations. -/
namespace WuKongIM.API
open WKDB Lib List
open UInt64 (le_refl le_trans not_lt sub_le sub_self toNat_inj)

/-- A user's conversation with a channel, and who has sent the messages of the channel, which are
numbered from 1. -/
structure ReadState where
  uid : Bytes
  channel : Channel
  senders : List Bytes := []
  /-- The numbers of messages have 32 bits. -/
  bound : senders.length < 2 ^ 32 := by decide
  conversation : Option Conversation := none

namespace ReadState
variable (s : ReadState)

def lastMsgSeq : UInt64 := .ofNat s.senders.length

/-- The conversation, or a new one where there is none. -/
def getConversation : Conversation := s.conversation.getD { uid := s.uid, channel := s.channel }

def readTo : UInt64 := s.getConversation.readToMsgSeq

def raiseTo (readedMsgSeq : UInt64) : ReadState :=
  if s.readTo ≥ readedMsgSeq then s
  else { s with conversation := some { s.getConversation with readToMsgSeq := readedMsgSeq } }

def clearConversationUnread (lastMsgSeq : UInt64) : ReadState := s.raiseTo lastMsgSeq

def setConversationUnread (lastMsgSeq : UInt64) (unread : Int64) : ReadState :=
  s.raiseTo <|
    if unread.toUInt64 > lastMsgSeq then lastMsgSeq - 1
    else if unread > 0 then lastMsgSeq - unread.toUInt64
    else lastMsgSeq

/-- A request is handled by the node that leads the slot of the user. `stored` is the number of the
last message of the channel in the database of that node, which has the first messages of the
channel, or none. -/
inductive Action
  | clearUnread (stored : UInt64)
  | setUnread (stored : UInt64) (unread : Int64)
  | message (fromUID : Bytes)

def step : Action → Option ReadState
  | .clearUnread stored => if stored ≤ s.lastMsgSeq then some (s.clearConversationUnread stored) else none
  | .setUnread stored unread =>
    if stored ≤ s.lastMsgSeq then some (s.setConversationUnread stored unread) else none
  | .message fromUID => if h : s.senders.length + 1 < 2 ^ 32 then
      some { s with senders := s.senders ++ [fromUID], bound := by rwa [length_append] } else none

/-- The numbers that a request with `OrderByLast` finds, in ascending order. -/
def loadMsgsWithDb (endSeq limit : Nat) : List Nat :=
  let lastSeq := s.senders.length
  if endSeq > lastSeq then []
  else
    let minSeq :=
      if endSeq = 0 then if lastSeq < limit then 1 else lastSeq - limit + 1
      else if lastSeq - endSeq > limit then lastSeq - limit + 1 else endSeq + 1
    (range' minSeq (lastSeq + 1 - minSeq)).take limit

/-- The number of the user's own last message, or zero. -/
def userLastMsgSeq : UInt64 := .ofNat (s.senders.length - s.senders.reverse.findIdx (· = s.uid))

end ReadState

structure SyncUserConversationResp where
  unread : Int64
  lastMsgSeq : UInt32 := 0
  readedToMsgSeq : UInt32

def newSyncUserConversationResp (c : Conversation) : SyncUserConversationResp where
  unread := c.unreadCount.toUInt64.toInt64
  readedToMsgSeq := c.readToMsgSeq.toUInt32

/-- How both requests go on from the last message. One of them asks before the second change whether
the position is behind it. -/
def SyncUserConversationResp.fill (asks own : Bool) (lastMsg userLastMsgSeq : UInt64)
    (resp : SyncUserConversationResp) : SyncUserConversationResp :=
  let resp := { resp with lastMsgSeq := lastMsg.toUInt32 }
  let resp := if lastMsg > resp.readedToMsgSeq.toUInt64 then
    { resp with unread := (lastMsg - resp.readedToMsgSeq.toUInt64).toInt64 } else resp
  let resp := if userLastMsgSeq > resp.readedToMsgSeq.toUInt64 ∧ lastMsg - userLastMsgSeq < resp.unread.toUInt64 ∧
      (asks → lastMsg ≥ resp.readedToMsgSeq.toUInt64) then
    { resp with unread := (lastMsg - userLastMsgSeq).toInt64, readedToMsgSeq := userLastMsgSeq.toUInt32 } else resp
  if own then { resp with readedToMsgSeq := lastMsg.toUInt32, unread := 0 } else resp

namespace ReadState
variable (s : ReadState) (msgSeq msgCount : Nat)

/-- The answer for a conversation with recent messages, of which the last one is told first. -/
def resp (asks : Bool) (endSeq : Nat) : Option SyncUserConversationResp :=
  (s.loadMsgsWithDb endSeq msgCount).getLast?.map fun lastMsg =>
    (newSyncUserConversationResp s.getConversation).fill asks (s.senders[lastMsg - 1]? = some s.uid)
    (.ofNat lastMsg) s.userLastMsgSeq

def syncUserConversation : Option SyncUserConversationResp := s.resp msgCount true (msgSeq - 1)

def syncConversationByChannels : Option SyncUserConversationResp := s.resp msgCount false 0

/-- The node that is asked for unread messages has some. -/
def Action.Careful : Action → Prop
  | .setUnread stored unread => stored ≠ 0 ∨ unread = 0
  | _ => True

variable {s msgSeq msgCount} {stored : UInt64}

theorem lastMsgSeq_toNat : s.lastMsgSeq.toNat = s.senders.length :=
  UInt64.toNat_ofNat_of_lt' (lt_trans s.bound (by decide))

section
variable (h : s.readTo ≤ s.lastMsgSeq)
include h

theorem raiseTo_spec (r : UInt64) : s.readTo ≤ (s.raiseTo r).readTo ∧
    ((s.raiseTo r).readTo ≤ s.lastMsgSeq ↔ r ≤ s.lastMsgSeq) ∧ (s.raiseTo r).lastMsgSeq = s.lastMsgSeq := by
  unfold raiseTo
  split
  · exact ⟨le_refl _, iff_of_true h (le_trans ‹_› h), rfl⟩
  · exact ⟨UInt64.le_of_lt (UInt64.not_le.mp ‹_›), .rfl, rfl⟩

/-- From a position inside the channel. Without messages the number before the last one is the
largest of all. -/
theorem setConversationUnread_le_iff (hstored : stored ≤ s.lastMsgSeq) (unread : Int64) :
    (s.setConversationUnread stored unread).readTo ≤ s.lastMsgSeq ↔ stored ≠ 0 ∨ unread = 0 := by
  rw [setConversationUnread, (raiseTo_spec h _).2.1]
  by_cases hzero : stored = 0
  · subst hzero
    split
    · refine iff_of_false (fun hle => ?_) ?_
      · exact absurd (lastMsgSeq_toNat ▸ s.bound) (Nat.not_lt.mpr (le_trans (by decide) (UInt64.le_iff_toNat_le.mp hle)))
      · rintro (hne | rfl)
        · exact hne rfl
        · exact UInt64.lt_irrefl _ ‹_›
    · next hle =>
      have hzero : unread = 0 := by rw [← unread.toInt64_toUInt64, UInt64.le_zero_iff.mp (not_lt.mp hle)]; rfl
      subst hzero
      exact iff_of_true hstored (.inr rfl)
  · refine iff_of_true (le_trans ?_ hstored) (.inl hzero)
    split
    · exact sub_le (UInt64.pos_iff_ne_zero.mpr hzero)
    · split
      · exact sub_le (not_lt.mp ‹_›)
      · exact le_refl _

theorem step_readTo {a : Action} {t : ReadState} (hst : s.step a = some t) :
    s.readTo ≤ t.readTo ∧ (t.readTo ≤ s.lastMsgSeq ↔ a.Careful) ∧ s.lastMsgSeq ≤ t.lastMsgSeq := by
  cases a with
  | clearUnread stored =>
    obtain ⟨hstored, ⟨⟩⟩ := Option.ite_none_right_eq_some.mp hst
    obtain ⟨hle, hin, hlast⟩ := raiseTo_spec h stored
    exact ⟨hle, iff_of_true (hin.mpr hstored) trivial, hlast ▸ le_refl _⟩
  | setUnread stored unread =>
    obtain ⟨hstored, ⟨⟩⟩ := Option.ite_none_right_eq_some.mp hst
    obtain ⟨hle, -, hlast⟩ := raiseTo_spec h _
    exact ⟨hle, setConversationUnread_le_iff h hstored unread, hlast ▸ le_refl _⟩
  | message fromUID =>
    rw [step] at hst
    split at hst
    · cases hst
      refine ⟨le_refl _, iff_of_true h trivial, ?_⟩
      rw [UInt64.le_iff_toNat_le, lastMsgSeq_toNat, lastMsgSeq_toNat, length_append]
      exact Nat.le_add_right _ _
    · cases hst

end

theorem getLast?_loadMsgsWithDb {endSeq m : Nat}
    (h : (s.loadMsgsWithDb endSeq msgCount).getLast? = some m) : m = s.senders.length := by
  unfold loadMsgsWithDb at h
  dsimp only at h
  split at h
  · cases h
  generalize hmin : (if endSeq = 0 then _ else _ : Nat) = minSeq at h
  have hlength : s.senders.length + 1 - minSeq ≤ msgCount := by
    subst hmin
    split <;> split <;> omega
  rw [take_of_length_le (length_range' ▸ hlength), getLast?_range', Option.ite_none_left_eq_some] at h
  obtain ⟨hne, hm⟩ := h
  cases hm
  omega

theorem userLastMsgSeq_le : s.userLastMsgSeq ≤ s.lastMsgSeq := by
  have hle : s.senders.length - s.senders.reverse.findIdx (· = s.uid) ≤ s.senders.length := Nat.sub_le _ _
  rw [UInt64.le_iff_toNat_le, lastMsgSeq_toNat, userLastMsgSeq,
    UInt64.toNat_ofNat_of_lt' (lt_of_le_of_lt hle (lt_trans s.bound (by decide)))]
  exact hle

end ReadState

theorem toInt_toInt64 {x : UInt64} (h : x.toNat < 2 ^ 32) : x.toInt64.toInt = x.toNat := by
  rw [← Int64.toInt_toBitVec, BitVec.toInt_eq_toNat_of_lt]
  · rfl
  · exact Nat.mul_lt_mul_of_pos_left h (by decide) |>.trans (by decide)

theorem toUInt64_toUInt32 {x : UInt64} (h : x.toNat < 2 ^ 32) : x.toUInt32.toUInt64 = x := by
  rw [← toNat_inj, UInt32.toNat_toUInt64, UInt64.toNat_toUInt32, Nat.mod_eq_of_lt h]

namespace SyncUserConversationResp
variable {last : UInt64} {resp : SyncUserConversationResp}

/-- The answer tells the last message, a position that is not behind it, and how far it is. -/
structure Right (last : UInt64) (resp : SyncUserConversationResp) : Prop where
  told : resp.lastMsgSeq = last.toUInt32
  readed : resp.readedToMsgSeq.toUInt64 ≤ last
  unread : resp.unread = (last - resp.readedToMsgSeq.toUInt64).toInt64

theorem Right.unread_toInt (hlast : last.toNat < 2 ^ 32) (h : resp.Right last) :
    resp.lastMsgSeq.toNat = last.toNat ∧ resp.readedToMsgSeq ≤ resp.lastMsgSeq ∧
      resp.unread.toInt = resp.lastMsgSeq.toNat - resp.readedToMsgSeq.toNat := by
  have hl : resp.lastMsgSeq.toNat = last.toNat := by rw [h.told, UInt64.toNat_toUInt32, Nat.mod_eq_of_lt hlast]
  have hr : resp.readedToMsgSeq.toNat ≤ last.toNat := h.readed
  refine ⟨hl, ?_, ?_⟩
  · rw [UInt32.le_iff_toNat_le, hl]
    exact hr
  · have hsub : (last - resp.readedToMsgSeq.toUInt64).toNat = last.toNat - resp.readedToMsgSeq.toNat :=
      UInt64.toNat_sub_of_le _ _ h.readed
    rw [h.unread, toInt_toInt64 (by omega)]
    omega

theorem right_fill {asks own : Bool} {user : UInt64}
    (hlast : last.toNat < 2 ^ 32) (huser : user ≤ last)
    (hread : resp.readedToMsgSeq.toUInt64 ≤ last) (hunread : resp.unread = 0) :
    (resp.fill asks own last user).Right last := by
  have htold {x : UInt64} (hx : x ≤ last) : x.toUInt32.toUInt64 = x := toUInt64_toUInt32 (lt_of_le_of_lt hx hlast)
  unfold fill
  extract_lets resp1 resp2 resp3
  have h2 : resp2.Right last := by
    unfold resp2
    split
    · exact ⟨rfl, hread, rfl⟩
    rename_i hle
    have heq : last = resp.readedToMsgSeq.toUInt64 := UInt64.le_antisymm (not_lt.mp hle) hread
    refine ⟨rfl, hread, hunread.trans ?_⟩
    rw [← heq, sub_self]
    rfl
  have h3 : resp3.Right last := by
    unfold resp3
    split
    · exact ⟨h2.told, (htold huser).symm ▸ huser, by rw [htold huser]⟩
    · exact h2
  split
  · have hl := htold (le_refl last)
    exact ⟨h3.told, hl.symm ▸ le_refl last, by rw [hl, sub_self]; rfl⟩
  · exact h3

end SyncUserConversationResp

namespace ReadState
variable {s : ReadState} {msgSeq msgCount : Nat}

theorem readTo_le_of_reach (h : Reach (fun s => s.readTo ≤ s.lastMsgSeq) step (fun _ a => a.Careful) s) :
    s.readTo ≤ s.lastMsgSeq :=
  h.invariant (fun s => s.readTo ≤ s.lastMsgSeq) (fun _ h => h) fun _ _ _ h ha hst =>
    le_trans ((step_readTo h hst).2.1.mpr ha) (step_readTo h hst).2.2

theorem right_resp (h : s.readTo ≤ s.lastMsgSeq) (hunread : s.getConversation.unreadCount = 0) {asks : Bool} {endSeq : Nat}
    {r : SyncUserConversationResp} (hr : s.resp msgCount asks endSeq = some r) : r.Right s.lastMsgSeq := by
  obtain ⟨m, hm, rfl⟩ := Option.map_eq_some_iff.mp hr
  obtain rfl := getLast?_loadMsgsWithDb hm
  have hlast : s.lastMsgSeq.toNat < 2 ^ 32 := lastMsgSeq_toNat ▸ s.bound
  refine SyncUserConversationResp.right_fill hlast userLastMsgSeq_le ?_ ?_
  · exact (toUInt64_toUInt32 (lt_of_le_of_lt h hlast)).symm ▸ h
  · rw [newSyncUserConversationResp, hunread]
    rfl

private def unreadChannel : ReadState := ⟨[117], ⟨[103], 2⟩, [[118], [118]], by decide, none⟩

end ReadState
end WuKongIM.API

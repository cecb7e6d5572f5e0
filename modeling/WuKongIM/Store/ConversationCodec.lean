import WuKongIM.Lib.Entries
import WuKongIM.Store.CMD
import WuKongIM.Store.ConversationCommands

/-! The bytes of the commands that carry conversations, and the conversations that went through the
log. -/
namespace WuKongIM.Cluster
open Lib WKDB Raft.Wire

variable (p : WKProto)

/-- The position up to which the conversation was deleted is not written. -/
def putConversation (c : Conversation) : Bytes :=
  p.putUint64 c.id ++ (p.putString c.uid ++ (p.putUint8 c.type ++ (p.putString c.channel.id ++ (p.putUint8 c.channel.type ++
    (p.putUint32 c.unreadCount ++ (p.putUint64 c.readToMsgSeq ++ (putTime p c.createdAt ++ putTime p c.updatedAt)))))))

/-- `Conversation.Marshal`, which refuses a conversation without a user. -/
def marshalConversation (c : Conversation) : Option Bytes := if c.uid = [] then none else some (putConversation p c)

def conversation : Decoder Conversation := do
  let id ← p.uint64
  let uid ← p.string
  let type ← p.uint8
  let channelId ← p.string
  let channelType ← p.uint8
  let unreadCount ← p.uint32
  let readToMsgSeq ← p.uint64
  let createdAt ← time p
  let updatedAt ← time p
  return { id, uid, type, channel := ⟨channelId, channelType⟩, unreadCount, readToMsgSeq, createdAt, updatedAt }

/-- `Conversation.Unmarshal`: the user is checked at the end, and bytes that are left over are
ignored. -/
def unmarshalConversation (data : Bytes) : Option Conversation :=
  ((conversation p).run data).bind fun (c, _) => if c.uid = [] then none else some c

variable (cs : List Conversation)

/-- The loop that writes the conversations; it stops at the first one that is refused. -/
def putConversations : Option Bytes := do
  let data ← cs.mapM (marshalConversation p)
  return data.flatMap p.putBinary

def readConversation : Decoder Conversation := p.binary >>= fun data => StateT.lift (unmarshalConversation p data)

def encodeCMDAddOrUpdateConversations : Option Bytes := do
  let data ← putConversations p cs
  return p.putUint16 (UInt16.ofNat cs.length) ++ data

def decodeCMDAddOrUpdateConversations (c : RawCMD) : Option (List Conversation) :=
  ((p.uint16 >>= fun size => many (readConversation p) size.toNat).run c.data).map (·.1)

def encodeCMDAddOrUpdateUserConversations (uid : Bytes) (cs : List Conversation) : Option Bytes := do
  let data ← putConversations p cs
  return p.putString uid ++ (p.putUint32 (UInt32.ofNat cs.length) ++ data)

def userConversations : Decoder (Bytes × List Conversation) := do
  let uid ← p.string
  let count ← p.uint32
  let conversations ← many (readConversation p) count.toNat
  return (uid, conversations)

/-- A command without data is one without conversations. -/
def decodeCMDAddOrUpdateUserConversations (c : RawCMD) : Option (Bytes × List Conversation) :=
  if c.data = [] then some ([], []) else ((userConversations p).run c.data).map (·.1)

/-- The users stand in the order in which the map was walked through. -/
def putBatchModel (m : BatchUpdateConversationModel) : Bytes :=
  p.putUint16 (UInt16.ofNat m.uids.length) ++ (m.uids.flatMap (fun e => p.putString e.1 ++ p.putUint64 e.2) ++
    (p.putString m.channel.id ++ p.putUint8 m.channel.type))

def encodeCMDBatchUpdateConversation (models : List BatchUpdateConversationModel) : Bytes :=
  p.putUint32 (UInt32.ofNat models.length) ++ models.flatMap (putBatchModel p)

/-- The map that the loop over the users fills. -/
def BatchUpdateConversationModel.ofEntries (channel : Channel) (es : List (Bytes × UInt64)) :
    BatchUpdateConversationModel where
  channel := channel
  uids := setEntries [] es
  nodup := nodup_setEntries es List.nodup_nil

theorem BatchUpdateConversationModel.ofEntries_uids (m : BatchUpdateConversationModel) : ofEntries m.channel m.uids = m := by
  have huids : setEntries [] m.uids = m.uids := setEntries_of_nodup m.uids m.nodup
  rwa [ofEntries, mk.injEq, eq_self, true_and]

variable (p : WKProto)

def batchModel : Decoder BatchUpdateConversationModel := do
  let uidCount ← p.uint16
  let es ← many (do let uid ← p.string; let seq ← p.uint64; return (uid, seq)) uidCount.toNat
  let channelId ← p.string
  let channelType ← p.uint8
  return .ofEntries ⟨channelId, channelType⟩ es

def decodeCMDBatchUpdateConversation (c : RawCMD) : Option (List BatchUpdateConversationModel) :=
  ((p.uint32 >>= fun count => many (batchModel p) count.toNat).run c.data).map (·.1)

open List Option
open RawCMD (logged logged_eq)

def received (c : Conversation) : Conversation :=
  { c with deletedAtMsgSeq := 0, createdAt := timeKept c.createdAt, updatedAt := timeKept c.updatedAt }

structure Kept (c : Conversation) : Prop where
  deletedAtMsgSeq : c.deletedAtMsgSeq = 0
  createdAt : c.createdAt ≠ some 0
  updatedAt : c.updatedAt ≠ some 0

theorem received_eq_self {c : Conversation} : received c = c ↔ Kept c := by
  have hparts : received c = c ↔ c.deletedAtMsgSeq = 0 ∧ timeKept c.createdAt = c.createdAt ∧
      timeKept c.updatedAt = c.updatedAt := by
    cases c
    simp [received, eq_comm]
  rw [hparts, timeKept_eq_self, timeKept_eq_self]
  exact ⟨fun ⟨h1, h2, h3⟩ => ⟨h1, h2, h3⟩, fun ⟨h1, h2, h3⟩ => ⟨h1, h2, h3⟩⟩

variable {p : WKProto}

variable {c : Conversation} {cs : List Conversation} {data : Bytes}

structure Carried (p : WKProto) (c : Conversation) : Prop where
  uid : p.holds c.uid
  channelId : p.holds c.channel.id
  data : p.holds (putConversation p c)

theorem reads_conversation (h : Carried p c) : Reads (conversation p) (putConversation p c) (received c) :=
  (p.reads_uint64 c.id).bind <| (p.reads_string _ h.uid).bind <| (p.reads_uint8 c.type).bind <|
    (p.reads_string _ h.channelId).bind <| (p.reads_uint8 c.channel.type).bind <| (p.reads_uint32 c.unreadCount).bind <|
    (p.reads_uint64 c.readToMsgSeq).bind <| (reads_time p c.createdAt).bind <| (reads_time p c.updatedAt).result _

theorem unmarshal_putConversation (h : Carried p c) (huid : c.uid ≠ []) :
    unmarshalConversation p (putConversation p c) = some (received c) := by
  have hread := reads_conversation h []
  rw [append_nil] at hread
  rw [unmarshalConversation, hread]
  exact if_neg huid

theorem reads_readConversation (h : Carried p c) (huid : c.uid ≠ []) :
    Reads (readConversation p) (p.putBinary (putConversation p c)) (received c) :=
  (p.reads_binary _ h.data).lift (unmarshal_putConversation h huid)

theorem putConversations_eq (cs : List Conversation) : putConversations p cs =
      if ∃ c ∈ cs, c.uid = [] then none else some (cs.flatMap fun c => p.putBinary (putConversation p c)) := by
  induction cs with
  | nil => simp [putConversations]
  | cons c cs ih =>
    rw [putConversations] at ih ⊢
    by_cases huid : c.uid = []
    · simp [marshalConversation, huid]
    by_cases hrest : ∃ c ∈ cs, c.uid = []
    · rw [if_pos hrest] at ih
      have hnone : cs.mapM (marshalConversation p) = none :=
        eq_none_iff_forall_ne_some.mpr (by simpa using ih)
      simp [hnone, hrest]
    · rw [if_neg hrest] at ih
      obtain ⟨data, hdata, hbytes⟩ := bind_eq_some_iff.mp ih
      have hflat : data.flatMap p.putBinary = cs.flatMap fun c => p.putBinary (putConversation p c) := by simpa using hbytes
      simp [marshalConversation, huid, hdata, hflat, hrest]

theorem run_conversations (hcs : ∀ c ∈ cs, Carried p c) (huid : ¬∃ c ∈ cs, c.uid = []) {k : Nat} (hk : k ≤ cs.length) :
    (many (readConversation p) k).run (cs.flatMap fun c => p.putBinary (putConversation p c)) =
      some ((cs.take k).map received, (cs.drop k).flatMap fun c => p.putBinary (putConversation p c)) :=
  Reads.many_take hk fun c hc => reads_readConversation (hcs c hc) fun h => huid ⟨c, hc, h⟩

theorem map_received_take {n : Nat} : (cs.take (cs.length % n)).map received = cs ↔
    cs.length % n = cs.length ∧ ∀ c ∈ cs, Kept c := by
  constructor
  · intro h
    have hlen : cs.length % n = cs.length := by
      have hl := congrArg length h
      rw [length_map, length_take] at hl
      have := Nat.mod_le cs.length n
      omega
    rw [hlen, take_length] at h
    refine ⟨hlen, fun c hc => received_eq_self.mp ?_⟩
    have hid : cs.map received = cs.map id := h.trans (map_id cs).symm
    exact map_inj_left.mp hid c hc
  · rintro ⟨hlen, hkept⟩
    rw [hlen, take_length]
    calc cs.map received = cs.map id := map_congr_left fun c hc => received_eq_self.mpr (hkept c hc)
      _ = cs := map_id cs

def cmdAddOrUpdateUserConversations : CMDType := 20
def cmdBatchUpdateConversation : CMDType := 30
def cmdAddOrUpdateConversations : CMDType := 33

theorem decode_addOrUpdate (hcs : ∀ c ∈ cs, Carried p c) (huid : ¬∃ c ∈ cs, c.uid = [])
    (h : encodeCMDAddOrUpdateConversations p cs = some data) (cmdType : CMDType) :
    (logged p { cmdType, data }).bind (decodeCMDAddOrUpdateConversations p) = some
    ((cs.take (cs.length % 2 ^ 16)).map received) := by
  rw [encodeCMDAddOrUpdateConversations, putConversations_eq, if_neg huid] at h
  obtain rfl := some.inj h
  rw [logged_eq, bind_some, decodeCMDAddOrUpdateConversations]
  rw [StateT.run_bind, p.reads_uint16, bind_eq_bind, bind_some]
  rw [UInt16.toNat_ofNat', run_conversations hcs huid (Nat.mod_le _ _), map_some]

theorem decode_addOrUpdateUser {uid : Bytes} (hu : p.holds uid) (hcs : ∀ c ∈ cs, Carried p c)
    (huid : ¬∃ c ∈ cs, c.uid = []) (h : encodeCMDAddOrUpdateUserConversations p uid cs = some data)
    (cmdType : CMDType) : (logged p { cmdType, data }).bind (decodeCMDAddOrUpdateUserConversations p) =
      some (uid, (cs.take (cs.length % 2 ^ 32)).map received) := by
  rw [encodeCMDAddOrUpdateUserConversations, putConversations_eq, if_neg huid] at h
  obtain rfl := some.inj h
  have hcount : p.putUint32 (UInt32.ofNat cs.length) ≠ [] := by
    intro hnil
    have hlen := p.length_putUint32 (UInt32.ofNat cs.length)
    rw [hnil] at hlen
    cases hlen
  rw [logged_eq, bind_some, decodeCMDAddOrUpdateUserConversations, if_neg (by simp [hcount])]
  rw [userConversations, StateT.run_bind, p.reads_string _ hu, bind_eq_bind, bind_some]
  rw [StateT.run_bind, p.reads_uint32, bind_eq_bind, bind_some]
  rw [StateT.run_bind, UInt32.toNat_ofNat', run_conversations hcs huid (Nat.mod_le _ _)]
  rfl

structure BatchCarried (p : WKProto) (m : BatchUpdateConversationModel) : Prop where
  uids : ∀ e ∈ m.uids, p.holds e.1
  channelId : p.holds m.channel.id

theorem reads_batchModel {m : BatchUpdateConversationModel} (h : BatchCarried p m)
    (hlen : m.uids.length < 2 ^ 16) : Reads (batchModel p) (putBatchModel p m) m := by
  have hn : (UInt16.ofNat m.uids.length).toNat = m.uids.length := UInt16.toNat_ofNat_of_lt' hlen
  have hentry (e : Bytes × UInt64) (he : e ∈ m.uids) :
      Reads (do let uid ← p.string; let seq ← p.uint64; return (uid, seq)) (p.putString e.1 ++ p.putUint64 e.2) e :=
    (p.reads_string _ (h.uids e he)).bind ((p.reads_uint64 e.2).result _)
  have hes := Reads.many m.uids hentry
  rw [← hn] at hes
  have hread : Reads (batchModel p) (putBatchModel p m) (.ofEntries m.channel m.uids) :=
    (p.reads_uint16 (UInt16.ofNat m.uids.length)).bind <| hes.bind <| (p.reads_string _ h.channelId).bind <|
      (p.reads_uint8 m.channel.type).result _
  rwa [m.ofEntries_uids] at hread

theorem yields_batchModel : Yields (batchModel p) fun m => m.uids.length < 2 ^ 16 := by
  refine (Yields.any _).bind fun n _ => ((Yields.any _).many n.toNat).bind fun es hes => (Yields.any _).bind fun _ _ =>
    (Yields.any _).bind fun _ _ => .pure ?_
  have hle : (setEntries [] es).length ≤ _ := length_setEntries_le [] es
  have hn := n.toNat_lt
  rw [hes.1, length_nil, Nat.zero_add] at hle
  exact lt_of_le_of_lt hle hn

theorem decode_batchUpdate {models : List BatchUpdateConversationModel}
    (hm : ∀ m ∈ models, BatchCarried p m) (cmdType : CMDType) :
    (logged p { cmdType, data := encodeCMDBatchUpdateConversation p models }).bind
      (decodeCMDBatchUpdateConversation p) = some models ↔
      models.length < 2 ^ 32 ∧ ∀ m ∈ models, m.uids.length < 2 ^ 16 := by
  rw [logged_eq, bind_some, decodeCMDBatchUpdateConversation]
  constructor
  · intro h
    obtain ⟨⟨models', rest⟩, hrun, hmodels⟩ := map_eq_some_iff.mp h
    obtain rfl : models' = models := hmodels
    have hyields : Yields (p.uint32 >>= fun count => many (batchModel p) count.toNat) fun models =>
        models.length < 2 ^ 32 ∧ ∀ m ∈ models, m.uids.length < 2 ^ 16 := by
      refine (Yields.any _).bind fun n _ bytes models rest hx => ?_
      obtain ⟨hlen, hmodels⟩ := yields_batchModel.many n.toNat bytes models rest hx
      exact ⟨hlen ▸ n.toNat_lt, hmodels⟩
    exact hyields _ _ _ hrun
  · rintro ⟨hlen, huids⟩
    have hn : (UInt32.ofNat models.length).toNat = models.length := UInt32.toNat_ofNat_of_lt' hlen
    have hmany := Reads.many models fun m hmem => reads_batchModel (hm m hmem) (huids m hmem)
    rw [← hn] at hmany
    have hread : Reads (p.uint32 >>= fun count => many (batchModel p) count.toNat)
        (encodeCMDBatchUpdateConversation p models) models := (p.reads_uint32 _).bind hmany
    have hrun := hread []
    rw [append_nil] at hrun
    rw [hrun, map_some]

/-- If what was encoded is decoded to `y`, then it is decoded to `x` only when they are the same. -/
theorem decodes_iff {α : Type} {encoded : Option Bytes} {decode : Bytes → Option α} {x y : α}
    (hsome : encoded.isSome) (hdecode : ∀ data, encoded = some data → decode data = some y) :
    (∀ data, encoded = some data → decode data = some x) ↔ y = x := by
  obtain ⟨data, hdata⟩ := isSome_iff_exists.mp hsome
  constructor
  · intro h
    exact some.inj ((hdecode data hdata).symm.trans (h data hdata))
  · rintro rfl
    exact hdecode

/-- Conversations go through the log unchanged exactly when each of them is kept and their number
fits into the count; the positions of a batch, when the number of models and the number of users of
each one fit. -/
theorem conversation_commands_survive (p : WKProto) (uid : Bytes) (cs : List Conversation)
    (models : List BatchUpdateConversationModel) (hu : p.holds uid) (hcs : ∀ c ∈ cs, Carried p c)
    (hm : ∀ m ∈ models, BatchCarried p m) :
    ((∀ data, encodeCMDAddOrUpdateUserConversations p uid cs = some data →
        (logged p { cmdType := cmdAddOrUpdateUserConversations, data }).bind
          (decodeCMDAddOrUpdateUserConversations p) = some (uid, cs)) ↔
      (∃ c ∈ cs, c.uid = []) ∨ (cs.length < 2 ^ 32 ∧ ∀ c ∈ cs, Kept c)) ∧
    ((∀ data, encodeCMDAddOrUpdateConversations p cs = some data →
        (logged p { cmdType := cmdAddOrUpdateConversations, data }).bind (decodeCMDAddOrUpdateConversations p) = some cs) ↔
      (∃ c ∈ cs, c.uid = []) ∨ (cs.length < 2 ^ 16 ∧ ∀ c ∈ cs, Kept c)) ∧
    ((logged p { cmdType := cmdBatchUpdateConversation, data := encodeCMDBatchUpdateConversation p models }).bind
        (decodeCMDBatchUpdateConversation p) = some models ↔
      models.length < 2 ^ 32 ∧ ∀ m ∈ models, m.uids.length < 2 ^ 16) := by
  have hmod (n : Nat) : cs.length % 2 ^ n = cs.length ↔ cs.length < 2 ^ n := Nat.mod_eq_iff_lt (Nat.two_pow_pos n).ne'
  by_cases huid : ∃ c ∈ cs, c.uid = []
  · -- the encoders fail, and nothing is proposed
    have hnone : putConversations p cs = none := by rw [putConversations_eq, if_pos huid]
    refine ⟨iff_of_true (fun data h => ?_) (.inl huid), iff_of_true (fun data h => ?_) (.inl huid),
      decode_batchUpdate hm _⟩
    · rw [encodeCMDAddOrUpdateUserConversations, hnone] at h
      cases h
    · rw [encodeCMDAddOrUpdateConversations, hnone] at h
      cases h
  · refine ⟨?_, ?_, decode_batchUpdate hm _⟩
    · have hencoded : (encodeCMDAddOrUpdateUserConversations p uid cs).isSome := by
        rw [encodeCMDAddOrUpdateUserConversations, putConversations_eq, if_neg huid]
        rfl
      rw [or_iff_right huid, ← hmod, ← map_received_take,
        decodes_iff hencoded fun data h => decode_addOrUpdateUser hu hcs huid h _, Prod.mk.injEq, eq_self, true_and]
    · have hencoded : (encodeCMDAddOrUpdateConversations p cs).isSome := by
        rw [encodeCMDAddOrUpdateConversations, putConversations_eq, if_neg huid]
        rfl
      rw [or_iff_right huid, ← hmod, ← map_received_take,
        decodes_iff hencoded fun data h => decode_addOrUpdate hcs huid h _]

private def deleted : Conversation where
  id := 7
  uid := [117]
  channel := ⟨[103], 2⟩
  readToMsgSeq := 9
  deletedAtMsgSeq := 5

/-- The position up to which a conversation was deleted does not come back. -/
theorem conversation_commands_survive_fails :
    ¬∀ (uid : Bytes) (cs : List Conversation) (data : Bytes), WKProto.twoByte.holds uid →
      (∀ c ∈ cs, Carried .twoByte c) → encodeCMDAddOrUpdateUserConversations .twoByte uid cs = some data →
      (logged .twoByte { cmdType := cmdAddOrUpdateUserConversations, data }).bind
        (decodeCMDAddOrUpdateUserConversations .twoByte) = some (uid, cs) := by
  intro h
  have hcarried (c : Conversation) (hc : c ∈ [deleted]) : Carried .twoByte c := by
    obtain rfl := mem_singleton.mp hc
    exact ⟨by decide, by decide, by decide⟩
  have hdecoded := h [117] [deleted] _ (by decide) hcarried rfl
  exact absurd hdecoded (by decide +kernel)

private def unread : Conversation where
  uid := [117]
  channel := ⟨[103], 2⟩
  readToMsgSeq := 9
  createdAt := some 1700000000000000000

theorem conversation_commands_survive_unread :
    ((encodeCMDAddOrUpdateConversations .twoByte [unread]).bind fun data =>
      (logged .twoByte { cmdType := cmdAddOrUpdateConversations, data }).bind (decodeCMDAddOrUpdateConversations .twoByte)) =
        some [unread] := by
  have hcarried (c : Conversation) (hc : c ∈ [unread]) : Carried .twoByte c := by
    obtain rfl := mem_singleton.mp hc
    exact ⟨by decide, by decide, by decide⟩
  have hkept (c : Conversation) (hc : c ∈ [unread]) : Kept c := by
    obtain rfl := mem_singleton.mp hc
    exact ⟨rfl, by decide, by decide⟩
  have hsurvive := conversation_commands_survive .twoByte [117] [unread] [] (by decide) hcarried nofun
  obtain ⟨data, hdata⟩ : ∃ data, encodeCMDAddOrUpdateConversations .twoByte [unread] = some data := ⟨_, rfl⟩
  rw [hdata]
  exact hsurvive.2.1.mpr (.inr ⟨by decide, hkept⟩) data hdata

end WuKongIM.Cluster

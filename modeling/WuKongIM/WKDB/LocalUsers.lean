import Mathlib.Data.Finset.Sort
import WuKongIM.Lib.KeyRange
import WuKongIM.WKDB.ConversationRows

/-! The relation from channels to their local users, key by key: each database keeps, for a channel,
the users that have a conversation with it. -/
namespace WuKongIM.WKDB
open Lib List Function UserTable ConversationRow

/-- The table, the hash of the channel and the user. -/
def newConversationLocalUserKey (n : UInt64) (uid : Bytes) : Bytes := ([0x13, 0x01, 0x01, 0] ++ bigEndian 8 n.toNat) ++ uid

def newConversationLocalUserLowKey (n : UInt64) : Bytes := newConversationLocalUserKey n [0x00]

def newConversationLocalUserHighKey (n : UInt64) : Bytes := newConversationLocalUserKey n [0xff]

def parseConversationLocalUserKey (key : Bytes) : Option Bytes := if key.length < 12 then none else some (key.drop 12)

/-- What a scan between the two bounds finds: the upper one is left out, and below the lower one
lies the key of no user. -/
def Scanned (uid : Bytes) : Prop := [0x00] ≤ uid ∧ uid < [0xff]
  deriving Decidable

@[simp] theorem parse_localUserKey (n : UInt64) (uid : Bytes) :
    parseConversationLocalUserKey (newConversationLocalUserKey n uid) = some uid := by
  rw [parseConversationLocalUserKey, if_neg]
  · rfl
  · simp [newConversationLocalUserKey]

variable {n : UInt64} {uid : Bytes} {conversations l : List Conversation} {channels : List (Nat × Channel)} {n' : UInt64} {shardNum : Nat}
  {relation : Nat → Finset Bytes} {db : ConversationDB}

theorem localUserKey_inj {uid' : Bytes} :
    newConversationLocalUserKey n uid = newConversationLocalUserKey n' uid' ↔ n = n' ∧ uid = uid' := by
  constructor
  · intro h
    obtain ⟨hfront, huid⟩ := append_inj h (by simp)
    have hn := (append_inj hfront rfl).2
    rw [← ofBigEndian_uint64 n, hn, ofBigEndian_uint64]
    exact ⟨rfl, huid⟩
  · rintro ⟨rfl, rfl⟩
    rfl

theorem between_iff : newConversationLocalUserLowKey n ≤ newConversationLocalUserKey n' uid ∧
      newConversationLocalUserKey n' uid < newConversationLocalUserHighKey n ↔ n = n' ∧ Scanned uid := by
  have hfront : [0x13, 0x01, 0x01, 0] ++ bigEndian 8 n.toNat = [0x13, 0x01, 0x01, 0] ++ bigEndian 8 n'.toNat ↔ n = n' := by
    have hinj : newConversationLocalUserKey n [] = newConversationLocalUserKey n' [] ↔ n = n' ∧ [] = [] :=
      localUserKey_inj
    simpa [newConversationLocalUserKey] using hinj
  rw [newConversationLocalUserLowKey, newConversationLocalUserHighKey, newConversationLocalUserKey,
    newConversationLocalUserKey,
    newConversationLocalUserKey, between_append (by simp), hfront]
  rfl

/-- The rows, and the relation with every batch carried out that the databases have been handed. -/
structure LocalUserDB where
  conversations : ConversationDB
  relation : Nat → Finset Bytes

namespace LocalUserDB

section
variable (shardNum : Nat) (relation : Nat → Finset Bytes)

/-- One batch takes all conversations of a user, in the database of the user's first channel. -/
def batchDb (conversations : List Conversation) (c : Conversation) : Nat :=
  channelDbIndex shardNum ((conversations.find? fun d => d.uid = c.uid).getD c).channel

def setConversationLocalUserRelation (conversations : List Conversation) : Nat → Finset Bytes :=
  conversations.foldl (fun relation c =>
    update relation (batchDb shardNum conversations c)
      (insert (newConversationLocalUserKey c.num c.uid) (relation (batchDb shardNum conversations c)))) relation

def deleteConversationLocalUserRelation (uid : Bytes) (c : Channel) : Nat → Finset Bytes :=
  update relation (channelDbIndex shardNum c)
    ((relation (channelDbIndex shardNum c)).erase (newConversationLocalUserKey (channelToNum c) uid))

/-- Here the relation is looked for in the user's database. -/
def deleteConversationLocalUserRelationWithChannels (uid : Bytes) (channels : List Channel) : Nat → Finset Bytes :=
  update relation (shardId shardNum uid)
    (channels.foldl (fun keys c => keys.erase (newConversationLocalUserKey (channelToNum c) uid)) (relation (shardId shardNum uid)))

def getChannelConversationLocalUsers (c : Channel) : List Bytes :=
  (((relation (channelDbIndex shardNum c)).filter fun key =>
    newConversationLocalUserLowKey (channelToNum c) ≤ key ∧ key < newConversationLocalUserHighKey (channelToNum c)).sort
      (· ≤ ·)).filterMap parseConversationLocalUserKey

/-- What an action does to the relation: conversations that are only added when they are missing do
not go into it. -/
def relate : ConversationDB.ConversationAction → Nat → Finset Bytes
  | .addOrUpdate conversations => setConversationLocalUserRelation shardNum relation conversations
  | .addMissing _ => relation
  | .addWithUser uid conversations => if uid = [] then relation
      else setConversationLocalUserRelation shardNum relation conversations
  | .seqGreater .. => relation
  | .delete uid channel => deleteConversationLocalUserRelation shardNum relation uid channel
  | .deleteAll uid channels => deleteConversationLocalUserRelationWithChannels shardNum relation uid channels

def step (s : LocalUserDB) (a : ConversationDB.ConversationAction) : Option LocalUserDB :=
  (s.conversations.conversationStep shardNum a).map fun conversations => ⟨conversations, relate shardNum s.relation a⟩

end

variable {c : Channel}

theorem mem_getLocalUsers : uid ∈ getChannelConversationLocalUsers shardNum relation c ↔
    ∃ key ∈ relation (channelDbIndex shardNum c),
      (newConversationLocalUserLowKey (channelToNum c) ≤ key ∧ key < newConversationLocalUserHighKey (channelToNum c)) ∧
        parseConversationLocalUserKey key = some uid := by
  simp only [getChannelConversationLocalUsers, mem_filterMap, Finset.mem_sort, Finset.mem_filter, and_assoc]

theorem mem_setRelation {s : Nat} {key : Bytes} :
    key ∈ setConversationLocalUserRelation shardNum relation conversations s ↔
      key ∈ relation s ∨ ∃ c ∈ conversations, batchDb shardNum conversations c = s ∧
        newConversationLocalUserKey c.num c.uid = key := by
  have hfold (l : List Conversation) (relation : Nat → Finset Bytes) :
      key ∈ l.foldl (fun relation c => update relation (batchDb shardNum conversations c)
        (insert (newConversationLocalUserKey c.num c.uid) (relation (batchDb shardNum conversations c)))) relation s ↔
      key ∈ relation s ∨ ∃ c ∈ l, batchDb shardNum conversations c = s ∧ newConversationLocalUserKey c.num c.uid = key := by
    induction l generalizing relation with
    | nil => simp
    | cons c l ih =>
      rw [foldl_cons, ih]
      by_cases hs : batchDb shardNum conversations c = s
      · rw [← hs, update_self, Finset.mem_insert]
        simp only [exists_mem_cons_iff, true_and, eq_comm, or_assoc, or_left_comm]
      · rw [update_of_ne (Ne.symm hs)]
        simp only [exists_mem_cons_iff, hs, false_and, false_or]
  exact hfold conversations relation

theorem mem_foldl_erase {γ κ : Type} [DecidableEq κ] (f : γ → κ) (l : List γ) (keys : Finset κ) (key : κ) :
    key ∈ l.foldl (fun keys x => keys.erase (f x)) keys ↔ key ∈ keys ∧ ∀ x ∈ l, f x ≠ key := by
  induction l generalizing keys with
  | nil => simp
  | cons x l ih =>
    rw [foldl_cons, ih, Finset.mem_erase, forall_mem_cons]
    simp only [ne_comm, and_left_comm, and_assoc]

theorem mem_deleteRelations {channels : List Channel} (i : Nat) (key : Bytes) :
    key ∈ deleteConversationLocalUserRelationWithChannels shardNum relation uid channels i ↔
      key ∈ relation i ∧ ∀ c ∈ channels.map fun c => (shardId shardNum uid, c), c.1 = i →
        newConversationLocalUserKey (channelToNum c.2) uid ≠ key := by
  rw [deleteConversationLocalUserRelationWithChannels]
  by_cases hi : i = shardId shardNum uid
  · rw [hi, update_self, mem_foldl_erase]
    simp
  · rw [update_of_ne hi]
    simp [Ne.symm hi]

theorem mem_deleteRelation (i : Nat) (key : Bytes) :
    key ∈ deleteConversationLocalUserRelation shardNum relation uid c i ↔ key ∈ relation i ∧
      ∀ e ∈ [(channelDbIndex shardNum c, c)], e.1 = i → newConversationLocalUserKey (channelToNum e.2) uid ≠ key := by
  rw [deleteConversationLocalUserRelation]
  by_cases hi : i = channelDbIndex shardNum c
  · rw [hi]
    simp [and_comm, ne_comm]
  · rw [update_of_ne hi]
    simp [Ne.symm hi]

end LocalUserDB

namespace UserTable
variable {t : UserTable} {c : Conversation}

def Holds (t : UserTable) (uid : Bytes) (n : UInt64) : Prop := ∃ r ∈ t.rows, r.conversation.uid = uid ∧ r.conversation.num = n

variable (h : Ascending ConversationRow.key t.rows) {r : ConversationRow}
include h

theorem eq_of_id {r r' : ConversationRow} (hr : r ∈ t.rows) (hr' : r' ∈ t.rows)
    (hid : r.id = r'.id) : r = r' := h.eq_of_key hr hr' (congrArg UInt64.toNat hid)

theorem mem_put_row (r r' : ConversationRow) : r' ∈ put key r t.rows ↔ r' = r ∨ r' ∈ t.rows ∧ r'.id ≠ r.id := by
  rw [mem_put h]
  simp only [key, ne_eq, UInt64.toNat_inj]

/-- A row is written under an identifier that is free, or that is taken by the same conversation. -/
theorem holds_put {t' : UserTable} (ht : t'.rows = put key r t.rows)
    (hr : ∀ r' ∈ t.rows, r'.id = r.id → r'.conversation.uid = r.conversation.uid ∧ r'.conversation.num = r.conversation.num)
    (uid : Bytes) (n : UInt64) : t'.Holds uid n ↔ t.Holds uid n ∨ r.conversation.uid = uid ∧ r.conversation.num = n := by
  have hmem := mem_put_row h r
  rw [Holds, ht]
  constructor
  · rintro ⟨r', hr', hpair⟩
    rcases (hmem r').mp hr' with rfl | ⟨hr', -⟩
    · exact .inr hpair
    · exact .inl ⟨r', hr', hpair⟩
  · rintro (⟨r', hr', hpair⟩ | hpair)
    · by_cases hid : r'.id = r.id
      · obtain ⟨huid, hnum⟩ := hr r' hr' hid
        exact ⟨r, (hmem r).mpr (.inl rfl), huid.symm.trans hpair.1, hnum.symm.trans hpair.2⟩
      · exact ⟨r', (hmem r').mpr (.inr ⟨hr', hid⟩), hpair⟩
    · exact ⟨r, (hmem r).mpr (.inl rfl), hpair⟩

theorem holds_writes (hl : ∀ c ∈ l, (∀ r ∈ t.rows, r.id = c.id → r.conversation.uid = c.uid ∧ r.conversation.num = c.num) ∧
        ∀ c' ∈ l, c'.id = c.id → c'.uid = c.uid ∧ c'.num = c.num) :
    Ascending key (l.foldl (fun t c => t.writeConversation c) t).rows ∧
      ∀ uid n, (l.foldl (fun t c => t.writeConversation c) t).Holds uid n ↔ t.Holds uid n ∨
        ∃ c ∈ l, c.uid = uid ∧ c.num = n := by
  induction l generalizing t with
  | nil => exact ⟨h, fun uid n => by simp⟩
  | cons c l ih =>
    obtain ⟨hrows, -⟩ := hl c (.head l)
    have hwritten : Ascending key (t.writeConversation c).rows := h.put _
    obtain ⟨hascending, hholds⟩ := ih hwritten fun c' hc' => by
      obtain ⟨hrows', hsame'⟩ := hl c' (mem_cons_of_mem c hc')
      refine ⟨fun r hr heq => ?_, fun c'' hc'' => hsame' c'' (mem_cons_of_mem c hc'')⟩
      rcases (mem_put_row h (t.writtenRow c) r).mp hr with rfl | ⟨hr, -⟩
      · exact hsame' c (.head l) heq
      · exact hrows' r hr heq
    refine ⟨hascending, fun uid n => ?_⟩
    rw [foldl_cons, hholds, holds_put h rfl hrows, exists_mem_cons_iff, or_assoc]
    rfl

theorem holds_setColumns (hr : t.row r.id = some r) {set : ConversationRow → ConversationRow}
    (hset : (set r).id = r.id ∧ (set r).conversation.uid = r.conversation.uid ∧ (set r).conversation.num = r.conversation.num)
    (uid : Bytes) (n : UInt64) : (t.setColumns r.id set).Holds uid n ↔ t.Holds uid n := by
  obtain ⟨hid, huid, hnum⟩ := hset
  have hr' := mem_of_find?_eq_some hr
  have hrows : (t.setColumns r.id set).rows = put key (set r) t.rows := by
    rw [setColumns, hr]
    rfl
  rw [holds_put h hrows, huid, hnum]
  · exact or_iff_left_of_imp fun hpair => ⟨r, hr', hpair⟩
  · intro r' hmem hsame
    rw [eq_of_id h hmem hr' (hsame.trans hid), huid, hnum]
    exact ⟨rfl, rfl⟩

end UserTable

namespace ConversationDB
def Ordered (db : ConversationDB) : Prop := ∀ k, Ascending ConversationRow.key (db k).rows

def HasRow (db : ConversationDB) (uid : Bytes) (n : UInt64) : Prop := ∃ k, (db k).Holds uid n

/-- A conversation is written for a user that the scan finds, under an identifier that no other
conversation has, be it in the table or in the batch. -/
structure Fits (db : ConversationDB) (writes : List (Nat × Conversation)) (e : Nat × Conversation) : Prop where
  user : Scanned e.2.uid
  rows : ∀ r ∈ (db ⟨e.1, hashWithString e.2.uid⟩).rows, r.id = e.2.id →
    r.conversation.uid = e.2.uid ∧ r.conversation.num = e.2.num
  others : ∀ e' ∈ writes, e'.1 = e.1 → hashWithString e'.2.uid = hashWithString e.2.uid →
    e'.2.id = e.2.id → e'.2.uid = e.2.uid ∧ e'.2.num = e.2.num

theorem hasRow_commit (h : db.Ordered) {b : Batch} (hrange : b.delRangeKvs = [])
    (hfits : ∀ e ∈ b.setKvs, db.Fits b.setKvs e) : (db.commit b).Ordered ∧
      ∀ uid n, (db.commit b).HasRow uid n ↔ db.HasRow uid n ∨ ∃ e ∈ b.setKvs, e.2.uid = uid ∧ e.2.num = n := by
  have htable (k : UserKey) : Ascending key (db.commit b k).rows ∧ ∀ uid n, (db.commit b k).Holds uid n ↔
      (db k).Holds uid n ∨ ∃ e ∈ b.setKvs, ⟨e.1, hashWithString e.2.uid⟩ = k ∧ e.2.uid = uid ∧ e.2.num = n := by
    rw [commit_apply, hrange, filter_nil, map_nil, foldl_nil]
    have hrows := rows_deletes ((b.delKvs.filter fun e => ⟨e.1, hashWithString e.2.uid⟩ = k).map Prod.snd) (db k)
    obtain ⟨hascending, hholds⟩ := holds_writes (hrows.symm ▸ h k)
      (l := (b.setKvs.filter fun e => ⟨e.1, hashWithString e.2.uid⟩ = k).map Prod.snd) fun c hc => by
        obtain ⟨e, he, rfl⟩ := mem_map.mp hc
        obtain ⟨he, hk⟩ := mem_filter.mp he
        have hk := of_decide_eq_true hk
        refine ⟨fun r hr => (hfits e he).rows r ?_, fun c' hc' => ?_⟩
        · rw [hk, ← hrows]
          exact hr
        · obtain ⟨e', he', rfl⟩ := mem_map.mp hc'
          obtain ⟨he', hk'⟩ := mem_filter.mp he'
          obtain ⟨hshard, hhash⟩ := UserKey.mk.inj ((of_decide_eq_true hk').trans hk.symm)
          exact (hfits e he).others e' he' hshard hhash
    refine ⟨hascending, fun uid n => ?_⟩
    rw [hholds, Holds, Holds, hrows]
    simp only [mem_map, mem_filter, decide_eq_true_eq, exists_exists_and_eq_and]
    simp only [and_assoc]
  refine ⟨fun k => (htable k).1, fun uid n => ?_⟩
  constructor
  · rintro ⟨k, hk⟩
    rcases ((htable k).2 uid n).mp hk with hk | ⟨e, he, -, hpair⟩
    · exact .inl ⟨k, hk⟩
    · exact .inr ⟨e, he, hpair⟩
  · rintro (⟨k, hk⟩ | ⟨e, he, hpair⟩)
    · exact ⟨k, ((htable k).2 uid n).mpr (.inl hk)⟩
    · exact ⟨_, ((htable _).2 uid n).mpr (.inr ⟨e, he, rfl, hpair⟩)⟩

theorem rows_deleteChannels (db : ConversationDB) (uid : Bytes) (channels : List (Nat × Channel)) (k : UserKey) :
    (db.deleteChannels shardNum uid channels k).rows = if k = userKey shardNum uid then
      (db k).rows.filter fun r => r.id ∉ (doomed (db k) (channels.map Prod.snd)).map (·.id) else (db k).rows := by
  obtain ⟨hrows, -⟩ := same_deleteRelation shardNum db uid channels k
  have hids (olds : List Conversation) :
      ((olds.map fun old => (userKey shardNum uid, old.id)).filter fun e => e.1 = k).map Prod.snd =
        if k = userKey shardNum uid then olds.map (·.id) else [] := by
    split
    · next hk =>
      rw [hk, filter_eq_self.mpr (by simp), map_map]
      rfl
    · next hk =>
      rw [filter_eq_nil_iff.mpr (by simp [Ne.symm hk])]
      rfl
  rw [deleteChannels, foldl_deleteRows, commit_apply, filter_nil, map_nil, foldl_nil, hids,
    rows_deleteColumns, rows_deletes, hrows]
  split
  · next hk => rw [hk]
  · simp

/-- A deletion takes every row of the user for the channel, and no row of another user. -/
structure Clears (shardNum : Nat) (db : ConversationDB) (uid : Bytes) (c : Channel) : Prop where
  found : ∀ k, ∀ r ∈ (db k).rows, r.conversation.uid = uid → r.conversation.num = channelToNum c →
    k = userKey shardNum uid ∧ r.conversation.channel = c ∧ r.conversation ∈ (db k).getConversations
  own : ∀ r ∈ (db (userKey shardNum uid)).rows, r.conversation.channel = c → r.conversation.uid = uid

theorem hasRow_deleteChannels (h : db.Ordered)
    (hclears : ∀ c ∈ channels, db.Clears shardNum uid c.2) (uid' : Bytes) (n : UInt64) :
    (db.deleteChannels shardNum uid channels).HasRow uid' n ↔
      db.HasRow uid' n ∧ ¬ (uid' = uid ∧ ∃ c ∈ channels, channelToNum c.2 = n) := by
  constructor
  · rintro ⟨k, r, hr, huid, hnum⟩
    rw [rows_deleteChannels] at hr
    split at hr
    · next hk =>
      obtain ⟨hr, hkept⟩ := mem_filter.mp hr
      refine ⟨⟨k, r, hr, huid, hnum⟩, ?_⟩
      rintro ⟨rfl, c, hc, rfl⟩
      obtain ⟨-, hchannel, hfound⟩ := (hclears c hc).found k r hr huid hnum
      refine of_decide_eq_true hkept (mem_map.mpr ⟨r.conversation, mem_flatMap.mpr ⟨c.2, ?_, ?_⟩, rfl⟩)
      · exact mem_map_of_mem hc
      · exact mem_filter.mpr ⟨hfound, decide_eq_true hchannel⟩
    · next hk =>
      refine ⟨⟨k, r, hr, huid, hnum⟩, ?_⟩
      rintro ⟨rfl, c, hc, rfl⟩
      exact hk ((hclears c hc).found k r hr huid hnum).1
  · rintro ⟨⟨k, r, hr, huid, hnum⟩, hnot⟩
    refine ⟨k, r, ?_, huid, hnum⟩
    rw [rows_deleteChannels]
    split
    · next hk =>
      refine mem_filter.mpr ⟨hr, decide_eq_true fun hdoomed => ?_⟩
      obtain ⟨old, hold, hid⟩ := mem_map.mp hdoomed
      obtain ⟨channel, hchannel, hmem⟩ := mem_flatMap.mp hold
      obtain ⟨c, hc, rfl⟩ := mem_map.mp hchannel
      obtain ⟨r', hr', rfl⟩ := doomed_row hold
      obtain rfl := eq_of_id (h k) hr' hr hid
      have hthis : r'.conversation.channel = c.2 := of_decide_eq_true (mem_filter.mp hmem).2
      have hown := (hclears c hc).own r' (hk ▸ hr) hthis
      exact hnot ⟨huid.symm.trans hown, c, hc, by rw [← hthis, ← hnum]; rfl⟩
    · exact hr

theorem hasRow_seqGreater (h : db.Ordered) (now : UInt64) (uid : Bytes) (channel : Channel) (readToMsgSeq : UInt64) :
    Ordered (db.updateConversationIfSeqGreater shardNum now uid channel readToMsgSeq) ∧
      ∀ uid' n, (db.updateConversationIfSeqGreater shardNum now uid channel readToMsgSeq).HasRow uid' n ↔ db.HasRow uid' n := by
  have hsame : db.Ordered ∧ ∀ uid' n, db.HasRow uid' n ↔ db.HasRow uid' n := ⟨h, fun _ _ => .rfl⟩
  rw [updateConversationIfSeqGreater]
  cases ho : (db (userKey shardNum uid)).oldConversation channel with
  | none => exact hsame
  | some old =>
    dsimp only
    split
    · exact hsame
    obtain ⟨ho, -⟩ := Option.filter_eq_some_iff.mp ho
    rw [getConversation] at ho
    split at ho
    · cases ho
    obtain ⟨r, hr, rfl⟩ := Option.map_eq_some_iff.mp ho
    have hkey : r.key = ((db (userKey shardNum uid)).getConversationIdByChannel channel).toNat := by
      simpa using find?_some hr
    rw [← UInt64.toNat_inj.mp hkey] at hr
    constructor
    · intro k
      by_cases hk : k = userKey shardNum uid
      · rw [hk, modify_self]
        exact (h _).put _
      · rw [modify_of_ne hk]
        exact h k
    · intro uid' n
      refine exists_congr fun k => ?_
      by_cases hk : k = userKey shardNum uid
      · rw [hk, modify_self]
        exact holds_setColumns (h _) hr ⟨rfl, rfl, rfl⟩ uid' n
      · rw [modify_of_ne hk]

theorem exists_addOrUpdate (shardNum : Nat) (db : ConversationDB) (uid : Bytes) (c : Conversation) :
    (addOrUpdate shardNum db uid c).delRangeKvs = [] ∧
      ∃ e, (addOrUpdate shardNum db uid c).setKvs = [e] ∧ e.2.uid = c.uid ∧ e.2.num = c.num := by
  rw [addOrUpdate]
  cases (db (userKey shardNum uid)).oldConversation c.channel with
  | none | some old => exact ⟨rfl, _, rfl, rfl, rfl⟩

variable {uid : Conversation → Bytes}

theorem exists_mem_addOrUpdates {u : Bytes} :
    (∃ e ∈ l.flatMap fun c => (addOrUpdate shardNum db (uid c) c).setKvs, e.2.uid = u ∧ e.2.num = n) ↔
      ∃ c ∈ l, c.uid = u ∧ c.num = n := by
  constructor
  · rintro ⟨e, he, hpair⟩
    obtain ⟨c, hc, he⟩ := mem_flatMap.mp he
    obtain ⟨-, e', hwrites, huid, hnum⟩ := exists_addOrUpdate shardNum db (uid c) c
    obtain rfl := mem_singleton.mp (hwrites ▸ he)
    exact ⟨c, hc, huid.symm.trans hpair.1, hnum.symm.trans hpair.2⟩
  · rintro ⟨c, hc, hpair⟩
    obtain ⟨-, e, hwrites, huid, hnum⟩ := exists_addOrUpdate shardNum db (uid c) c
    refine ⟨e, mem_flatMap.mpr ⟨c, hc, ?_⟩, huid.trans hpair.1, hnum.trans hpair.2⟩
    rw [hwrites]
    exact .head []

theorem hasRow_addAll (h : db.Ordered)
    (hfits : ∀ e ∈ l.flatMap fun c => (addOrUpdate shardNum db (uid c) c).setKvs,
      db.Fits (l.flatMap fun c => (addOrUpdate shardNum db (uid c) c).setKvs) e) :
    let db' := (setConversationLocalUserRelation shardNum db conversations).commit
      (l.foldl (fun b c => b ++ addOrUpdate shardNum db (uid c) c) {})
    db'.Ordered ∧
      ∀ u n, db'.HasRow u n ↔ db.HasRow u n ∨ ∃ c ∈ l, c.uid = u ∧ c.num = n := by
  have hsame (k : UserKey) := (same_setRelation shardNum db conversations k).1
  have hhas (u : Bytes) (n : UInt64) : (setConversationLocalUserRelation shardNum db conversations).HasRow u n ↔ db.HasRow u n := by
    refine exists_congr fun k => ?_
    rw [Holds, Holds, hsame]
  rw [foldl_batch]
  have hcommit := hasRow_commit (fun k => (hsame k).symm ▸ h k)
    (b := ⟨l.flatMap fun c => (addOrUpdate shardNum db (uid c) c).delKvs,
      l.flatMap fun c => (addOrUpdate shardNum db (uid c) c).delRangeKvs,
      l.flatMap fun c => (addOrUpdate shardNum db (uid c) c).setKvs⟩)
    (flatMap_eq_nil_iff.mpr fun c _ => (exists_addOrUpdate shardNum db (uid c) c).1)
    fun e he => ⟨(hfits e he).user, (hsame _).symm ▸ (hfits e he).rows, (hfits e he).others⟩
  refine ⟨hcommit.1, fun u n => (hcommit.2 u n).trans ?_⟩
  rw [hhas]
  exact or_congr_right exists_mem_addOrUpdates

end ConversationDB

namespace LocalUserDB
open ConversationDB
variable {s : LocalUserDB}

/-- The relation holds the users that have a row for the channel, where a scan finds them. -/
structure Related (shardNum : Nat) (s : LocalUserDB) : Prop where
  ascending : ∀ k, Ascending ConversationRow.key (s.conversations k).rows
  scanned : ∀ uid n, s.conversations.HasRow uid n → Scanned uid
  keys : ∀ i, ∀ key ∈ s.relation i, ∃ n uid, key = newConversationLocalUserKey n uid
  exact : ∀ uid n, Scanned uid →
    (newConversationLocalUserKey n uid ∈ s.relation (n.toNat % shardNum) ↔ s.conversations.HasRow uid n)

/-- What is written fits; a new conversation goes into the relation, in the database of its channel;
and a deletion clears the channels, whose keys are in the database where it looks for them. -/
def Tidy (shardNum : Nat) (s : LocalUserDB) (a : ConversationAction) : Prop :=
  (∀ e ∈ s.conversations.written shardNum a, s.conversations.Fits (s.conversations.written shardNum a) e) ∧
    match a with
    | .addOrUpdate conversations => ∀ c ∈ conversations, Scanned c.uid →
        batchDb shardNum conversations c = channelDbIndex shardNum c.channel ∨ s.conversations.HasRow c.uid c.num
    | .addMissing _ => ∀ e ∈ s.conversations.written shardNum a, s.conversations.HasRow e.2.uid e.2.num
    | .addWithUser uid conversations => uid ≠ [] → ∀ c ∈ conversations, Scanned c.uid →
        batchDb shardNum conversations c = channelDbIndex shardNum c.channel ∨ s.conversations.HasRow c.uid c.num
    | .seqGreater .. => True
    | .delete uid channel => s.conversations.Clears shardNum uid channel
    | .deleteAll uid channels => ∀ c ∈ channels, s.conversations.Clears shardNum uid c ∧
        (s.conversations.HasRow uid (channelToNum c) → shardId shardNum uid = channelDbIndex shardNum c)

variable {a : ConversationAction} {t : LocalUserDB}

section
variable (h : s.Related shardNum)
include h

theorem Related.congr (hascending : db.Ordered)
    (hsame : ∀ uid n, db.HasRow uid n ↔ s.conversations.HasRow uid n) : Related shardNum ⟨db, s.relation⟩ :=
  ⟨hascending, fun uid n hrow => h.scanned uid n ((hsame uid n).mp hrow), h.keys,
    fun uid n huid => (h.exact uid n huid).trans (hsame uid n).symm⟩

theorem Related.delete (hclears : ∀ c ∈ channels, s.conversations.Clears shardNum uid c.2)
    (hrelation : ∀ i key, key ∈ relation i ↔ key ∈ s.relation i ∧
      ∀ c ∈ channels, c.1 = i → newConversationLocalUserKey (channelToNum c.2) uid ≠ key)
    (hplace : ∀ c ∈ channels, s.conversations.HasRow uid (channelToNum c.2) → c.1 = channelDbIndex shardNum c.2) :
    Related shardNum ⟨s.conversations.deleteChannels shardNum uid channels, relation⟩ := by
  have hrows := hasRow_deleteChannels h.ascending hclears
  refine ⟨fun k => ?_, fun uid' n hrow => h.scanned uid' n ((hrows uid' n).mp hrow).1,
    fun i key hkey => h.keys i key ((hrelation i key).mp hkey).1, fun uid' n huid => ?_⟩
  · rw [rows_deleteChannels]
    split
    · exact (h.ascending k).filter _
    · exact h.ascending k
  · rw [hrelation, h.exact uid' n huid, hrows uid']
    refine and_congr_right fun hrow => ?_
    constructor
    · rintro hkept ⟨rfl, c, hc, rfl⟩
      exact hkept c hc (hplace c hc hrow) rfl
    · rintro hnot c hc - hkey
      obtain ⟨rfl, rfl⟩ := localUserKey_inj.mp hkey
      exact hnot ⟨rfl, c, hc, rfl⟩

variable (hsub : ∀ c, Scanned c.uid → (c ∈ l ↔ c ∈ conversations)) (hplace : ∀ c ∈ conversations, Scanned c.uid →
  batchDb shardNum conversations c = channelDbIndex shardNum c.channel ∨ s.conversations.HasRow c.uid c.num)
include hsub hplace

theorem Related.add (hascending : db.Ordered)
    (hrows : ∀ uid n, db.HasRow uid n ↔ s.conversations.HasRow uid n ∨ ∃ c ∈ l, c.uid = uid ∧ c.num = n)
    (hl : ∀ c ∈ l, Scanned c.uid) :
    Related shardNum ⟨db, setConversationLocalUserRelation shardNum s.relation conversations⟩ := by
  refine ⟨hascending, fun uid n hrow => ?_, fun i key hkey => ?_, fun uid n huid => ?_⟩
  · rcases (hrows uid n).mp hrow with hrow | ⟨c, hc, rfl, -⟩
    · exact h.scanned uid n hrow
    · exact hl c hc
  · rcases mem_setRelation.mp hkey with hkey | ⟨c, -, -, rfl⟩
    · exact h.keys i key hkey
    · exact ⟨_, _, rfl⟩
  · rw [mem_setRelation, h.exact uid n huid, hrows uid]
    constructor
    · rintro (hrow | ⟨c, hc, -, hkey⟩)
      · exact .inl hrow
      · obtain ⟨rfl, rfl⟩ := localUserKey_inj.mp hkey
        exact .inr ⟨c, (hsub c huid).mpr hc, rfl, rfl⟩
    · rintro (hrow | ⟨c, hc, rfl, rfl⟩)
      · exact .inl hrow
      have hc := (hsub c huid).mp hc
      rcases hplace c hc huid with hdb | hrow
      · exact .inr ⟨c, hc, hdb, rfl⟩
      · exact .inl hrow

theorem Related.addAll {uid : Conversation → Bytes}
    (hfits : ∀ e ∈ l.flatMap fun c => (addOrUpdate shardNum s.conversations (uid c) c).setKvs,
      s.conversations.Fits (l.flatMap fun c => (addOrUpdate shardNum s.conversations (uid c) c).setKvs) e) :
    Related shardNum ⟨(ConversationDB.setConversationLocalUserRelation shardNum s.conversations conversations).commit
      (l.foldl (fun b c => b ++ addOrUpdate shardNum s.conversations (uid c) c) {}),
      setConversationLocalUserRelation shardNum s.relation conversations⟩ := by
  obtain ⟨hascending, hrows⟩ := hasRow_addAll h.ascending hfits
  refine h.add hsub hplace hascending hrows fun c hc => ?_
  obtain ⟨e, he, huid, -⟩ := exists_mem_addOrUpdates.mpr ⟨c, hc, rfl, rfl⟩
  exact huid ▸ (hfits e he).user

end

theorem Related.step (h : s.Related shardNum) (ha : s.Tidy shardNum a)
    (hs : s.step shardNum a = some t) : t.Related shardNum := by
  obtain ⟨hfits, hplace⟩ := ha
  obtain ⟨db, hdb, rfl⟩ := Option.map_eq_some_iff.mp hs
  cases a with
    cases hdb
  | addOrUpdate conversations =>
    rw [addOrUpdateConversations]
    split
    · next hnil =>
      subst hnil
      exact h
    · refine h.addAll (fun c hc => ?_) hplace hfits
      have hne : c.uid ≠ [] := fun hnil => absurd (hnil ▸ hc) (by decide)
      simp [hne]
  | addMissing conversations =>
    obtain ⟨hascending, hrows⟩ := hasRow_commit h.ascending (b := ⟨[], [], _⟩) rfl hfits
    refine h.congr hascending fun uid n => (hrows uid n).trans ⟨fun hrow => ?_, .inl⟩
    rcases hrow with hrow | ⟨e, he, rfl, rfl⟩
    · exact hrow
    · exact hplace e he
  | addWithUser uid conversations =>
    rw [addOrUpdateConversationsWithUser, relate]
    split
    · exact h
    · next hu =>
      rw [written, if_neg hu] at hfits
      exact h.addAll (fun _ _ => .rfl) (hplace hu) hfits
  | seqGreater now uid channel readToMsgSeq =>
    obtain ⟨hascending, hsame⟩ := hasRow_seqGreater h.ascending now uid channel readToMsgSeq
    exact h.congr hascending hsame
  | delete uid channel =>
    refine h.delete (fun c hc => ?_) mem_deleteRelation fun c hc _ => ?_
    · rw [mem_singleton.mp hc]
      exact hplace
    · rw [mem_singleton.mp hc]
  | deleteAll uid channels =>
    exact h.delete (forall_mem_map.mpr fun channel hchannel => (hplace channel hchannel).1) mem_deleteRelations
      (forall_mem_map.mpr fun channel hchannel => (hplace channel hchannel).2)

/-- The local users of a channel are the users that have a row for it, each of them once. -/
def ExactFor (shardNum : Nat) (s : LocalUserDB) (c : Channel) : Prop :=
  (getChannelConversationLocalUsers shardNum s.relation c).Nodup ∧
    ∀ uid, uid ∈ getChannelConversationLocalUsers shardNum s.relation c ↔
      ∃ k, ∃ r ∈ (s.conversations k).rows, r.conversation.uid = uid ∧ r.conversation.channel = c

theorem Related.exactFor (hrelated : s.Related shardNum) {c : Channel}
    (hc : ∀ k, ∀ r ∈ (s.conversations k).rows, r.conversation.num = channelToNum c → r.conversation.channel = c) :
    s.ExactFor shardNum c := by
  constructor
  · rw [getChannelConversationLocalUsers, List.Nodup, pairwise_filterMap]
    refine (Finset.sort_nodup _ _).imp_of_mem fun hkey hkey' hne uid huid uid' huid' heq => ?_
    obtain ⟨hkey, hrange⟩ := Finset.mem_filter.mp ((Finset.mem_sort _).mp hkey)
    obtain ⟨hkey', hrange'⟩ := Finset.mem_filter.mp ((Finset.mem_sort _).mp hkey')
    obtain ⟨n, u, rfl⟩ := hrelated.keys _ _ hkey
    obtain ⟨n', u', rfl⟩ := hrelated.keys _ _ hkey'
    rw [parse_localUserKey, Option.some.injEq] at huid huid'
    refine hne (localUserKey_inj.mpr ⟨?_, huid.trans (heq.trans huid'.symm)⟩)
    exact (between_iff.mp hrange).1.symm.trans (between_iff.mp hrange').1
  · intro uid
    rw [mem_getLocalUsers]
    constructor
    · rintro ⟨key, hkey, hrange, hparse⟩
      obtain ⟨n, u, rfl⟩ := hrelated.keys _ _ hkey
      obtain ⟨rfl, hscanned⟩ := between_iff.mp hrange
      rw [parse_localUserKey, Option.some.injEq] at hparse
      obtain ⟨k, r, hr, huid, hnum⟩ := (hrelated.exact u _ hscanned).mp hkey
      exact ⟨k, r, hr, huid.trans hparse, hc k r hr hnum⟩
    · rintro ⟨k, r, hr, huid, rfl⟩
      have hrow : s.conversations.HasRow uid r.conversation.num := ⟨k, r, hr, huid, rfl⟩
      have hscanned := hrelated.scanned uid _ hrow
      exact ⟨_, (hrelated.exact uid _ hscanned).mpr hrow, between_iff.mpr ⟨rfl, hscanned⟩, parse_localUserKey _ _⟩

end LocalUserDB

/-- The relation as the databases hold it, and the batches that each of them has been handed and has
not carried out yet, the oldest first. -/
structure LocalUserStore where
  conversations : ConversationDB := fun _ => {}
  relation : Nat → Finset Bytes := fun _ => ∅
  queued : Nat → List (List Bytes) := fun _ => []

namespace LocalUserStore
open ConversationDB LocalUserDB
variable (shardNum : Nat) (s : LocalUserStore)

/-- What database `i` is handed: a batch for each user whose first channel is there. The map of
users hands the batches over in an order of its own, but they only add keys. -/
def batches (conversations : List Conversation) (i : Nat) : List (List Bytes) :=
  (((conversations.map (·.uid)).dedup.map fun uid => conversations.filter fun c => c.uid = uid).filter fun group =>
    group.head?.any fun c => channelDbIndex shardNum c.channel = i).map
      fun group => group.map fun c => newConversationLocalUserKey c.num c.uid

def settled : LocalUserDB := ⟨s.conversations, fun i => s.relation i ∪ (s.queued i).flatten.toFinset⟩

/-- Who waits for a batch waits for all that the database was handed before. -/
def carryOut (i : Nat) : LocalUserStore :=
  { s with relation := update s.relation i (s.settled.relation i), queued := update s.queued i [] }

/-- The calls, and a database that carries out the oldest of its batches. -/
inductive Action
  | call (a : ConversationAction)
  | commit (i : Nat)

/-- The batches of an addition are committed without waiting for them, those of a deletion are
waited for. -/
def relate : ConversationAction → LocalUserStore
  | .addOrUpdate conversations => { s with queued := fun i => s.queued i ++ batches shardNum conversations i }
  | .addMissing _ => s
  | .addWithUser uid conversations =>
    if uid = [] then s else { s with queued := fun i => s.queued i ++ batches shardNum conversations i }
  | .seqGreater .. => s
  | .delete uid channel =>
    let s := s.carryOut (channelDbIndex shardNum channel)
    { s with relation := deleteConversationLocalUserRelation shardNum s.relation uid channel }
  | .deleteAll uid channels =>
    let s := s.carryOut (shardId shardNum uid)
    { s with relation := deleteConversationLocalUserRelationWithChannels shardNum s.relation uid channels }

def step (s : LocalUserStore) : Action → Option LocalUserStore
  | .call a => (s.conversations.conversationStep shardNum a).map fun conversations =>
    { s.relate shardNum a with conversations }
  | .commit i => some { s with
      relation := update s.relation i (s.relation i ∪ ((s.queued i).headD []).toFinset)
      queued := update s.queued i (s.queued i).tail }

def Related (s : LocalUserStore) : Prop := s.settled.Related shardNum

def Tidy (s : LocalUserStore) : Action → Prop
  | .call a => s.settled.Tidy shardNum a
  | .commit _ => True

variable {shardNum s} {t : LocalUserStore} {c : Channel}

theorem mem_batches {i : Nat} {key : Bytes} : key ∈ (batches shardNum conversations i).flatten ↔
    ∃ c ∈ conversations, batchDb shardNum conversations c = i ∧ newConversationLocalUserKey c.num c.uid = key := by
  have hhead {c : Conversation} (hc : c ∈ conversations) :
      (conversations.filter fun d => d.uid = c.uid).head?.any (fun d => channelDbIndex shardNum d.channel = i) ↔
        batchDb shardNum conversations c = i := by
    rw [head?_filter, batchDb]
    cases hfind : conversations.find? fun d => d.uid = c.uid with
    | none => exact absurd (find?_eq_none.mp hfind c hc) (by simp)
    | some d => simp
  simp only [batches, mem_flatten, mem_map, mem_filter, mem_dedup]
  constructor
  · rintro ⟨_, ⟨_, ⟨⟨_, ⟨d, hd, rfl⟩, rfl⟩, hdb⟩, rfl⟩, hkey⟩
    obtain ⟨c, hc, rfl⟩ := mem_map.mp hkey
    obtain ⟨hc, huid⟩ := mem_filter.mp hc
    rw [← of_decide_eq_true huid, hhead hc] at hdb
    exact ⟨c, hc, hdb, rfl⟩
  · rintro ⟨c, hc, hdb, rfl⟩
    refine ⟨_, ⟨_, ⟨⟨_, ⟨c, hc, rfl⟩, rfl⟩, (hhead hc).mpr hdb⟩, rfl⟩, mem_map.mpr ⟨c, mem_filter.mpr ⟨hc, ?_⟩, rfl⟩⟩
    exact decide_eq_true rfl

theorem settled_add (i : Nat) : setConversationLocalUserRelation shardNum s.settled.relation conversations i =
    s.relation i ∪ (s.queued i ++ batches shardNum conversations i).flatten.toFinset := by
  ext key
  simp only [settled, mem_setRelation, flatten_append, toFinset_append, Finset.mem_union,
    mem_toFinset, mem_batches, or_assoc]

theorem settled_wait (i j : Nat) (keys : Finset Bytes) : update s.settled.relation i keys j =
    update (s.carryOut i).relation i keys j ∪ ((s.carryOut i).queued j).flatten.toFinset := by
  by_cases hj : j = i
  · simp [hj, carryOut]
  · simp [hj, carryOut, settled]

theorem relate_settled (a : ConversationAction) :
    LocalUserDB.relate shardNum s.settled.relation a = (s.relate shardNum a).settled.relation := by
  have hwaited (i : Nat) : (s.carryOut i).relation i = s.settled.relation i := update_self ..
  cases a with
  | addOrUpdate conversations => exact funext settled_add
  | addMissing _ | seqGreater _ _ _ _ => rfl
  | addWithUser uid conversations =>
    rw [LocalUserDB.relate, relate]
    split
    · rfl
    · exact funext settled_add
  | delete uid channel =>
    funext j
    refine (settled_wait _ j _).trans ?_
    rw [← hwaited]
    rfl
  | deleteAll uid channels =>
    funext j
    refine (settled_wait _ j _).trans ?_
    rw [← hwaited]
    rfl

/-- A call does to the settled relation what it is meant to do, and a batch that is carried out
leaves it as it is. -/
theorem Related.step {a : Action} (h : s.Related shardNum) (ha : s.Tidy shardNum a)
    (hs : s.step shardNum a = some t) : t.Related shardNum := by
  cases a with
  | call a =>
    obtain ⟨db, hdb, rfl⟩ := Option.map_eq_some_iff.mp hs
    refine LocalUserDB.Related.step h ha (Option.map_eq_some_iff.mpr ⟨db, hdb, ?_⟩)
    rw [relate_settled]
    rfl
  | commit i =>
    cases hs
    suffices hsame : s.relation i ∪ (s.queued i).flatten.toFinset =
        (s.relation i ∪ ((s.queued i).headD []).toFinset) ∪ (s.queued i).tail.flatten.toFinset by
      refine Eq.subst (motive := LocalUserDB.Related shardNum) (congrArg (LocalUserDB.mk _) (funext fun j => ?_)) h
      by_cases hj : j = i
      · simpa [hj] using hsame
      · simp [hj]
    cases s.queued i with
    | nil => simp
    | cons batch rest => simp [Finset.union_assoc]

/-- Once the database of a channel has carried out what it was handed, the local users of the
channel are the users that have a row for it, each of them once. -/
theorem local_users_exact (h : Reach (Related shardNum) (step shardNum) (Tidy shardNum) s)
    (hqueued : s.queued (channelDbIndex shardNum c) = [])
    (hc : ∀ k, ∀ r ∈ (s.conversations k).rows, r.conversation.num = channelToNum c → r.conversation.channel = c) :
    (getChannelConversationLocalUsers shardNum s.relation c).Nodup ∧
      ∀ uid, uid ∈ getChannelConversationLocalUsers shardNum s.relation c ↔
        ∃ k, ∃ r ∈ (s.conversations k).rows, r.conversation.uid = uid ∧ r.conversation.channel = c := by
  have hrelated : s.Related shardNum := h.invariant (Related shardNum) (fun _ => id) fun s a t hs ha hstep => hs.step ha hstep
  have hsettled : s.settled.relation (channelDbIndex shardNum c) = s.relation (channelDbIndex shardNum c) := by
    simp [settled, hqueued]
  have hexact : s.settled.ExactFor shardNum c := LocalUserDB.Related.exactFor hrelated hc
  rw [ExactFor, getChannelConversationLocalUsers, hsettled] at hexact
  exact hexact

private theorem related_empty (shardNum : Nat) : Related shardNum {} := by
  refine ⟨fun _ => .nil, ?_, fun _ _ hkey => absurd hkey (Finset.notMem_empty _), fun _ _ _ => ?_⟩
  · rintro uid n ⟨k, r, hr, -⟩
    cases hr
  · refine iff_of_false (Finset.notMem_empty _) ?_
    rintro ⟨k, r, hr, -⟩
    cases hr

private def chat (id : UInt64) (uid channelId : Bytes) : Conversation := { id, uid, channel := ⟨channelId, 2⟩ }

private theorem local_chats (hl : ∀ c ∈ l, c.uid = [117]) :
    Local UserTable.Owned {userKey 8 [117]} fun db => addOrUpdateConversations 8 db l :=
  local_addOrUpdate fun c hc => by rw [hl c hc]; rfl

/-- A user that has been added is one of the local users once the database has carried out the
batch. -/
theorem local_users_exact_added : ∃ s, Reach (Related 8) (step 8) (Tidy 8) s ∧
    [117] ∈ getChannelConversationLocalUsers 8 s.relation ⟨[97], 2⟩ := by
  have hempty : Reach (Related 8) (step 8) (Tidy 8) {} := .init (related_empty 8)
  have htidy : Tidy 8 {} (.call (.addOrUpdate [chat 1 [117] [97]])) := by
    refine ⟨fun e he => ?_, fun c hc _ => .inl ?_⟩
    · obtain rfl : e = (shardId 8 [117], chat 1 [117] [97]) := mem_singleton.mp he
      refine ⟨by decide, nofun, fun e' he' _ _ _ => ?_⟩
      rw [show e' = (shardId 8 [117], chat 1 [117] [97]) from mem_singleton.mp he']
      exact ⟨rfl, rfl⟩
    · rw [mem_singleton.mp hc]
      rfl
  have hadded := hempty.step htidy rfl
  have hdone := hadded.step (a := Action.commit (channelDbIndex 8 ⟨[97], 2⟩)) trivial rfl
  refine ⟨_, hdone, ((local_users_exact hdone (by decide +kernel) fun k r hr _ => ?_).2 [117]).mpr
    ⟨userKey 8 [117], by decide +kernel⟩⟩
  by_cases hk : k = userKey 8 [117]
  · have hall : ∀ r ∈ (addOrUpdateConversations 8 (fun _ => {}) [chat 1 [117] [97]] (userKey 8 [117])).rows,
        r.conversation.channel = ⟨[97], 2⟩ := by decide +kernel
    exact hall r (hk ▸ hr)
  · have hframe : addOrUpdateConversations 8 (fun _ => {}) [chat 1 [117] [97]] k = {} :=
      (local_chats (by simp [chat])).frame _ (fun _ => owned_empty) k hk
    replace hr : r ∈ (addOrUpdateConversations 8 (fun _ => {}) [chat 1 [117] [97]] k).rows := hr
    rw [hframe] at hr
    cases hr

/-- What goes wrong otherwise: the second channel of a batch, in another database; a conversation
that is added because it is missing; a deletion of several channels, whose keys are not in the
user's database; a user whose name the scan leaves out; a row that is written over under another
channel; and a row that a deletion does not find. -/
theorem local_users_exact_fails :
    let Runs (s : LocalUserStore) := Reach (Related 8) (step 8) (fun _ _ => True) s
    let Row (s : LocalUserStore) (uid channelId : Bytes) := ∃ k, ∃ r ∈ (s.conversations k).rows,
      r.conversation.uid = uid ∧ r.conversation.channel = ⟨channelId, 2⟩
    let Listed (s : LocalUserStore) (uid channelId : Bytes) :=
      uid ∈ getChannelConversationLocalUsers 8 s.relation ⟨channelId, 2⟩
    (∃ s, Runs s ∧ Row s [117] [98] ∧ ¬ Listed s [117] [98]) ∧
    (∃ s, Runs s ∧ Row s [117] [97] ∧ ¬ Listed s [117] [97]) ∧
    (∃ s, Runs s ∧ ¬ Row s [117] [97] ∧ Listed s [117] [97]) ∧
    (∃ s, Runs s ∧ Row s [255] [97] ∧ ¬ Listed s [255] [97]) ∧
    (∃ s, Runs s ∧ ¬ Row s [117] [97] ∧ Listed s [117] [97]) ∧
    ∃ s, Runs s ∧ Row s [117] [97] ∧ ¬ Listed s [117] [97] := by
  intro Runs Row Listed
  have hempty : Runs {} := .init (related_empty 8)
  have hmissed (actions : List Action) (uid channelId : Bytes)
      (h : (exec (step 8) (fun _ _ => true) {} actions).any fun s =>
        (s.conversations (userKey 8 uid)).rows.any (fun r =>
          r.conversation.uid = uid && r.conversation.channel = ⟨channelId, 2⟩) &&
        !(getChannelConversationLocalUsers 8 s.relation ⟨channelId, 2⟩).contains uid) :
      ∃ s, Runs s ∧ Row s uid channelId ∧ ¬ Listed s uid channelId := by
    obtain ⟨s, hs, hp⟩ := hempty.exists_of_exec (fun _ _ => true) (fun _ _ _ => trivial) actions _ h
    simp only [Bool.and_eq_true, any_eq_true, decide_eq_true_eq, Bool.not_eq_true', contains_eq_mem,
      decide_eq_false_iff_not] at hp
    exact ⟨s, hs, ⟨_, hp.1⟩, hp.2⟩
  have hstale {s : LocalUserStore} (hs : Runs s) (helsewhere : ∀ k, k ≠ userKey 8 [117] → (s.conversations k).rows = [])
      (hrows : ∀ r ∈ (s.conversations (userKey 8 [117])).rows, r.conversation.channel ≠ ⟨[97], 2⟩)
        (hlisted : Listed s [117] [97]) :
      ∃ s, Runs s ∧ ¬ Row s [117] [97] ∧ Listed s [117] [97] := by
    refine ⟨s, hs, ?_, hlisted⟩
    rintro ⟨k, r, hr, -, hchannel⟩
    by_cases hk : k = userKey 8 [117]
    · exact hrows r (hk ▸ hr) hchannel
    · rw [helsewhere k hk] at hr
      cases hr
  have hfirst := hempty.step (a := .call (.addOrUpdate [chat 1 [117] [97]])) trivial rfl
  have hvalid : Valid UserTable.Owned fun _ => {} := fun _ => owned_empty
  have hadded := local_chats (l := [chat 1 [117] [97]]) (by simp [chat])
  have hagain := hadded.comp (local_chats (l := [chat 1 [117] [105]]) (by simp [chat]))
  refine ⟨hmissed [.call (.addOrUpdate [chat 1 [117] [97], chat 2 [117] [98]]), .commit 3] _ _ (by decide +kernel),
    hmissed [.call (.addMissing [chat 1 [117] [97]])] _ _ (by decide +kernel),
    hstale ((hfirst.step (a := .commit 3) trivial rfl).step (a := .call (.deleteAll [117] [⟨[97], 2⟩])) trivial rfl)
      (fun k hk => ?_) (by decide +kernel) (by decide +kernel),
    hmissed [.call (.addOrUpdate [chat 1 [255] [97]]), .commit 3] _ _ (by decide +kernel),
    hstale ((hfirst.step (a := .commit 3) trivial rfl).step (a := .call (.addOrUpdate [chat 1 [117] [105]])) trivial rfl)
      (fun k hk => ?_) (by decide +kernel) (by decide +kernel),
    hmissed [.call (.addOrUpdate [chat maxUint64 [117] [97]]), .call (.delete [117] ⟨[97], 2⟩)] _ _ (by decide +kernel)⟩
  · exact (rows_deleteChannels _ _ _ k).trans ((if_neg hk).trans (congrArg rows (hadded.frame _ hvalid k hk)))
  · exact congrArg rows (hagain.frame _ hvalid k hk)

end LocalUserStore
end WuKongIM.WKDB

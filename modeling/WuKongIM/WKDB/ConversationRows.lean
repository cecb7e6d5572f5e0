import WuKongIM.Lib.Run
import WuKongIM.Lib.SecondIndex
import WuKongIM.WKDB.ConversationKeys

/-! The rows of the conversations over whole runs: a user has one row for a channel, and the index
of the channels leads to it, as long as the identifiers that are written tell the channels apart. -/
namespace WuKongIM.WKDB
open Lib List Option Function ConversationRow

def Conversation.num (c : Conversation) : UInt64 := channelToNum c.channel

variable {c : Conversation} {shardNum : Nat}

namespace UserTable
variable {k : UserKey} {gaps : Set UInt64} {t : UserTable}

/-- The rows lie under their own user and not under the identifier zero, and the index of the
channels leads to them. -/
structure Indexed (shardNum : Nat) (k : UserKey) (gaps : Set UInt64) (t : UserTable) : Prop where
  ascending : Ascending ConversationRow.key t.rows
  rows : ∀ r ∈ t.rows, r.id ≠ 0 ∧ userKey shardNum r.conversation.uid = k
  second : SecondIndex ConversationRow.id (fun r => r.conversation.num) gaps t.rows t.channelIndex

theorem indexed_empty (shardNum : Nat) (k : UserKey) : ({} : UserTable).Indexed shardNum k ∅ :=
  ⟨.nil, forall_mem_nil _, forall_mem_nil _, forall_mem_nil _⟩

variable {r : ConversationRow} {l : List Conversation}

section
variable (h : t.Indexed shardNum k gaps)
include h

theorem Indexed.congr {t' : UserTable} (hrows : t'.rows = t.rows)
    (hindex : t'.channelIndex = t.channelIndex) : t'.Indexed shardNum k gaps := by
  obtain ⟨hascending, hown, hsecond⟩ := h
  exact ⟨hrows ▸ hascending, hrows ▸ hown, hindex ▸ hrows ▸ hsecond⟩

theorem row_eq_some {id : UInt64} : t.row id = some r ↔ r ∈ t.rows ∧ r.id = id := by
  have hfound {r : ConversationRow} (hr : t.row id = some r) : r ∈ t.rows ∧ r.id = id := by
    have hkey : r.key = id.toNat := by simpa using find?_some hr
    exact ⟨mem_of_find?_eq_some hr, UInt64.toNat_inj.mp hkey⟩
  refine ⟨hfound, fun ⟨hr, hid⟩ => ?_⟩
  cases hrow : t.row id with
  | none =>
    have hkey : r.key = id.toNat := congrArg UInt64.toNat hid
    exact absurd hkey (by simpa using find?_eq_none.mp hrow r hr)
  | some r' =>
    obtain ⟨hr', hid'⟩ := hfound hrow
    rw [h.second.apart r' hr' r hr (hid'.trans hid.symm)]

theorem Indexed.old {channel : Channel} {old : Conversation}
    (ho : t.oldConversation channel = some old) : ∃ r ∈ t.rows, old = r.conversation := by
  obtain ⟨ho, -⟩ := filter_eq_some_iff.mp ho
  rw [getConversation] at ho
  split at ho
  · cases ho
  · obtain ⟨r, hr, rfl⟩ := map_eq_some_iff.mp ho
    exact ⟨r, ((row_eq_some h).mp hr).1, rfl⟩

theorem Indexed.put {x : ConversationRow} (hk : userKey shardNum x.conversation.uid = k)
    (h0 : x.id ≠ 0) (hagree : ∀ r ∈ t.rows, r.conversation.num = x.conversation.num → r.id = x.id) :
    ({ t with rows := put key x t.rows
              channelIndex := update t.channelIndex x.conversation.num (some x.id) } : UserTable).Indexed
      shardNum k (gaps \ {x.id}) := by
  have hmem (r : ConversationRow) : r ∈ Lib.put key x t.rows ↔ r = x ∨ r ∈ t.rows ∧ r.id ≠ x.id := by
    rw [mem_put h.ascending]
    simp only [key, ne_eq, UInt64.toNat_inj]
  refine ⟨h.ascending.put x, fun r hr => ?_, h.second.write hmem hagree⟩
  rcases (hmem r).mp hr with rfl | ⟨hr, -⟩
  · exact ⟨h0, hk⟩
  · exact h.rows r hr

def writtenRow (t : UserTable) (c : Conversation) : ConversationRow :=
  let r := (t.row c.id).getD { id := c.id }
  { r with
    id := c.id
    uid := some c.uid
    channelId := some c.channel.id
    channelType := some c.channel.type
    type := some c.type
    unreadCount := some c.unreadCount
    readedToMsgSeq := some c.readToMsgSeq
    createdAt := c.createdAt <|> r.createdAt
    updatedAt := c.updatedAt <|> r.updatedAt }

theorem Indexed.write (hk : userKey shardNum c.uid = k) (h0 : c.id ≠ 0)
    (hagree : ∀ r ∈ t.rows, r.conversation.num = c.num → r.id = c.id) :
    (t.writeConversation c).Indexed shardNum k (gaps \ {c.id}) ∧
      ∀ r ∈ (t.writeConversation c).rows, r.id = c.id ∧ r.conversation.num = c.num ∨ r ∈ t.rows := by
  constructor
  · exact (h.put (x := t.writtenRow c) hk h0 hagree).congr rfl rfl
  intro r hr
  rcases mem_of_mem_put hr with rfl | hr
  · exact .inl ⟨rfl, rfl⟩
  · exact .inr hr

theorem Indexed.writes (hl : ∀ c ∈ l, userKey shardNum c.uid = k ∧ c.id ≠ 0 ∧
      (∀ r ∈ t.rows, r.conversation.num = c.num → r.id = c.id) ∧ ∀ c' ∈ l, c'.num = c.num → c'.id = c.id) :
    (l.foldl (fun t c => t.writeConversation c) t).Indexed shardNum k (gaps \ {i | ∃ c ∈ l, c.id = i}) := by
  induction l generalizing t gaps with
  | nil =>
    refine ⟨h.ascending, h.rows, h.second.mono fun r _ hr => ⟨hr, ?_⟩⟩
    rintro ⟨c, hc, hid⟩
    cases hc
  | cons c l ih =>
    obtain ⟨hk, h0, hrows, hsame⟩ := hl c (.head l)
    obtain ⟨hwritten, hmem⟩ := h.write hk h0 hrows
    have hrest := ih hwritten fun c' hc' => by
      obtain ⟨hk', h0', hrows', hsame'⟩ := hl c' (mem_cons_of_mem c hc')
      refine ⟨hk', h0', fun r hr => ?_, fun c'' hc'' => hsame' c'' (mem_cons_of_mem c hc'')⟩
      rcases hmem r hr with ⟨hid, hnum⟩ | hr
      · rw [hid, hnum]
        exact hsame' c (.head l)
      · exact hrows' r hr
    refine ⟨hrest.ascending, hrest.rows, hrest.second.mono fun r _ hr => ?_⟩
    obtain ⟨⟨hgap, hne⟩, hnot⟩ := hr
    refine ⟨hgap, ?_⟩
    rintro ⟨c', hc', hid⟩
    rcases mem_cons.mp hc' with rfl | hc'
    · exact hne hid.symm
    · exact hnot ⟨c', hc', hid⟩

end

theorem channelIndex_deletes (l : List Conversation) (t : UserTable) {n : UInt64} (hn : ∀ c ∈ l, c.num ≠ n) :
    (l.foldl (fun t c => t.deleteConversationIndex c) t).channelIndex n = t.channelIndex n := by
  induction l generalizing t with
  | nil => rfl
  | cons c l ih =>
    rw [foldl_cons, ih _ fun c' hc' => hn c' (mem_cons_of_mem c hc')]
    exact update_of_ne (Ne.symm (hn c (.head l))) ..

theorem rows_deletes (l : List Conversation) (t : UserTable) :
    (l.foldl (fun t c => t.deleteConversationIndex c) t).rows = t.rows := by
  induction l generalizing t with
  | nil => rfl
  | cons c l ih => exact (ih (t.deleteConversationIndex c)).trans rfl

theorem rows_deleteColumns (ids : List UInt64) (t : UserTable) :
    (ids.foldl (fun t id => t.deleteColumns id) t).rows = t.rows.filter fun r => r.id ∉ ids := by
  induction ids generalizing t with
  | nil => simp
  | cons id ids ih =>
    rw [foldl_cons, ih, deleteColumns]
    simp [Bool.and_comm]

theorem channelIndex_deleteColumns (ids : List UInt64) (t : UserTable) :
    (ids.foldl (fun t id => t.deleteColumns id) t).channelIndex = t.channelIndex := by
  induction ids generalizing t with
  | nil => rfl
  | cons id ids ih => exact (ih (t.deleteColumns id)).trans rfl

section
variable (h : t.Indexed shardNum k ∅)
include h

theorem Indexed.getConversation (hr : r ∈ t.rows) :
    t.getConversation r.conversation.channel = some r.conversation := by
  have hlookup : t.channelIndex (channelToNum r.conversation.channel) = some r.id := h.second.lookup r hr (Set.notMem_empty _)
  rw [UserTable.getConversation, getConversationIdByChannel, hlookup]
  dsimp only [getD_some]
  rw [if_neg (h.rows r hr).1, (row_eq_some h).mpr ⟨hr, rfl⟩]
  rfl

theorem Indexed.setColumns (hr : r ∈ t.rows) {set : ConversationRow → ConversationRow}
    (hset : (set r).id = r.id ∧ (set r).conversation.uid = r.conversation.uid ∧
      (set r).conversation.num = r.conversation.num) :
    (t.setColumns r.id set).Indexed shardNum k ∅ := by
  obtain ⟨hid, huid, hnum⟩ := hset
  have hput := h.put (huid ▸ (h.rows r hr).2) (hid ▸ (h.rows r hr).1) fun r' hr' heq => by
    rw [h.second.unique hr' hr (heq.trans hnum), hid]
  rw [Set.empty_sdiff] at hput
  refine hput.congr ?_ ?_
  · rw [UserTable.setColumns, (row_eq_some h).mpr ⟨hr, rfl⟩]
    rfl
  · dsimp only [UserTable.setColumns]
    rw [hid, hnum, ← h.second.lookup r hr (Set.notMem_empty _), update_eq_self]

variable (hl : ∀ c ∈ l, ∃ r ∈ t.rows, c = r.conversation)
include hl

theorem Indexed.deletes :
    (l.foldl (fun t c => t.deleteConversationIndex c) t).Indexed shardNum k {i | ∃ c ∈ l, c.id = i} := by
  have hrows := rows_deletes l t
  refine ⟨hrows ▸ h.ascending, hrows ▸ h.rows, ?_⟩
  rw [hrows]
  refine (h.second.forget (fun r => r ∈ t.rows ∧ r.conversation ∈ l) (fun _ hr => hr.1) fun n hn => ?_).mono fun r _ hr => ?_
  · refine channelIndex_deletes l t fun c hc => ?_
    obtain ⟨r, hr, rfl⟩ := hl c hc
    exact hn r ⟨hr, hc⟩
  · obtain ⟨r', ⟨-, hr'⟩, hid⟩ := hr
    exact ⟨r'.conversation, hr', hid⟩

theorem Indexed.dropRows :
    ((l.map (·.id)).foldl (fun t id => t.deleteColumns id) (l.foldl (fun t c => t.deleteConversationIndex c) t)).Indexed
      shardNum k ∅ := by
  have hdeleted := h.deletes hl
  have hrows := rows_deleteColumns (l.map (·.id)) (l.foldl (fun t c => t.deleteConversationIndex c) t)
  refine ⟨hrows ▸ hdeleted.ascending.filter _, fun r hr => hdeleted.rows r (mem_of_mem_filter (hrows ▸ hr)), ?_⟩
  rw [hrows, channelIndex_deleteColumns]
  refine hdeleted.second.drop fun r => ?_
  rw [mem_filter, decide_eq_true_eq, List.mem_map]
  rfl

end

theorem mem_iterate_of_ne_zero {rows : List ConversationRow} (hr : r ∈ rows) (h0 : r.id ≠ 0) :
    r.conversation ∈ iterateConversation rows := by
  induction rows using iterateConversation.induct with
  | case1 => cases hr
  | case2 r' =>
    rw [mem_singleton.mp hr]
    exact .head _
  | case3 r' rows hne hid ih =>
    rw [iterateConversation, if_pos hid]
    · rcases mem_cons.mp hr with rfl | hr
      · exact absurd hid h0
      · exact ih hr
    · exact hne
  | case4 r' rows hne hid ih =>
    rw [iterateConversation, if_neg hid]
    · rcases mem_cons.mp hr with rfl | hr
      · exact .head _
      · exact mem_cons_of_mem _ (ih hr)
    · exact hne

end UserTable

namespace ConversationDB
variable {db : ConversationDB} {db' : ConversationDB} {γ : Type}

theorem foldl_modify (key : γ → UserKey) (f : γ → UserTable → UserTable) (l : List γ) (db : ConversationDB) (k : UserKey) :
    l.foldl (fun db e => modify db (key e) (f e)) db k = (l.filter fun e => key e = k).foldl (fun t e => f e t) (db k) := by
  induction l generalizing db with
  | nil => rfl
  | cons e l ih =>
    rw [foldl_cons, ih]
    by_cases hk : key e = k
    · rw [filter_cons_of_pos (by simpa using hk), foldl_cons, ← hk, modify_self]
    · rw [filter_cons_of_neg (by simpa using hk), modify_of_ne (Ne.symm hk)]

theorem commit_apply (db : ConversationDB) (b : Batch) (k : UserKey) : db.commit b k =
    ((b.setKvs.filter fun e => ⟨e.1, hashWithString e.2.uid⟩ = k).map Prod.snd).foldl (fun t c => t.writeConversation c)
      (((b.delRangeKvs.filter fun e => e.1 = k).map Prod.snd).foldl (fun t id => t.deleteColumns id)
        (((b.delKvs.filter fun e => ⟨e.1, hashWithString e.2.uid⟩ = k).map Prod.snd).foldl
          (fun t c => t.deleteConversationIndex c) (db k))) := by
  rw [commit, foldl_modify, foldl_modify, foldl_modify, foldl_map, foldl_map, foldl_map]

def Exact (shardNum : Nat) (db : ConversationDB) : Prop := ∀ k, (db k).Indexed shardNum k ∅

theorem Exact.congr (h : db.Exact shardNum)
    (hsame : ∀ k, (db' k).rows = (db k).rows ∧ (db' k).channelIndex = (db k).channelIndex) : db'.Exact shardNum :=
  fun k => (h k).congr (hsame k).1 (hsame k).2

/-- A batch writes each conversation to the table of its user, under an identifier that is not zero
and that the rows there and the rest of the batch have for its channel. -/
def Agrees (shardNum : Nat) (db : ConversationDB) (writes : List (Nat × Conversation)) : Prop :=
  ∀ e ∈ writes, e.1 = shardId shardNum e.2.uid ∧ e.2.id ≠ 0 ∧
    (∀ r ∈ (db (userKey shardNum e.2.uid)).rows, r.conversation.num = e.2.num → r.id = e.2.id) ∧
    ∀ e' ∈ writes, userKey shardNum e'.2.uid = userKey shardNum e.2.uid → e'.2.num = e.2.num → e'.2.id = e.2.id

/-- What a batch deletes from the index are rows of the database, and it writes them again. -/
def Rewrites (db : ConversationDB) (b : Batch) : Prop :=
  ∀ e ∈ b.delKvs, (∃ r ∈ (db ⟨e.1, hashWithString e.2.uid⟩).rows, e.2 = r.conversation) ∧
    ∃ e' ∈ b.setKvs, e'.1 = e.1 ∧ hashWithString e'.2.uid = hashWithString e.2.uid ∧ e'.2.id = e.2.id

theorem Exact.commit_writes (h : db.Exact shardNum) {b : Batch} (hrange : b.delRangeKvs = [])
    (hwrites : db.Agrees shardNum b.setKvs)
    (hdel : db.Rewrites b) : (db.commit b).Exact shardNum := by
  intro k
  rw [commit_apply, hrange]
  have hkey {e : Nat × Conversation} (he : e ∈ b.setKvs) (hk : ⟨e.1, hashWithString e.2.uid⟩ = k) :
      userKey shardNum e.2.uid = k := by
    rw [← hk, (hwrites e he).1]
    rfl
  have hdeleted := (h k).deletes (l := (b.delKvs.filter fun e => ⟨e.1, hashWithString e.2.uid⟩ = k).map Prod.snd)
    fun c hc => by
      obtain ⟨e, he, rfl⟩ := mem_map.mp hc
      obtain ⟨he, hk⟩ := mem_filter.mp he
      rw [← of_decide_eq_true hk]
      exact (hdel e he).1
  have hwritten := hdeleted.writes
    (l := (b.setKvs.filter fun e => ⟨e.1, hashWithString e.2.uid⟩ = k).map Prod.snd) fun c hc => by
      obtain ⟨e, he, rfl⟩ := mem_map.mp hc
      obtain ⟨he, hk⟩ := mem_filter.mp he
      obtain ⟨-, h0, hrows, hsame⟩ := hwrites e he
      have hek := hkey he (of_decide_eq_true hk)
      refine ⟨hek, h0, fun r hr => ?_, fun c' hc' => ?_⟩
      · rw [UserTable.rows_deletes, ← hek] at hr
        exact hrows r hr
      · obtain ⟨e', he', rfl⟩ := mem_map.mp hc'
        obtain ⟨he', hk'⟩ := mem_filter.mp he'
        exact hsame e' he' ((hkey he' (of_decide_eq_true hk')).trans hek.symm)
  refine ⟨hwritten.ascending, hwritten.rows, hwritten.second.mono fun r _ hr => ?_⟩
  -- every row that was taken out of the index has been written again
  obtain ⟨⟨c, hc, hid⟩, hnot⟩ := hr
  obtain ⟨e, he, rfl⟩ := mem_map.mp hc
  obtain ⟨he, hk⟩ := mem_filter.mp he
  obtain ⟨-, e', he', hshard, hhash, hid'⟩ := hdel e he
  refine absurd ⟨e'.2, mem_map.mpr ⟨e', mem_filter.mpr ⟨he', ?_⟩, rfl⟩, hid'.trans hid⟩ hnot
  rw [hshard, hhash]
  exact hk

theorem same_setRelation (shardNum : Nat) (db : ConversationDB) (conversations : List Conversation) (k : UserKey) :
    (setConversationLocalUserRelation shardNum db conversations k).rows = (db k).rows ∧
      (setConversationLocalUserRelation shardNum db conversations k).channelIndex = (db k).channelIndex := by
  rw [setConversationLocalUserRelation, foldl_modify]
  generalize conversations.filter _ = l
  generalize db k = t
  induction l generalizing t with
  | nil => exact ⟨rfl, rfl⟩
  | cons c l ih => exact ih _

inductive ConversationAction
  | addOrUpdate (conversations : List Conversation)
  | addMissing (conversations : List Conversation)
  | addWithUser (uid : Bytes) (conversations : List Conversation)
  | seqGreater (now : UInt64) (uid : Bytes) (channel : Channel) (readToMsgSeq : UInt64)
  | delete (uid : Bytes) (channel : Channel)
  | deleteAll (uid : Bytes) (channels : List Channel)

variable (shardNum) (db)

def conversationStep : ConversationAction → Option ConversationDB
  | .addOrUpdate conversations => some (db.addOrUpdateConversations shardNum conversations)
  | .addMissing conversations => some (db.addOrUpdateConversationsBatchIfNotExist shardNum conversations)
  | .addWithUser uid conversations => some (db.addOrUpdateConversationsWithUser shardNum uid conversations)
  | .seqGreater now uid channel readToMsgSeq => some (db.updateConversationIfSeqGreater shardNum now uid channel readToMsgSeq)
  | .delete uid channel => some (db.deleteConversation shardNum uid channel)
  | .deleteAll uid channels => some (db.deleteConversations shardNum uid channels)

def written : ConversationAction → List (Nat × Conversation)
  | .addOrUpdate conversations =>
    (conversations.filter fun c => c.uid ≠ []).flatMap fun c => (addOrUpdate shardNum db c.uid c).setKvs
  | .addMissing conversations => (conversations.filter fun c =>
      c.uid ≠ [] && !(db (userKey shardNum c.uid)).existConversation c.channel).map fun c => (shardId shardNum c.uid, c)
  | .addWithUser uid conversations => if uid = [] then [] else conversations.flatMap fun c =>
      (addOrUpdate shardNum db uid c).setKvs
  | _ => []

/-- What is written agrees, and a conversation of another user does not replace one of the user
named. -/
def Tidy (a : ConversationAction) : Prop :=
  db.Agrees shardNum (db.written shardNum a) ∧
    match a with
    | .addWithUser uid conversations => ∀ c ∈ conversations, ∀ old,
        (db (userKey shardNum uid)).oldConversation c.channel = some old → hashWithString c.uid = hashWithString uid
    | _ => True

variable {shardNum} {db} {uid : Bytes}

section
variable (h : db.Exact shardNum)
include h

theorem Exact.addOrUpdate
    (hc : ∀ old, (db (userKey shardNum uid)).oldConversation c.channel = some old →
      hashWithString c.uid = hashWithString uid) :
    (addOrUpdate shardNum db uid c).delRangeKvs = [] ∧ db.Rewrites (addOrUpdate shardNum db uid c) := by
  rw [ConversationDB.addOrUpdate]
  cases ho : (db (userKey shardNum uid)).oldConversation c.channel with
  | none => exact ⟨rfl, forall_mem_nil _⟩
  | some old =>
    refine ⟨rfl, fun e he => ?_⟩
    rw [mem_singleton.mp he]
    obtain ⟨r, hr, rfl⟩ := (h _).old ho
    have hhash : hashWithString r.conversation.uid = hashWithString uid := congrArg UserKey.hash ((h _).rows r hr).2
    refine ⟨⟨r, ?_, rfl⟩, _, .head [], rfl, (hc _ ho).trans hhash.symm, rfl⟩
    rw [hhash]
    exact hr

theorem Exact.addAll {f : γ → Batch} {l : List γ} {conversations : List Conversation}
    (hf : ∀ c ∈ l, (f c).delRangeKvs = [] ∧ db.Rewrites (f c))
    (hwrites : db.Agrees shardNum (l.flatMap fun c => (f c).setKvs)) :
    ((setConversationLocalUserRelation shardNum db conversations).commit (l.foldl (fun b c => b ++ f c) {})).Exact shardNum := by
  have hsame := same_setRelation shardNum db conversations
  rw [foldl_batch]
  refine (h.congr hsame).commit_writes ?_ (fun e he => ?_) fun e he => ?_
  · exact flatMap_eq_nil_iff.mpr fun c hc => (hf c hc).1
  · obtain ⟨hshard, h0, hrows, hothers⟩ := hwrites e he
    exact ⟨hshard, h0, fun r hr => hrows r ((hsame _).1 ▸ hr), hothers⟩
  · obtain ⟨c, hc, he⟩ := mem_flatMap.mp he
    obtain ⟨hrow, e', he', hsame'⟩ := (hf c hc).2 e he
    exact ⟨(hsame _).1.symm ▸ hrow, e', mem_flatMap.mpr ⟨c, hc, he'⟩, hsame'⟩

theorem Exact.seqGreater (now : UInt64) (uid : Bytes) (channel : Channel) (readToMsgSeq : UInt64) :
    (db.updateConversationIfSeqGreater shardNum now uid channel readToMsgSeq).Exact shardNum := by
  rw [updateConversationIfSeqGreater]
  cases ho : (db (userKey shardNum uid)).oldConversation channel with
  | none => exact h
  | some old =>
    dsimp only
    split
    · exact h
    obtain ⟨r, hr, rfl⟩ := (h _).old ho
    intro k
    by_cases hk : k = userKey shardNum uid
    · rw [hk, modify_self]
      exact (h _).setColumns hr ⟨rfl, rfl, rfl⟩
    · rw [modify_of_ne hk]
      exact h k

end

def doomed (t : UserTable) (channels : List Channel) : List Conversation :=
  channels.flatMap fun c => t.getConversations.filter fun old => old.channel = c

theorem doomed_row {t : UserTable} {channels : List Channel} {old : Conversation}
    (h : old ∈ doomed t channels) : ∃ r ∈ t.rows, old = r.conversation := by
  obtain ⟨c, -, hold⟩ := mem_flatMap.mp h
  obtain ⟨r, hr, heq⟩ := UserTable.mem_iterate (mem_of_mem_filter hold)
  exact ⟨r, mem_of_mem_filter hr, heq⟩

theorem foldl_deleteRows (db : ConversationDB) (uid : Bytes) (channels : List (Nat × Channel)) :
    let olds := doomed (db (userKey shardNum uid)) (channels.map Prod.snd)
    channels.foldl (fun batch c => batch ++ deleteConversationRows shardNum db uid c.2) {} =
      { delKvs := olds.map fun old => (shardId shardNum uid, old)
        delRangeKvs := olds.map fun old => (userKey shardNum uid, old.id) } := by
  rw [foldl_batch]
  have hset : (channels.flatMap fun _ => ([] : List (Nat × Conversation))) = [] := flatMap_eq_nil_iff.mpr fun _ _ => rfl
  simp only [deleteConversationRows, doomed, map_flatMap, flatMap_map, nil_append, hset]

theorem deleteChannels_apply (h : db.Exact shardNum) (uid : Bytes) (channels : List (Nat × Channel)) (k : UserKey) :
    let olds := if k = userKey shardNum uid then doomed (db k) (channels.map Prod.snd) else []
    db.deleteChannels shardNum uid channels k = (olds.map (·.id)).foldl (fun t id => t.deleteColumns id)
      (olds.foldl (fun t c => t.deleteConversationIndex c) (deleteConversationLocalUserRelation shardNum db uid channels k)) := by
  have hkey (old : Conversation) (hold : old ∈ doomed (db (userKey shardNum uid)) (channels.map Prod.snd)) :
      ⟨shardId shardNum uid, hashWithString old.uid⟩ = userKey shardNum uid := by
    obtain ⟨r, hr, rfl⟩ := doomed_row hold
    have hhash := congrArg UserKey.hash ((h _).rows r hr).2
    exact congrArg (UserKey.mk _) hhash
  rw [deleteChannels, foldl_deleteRows, commit_apply]
  by_cases hk : k = userKey shardNum uid
  · rw [hk, filter_eq_self.mpr, filter_eq_self.mpr]
    · simp [comp_def]
    · simp
    · exact forall_mem_map.mpr fun old hold => decide_eq_true (hkey old hold)
  · rw [if_neg hk, filter_eq_nil_iff.mpr, filter_eq_nil_iff.mpr]
    · rfl
    · simp [Ne.symm hk]
    · intro e he
      obtain ⟨old, hold, rfl⟩ := mem_map.mp he
      rw [decide_eq_true_eq, hkey old hold]
      exact Ne.symm hk

theorem same_deleteRelation (shardNum : Nat) (db : ConversationDB) (uid : Bytes) (channels : List (Nat × Channel))
    (k : UserKey) : (deleteConversationLocalUserRelation shardNum db uid channels k).rows = (db k).rows ∧
      (deleteConversationLocalUserRelation shardNum db uid channels k).channelIndex = (db k).channelIndex := by
  rw [deleteConversationLocalUserRelation]
  by_cases hk : k = userKey shardNum uid
  · rw [hk, modify_self]
    exact ⟨rfl, rfl⟩
  · rw [modify_of_ne hk]
    exact ⟨rfl, rfl⟩

section
variable (h : db.Exact shardNum)
include h

theorem Exact.deleteChannels (uid : Bytes) (channels : List (Nat × Channel)) :
    (db.deleteChannels shardNum uid channels).Exact shardNum := by
  intro k
  obtain ⟨hrows, hindex⟩ := same_deleteRelation shardNum db uid channels k
  rw [deleteChannels_apply h]
  refine ((h k).congr hrows hindex).dropRows fun c hc => ?_
  rw [hrows]
  split at hc
  · exact doomed_row hc
  · cases hc

theorem Exact.not_mem_deleteChannels {channels : List (Nat × Channel)}
    (hc : c ∈ (db.deleteChannels shardNum uid channels (userKey shardNum uid)).getConversations) :
    c.channel ∉ channels.map Prod.snd := by
  obtain ⟨r, hr, rfl⟩ := UserTable.mem_iterate hc
  obtain ⟨hr, hmax⟩ := mem_filter.mp hr
  obtain ⟨hrows, -⟩ := same_deleteRelation shardNum db uid channels (userKey shardNum uid)
  rw [deleteChannels_apply h, if_pos rfl, UserTable.rows_deleteColumns, UserTable.rows_deletes, hrows] at hr
  obtain ⟨hr, hkept⟩ := mem_filter.mp hr
  intro hchannel
  refine of_decide_eq_true hkept (mem_map.mpr ⟨r.conversation, mem_flatMap.mpr ⟨_, hchannel, ?_⟩, rfl⟩)
  refine mem_filter.mpr ⟨?_, decide_eq_true rfl⟩
  exact UserTable.mem_iterate_of_ne_zero (mem_filter.mpr ⟨hr, hmax⟩) ((h _).rows r hr).1

theorem Exact.step {a : ConversationAction} (ha : db.Tidy shardNum a)
    (hs : db.conversationStep shardNum a = some db') : db'.Exact shardNum := by
  obtain ⟨hagrees, hold⟩ := ha
  cases a with
    cases hs
  | addOrUpdate conversations =>
    rw [addOrUpdateConversations]
    split
    · exact h
    · exact h.addAll (fun c _ => h.addOrUpdate fun _ _ => rfl) hagrees
  | addMissing conversations =>
    exact h.commit_writes rfl hagrees (forall_mem_nil _)
  | addWithUser uid conversations =>
    rw [addOrUpdateConversationsWithUser]
    split
    · exact h
    · next hu =>
      rw [written, if_neg hu] at hagrees
      exact h.addAll (fun c hc => h.addOrUpdate (hold c hc)) hagrees
  | seqGreater now uid channel readToMsgSeq =>
    exact h.seqGreater now uid channel readToMsgSeq
  | delete uid channel | deleteAll uid channels =>
    exact h.deleteChannels uid _

end

/-- A user has one row for a channel, which is handed out for it, and none is found after it has
been deleted. -/
theorem conversation_rows_single (h : Reach (Exact shardNum) (conversationStep shardNum) (Tidy shardNum) db) :
    (∀ k k' r r', r ∈ (db k).rows → r' ∈ (db k').rows → r.conversation.uid = r'.conversation.uid →
      r.conversation.channel = r'.conversation.channel → k = k' ∧ r = r') ∧
    (∀ k r, r ∈ (db k).rows →
      (db (userKey shardNum r.conversation.uid)).getConversation r.conversation.channel = some r.conversation) ∧
    ∀ uid c, ∀ x ∈ (db.deleteConversation shardNum uid c (userKey shardNum uid)).getConversations, x.channel ≠ c := by
  have hexact : db.Exact shardNum := h.invariant (Exact shardNum) (fun _ => id) fun db a db' hdb ha hs => hdb.step ha hs
  refine ⟨fun k k' r r' hr hr' huid hchannel => ?_, fun k r hr => ?_, fun uid c x hx => ?_⟩
  · have hk : k = k' := by rw [← ((hexact k).rows r hr).2, huid, ((hexact k').rows r' hr').2]
    subst hk
    exact ⟨rfl, (hexact k).second.unique hr hr' (congrArg channelToNum hchannel)⟩
  · rw [((hexact k).rows r hr).2]
    exact (hexact k).getConversation hr
  · have hnot := hexact.not_mem_deleteChannels hx
    exact fun heq => hnot (mem_singleton.mpr heq)

private theorem exact_empty (shardNum : Nat) : Exact shardNum fun _ => {} := UserTable.indexed_empty shardNum

private def talk (id : UInt64) (uid channelId : Bytes) : Conversation := { id, uid, channel := ⟨channelId, 2⟩ }

/-- A conversation that is added again under another identifier keeps the one it has. -/
theorem conversation_rows_single_added :
    let first := addOrUpdateConversations 8 (fun _ => {}) [talk 1 [117] [97]]
    let db := addOrUpdateConversations 8 first [{ talk 5 [117] [97] with readToMsgSeq := 3 }, talk 6 [117] [98]]
    Reach (Exact 8) (conversationStep 8) (Tidy 8) db ∧
    (db (userKey 8 [117])).getConversation ⟨[97], 2⟩ = some { talk 1 [117] [97] with readToMsgSeq := 3 } := by
  intro first db
  have hfirst : Tidy 8 (fun _ => {}) (.addOrUpdate [talk 1 [117] [97]]) := ⟨by unfold Agrees; decide +kernel, trivial⟩
  have hagain : Tidy 8 first (.addOrUpdate [{ talk 5 [117] [97] with readToMsgSeq := 3 }, talk 6 [117] [98]]) :=
    ⟨by unfold Agrees; decide +kernel, trivial⟩
  have hadded : Reach (Exact 8) (conversationStep 8) (Tidy 8) db :=
    .step (a := .addOrUpdate _) (.step (a := .addOrUpdate _) (.init (exact_empty 8)) hfirst rfl) hagain rfl
  have hrow : ∃ r ∈ (db (userKey 8 [117])).rows, r.conversation = { talk 1 [117] [97] with readToMsgSeq := 3 } := by
    decide +kernel
  obtain ⟨r, hr, heq⟩ := hrow
  have hfound := (conversation_rows_single hadded).2.1 _ r hr
  rw [heq] at hfound
  exact ⟨hadded, hfound⟩

/-- What goes wrong otherwise: a channel twice in one batch; the identifier zero; a channel without
a name, which counts as having no conversation; a conversation of another user, in a database that
is not that user's, or in the place of one of the user named. -/
theorem conversation_rows_single_fails :
    let Runs (db : ConversationDB) := Reach (Exact 8) (conversationStep 8) (fun _ _ => True) db
    (∃ db, Runs db ∧ (db (userKey 8 [117])).rows.map (·.conversation) = [talk 1 [117] [97], talk 2 [117] [97]]) ∧
    (∃ db, Runs db ∧ (db (userKey 8 [117])).rows.map (·.conversation) = [talk 0 [117] [97]] ∧
      (db (userKey 8 [117])).getConversation ⟨[97], 2⟩ = none) ∧
    (∃ db, Runs db ∧ (db (userKey 8 [117])).rows.map (·.conversation) = [talk 1 [117] [], talk 2 [117] []]) ∧
    (∃ db, Runs db ∧ (db ⟨shardId 8 [117], hashWithString [118]⟩).rows.map (·.conversation) = [talk 1 [118] [97]] ∧
      (db (userKey 8 [118])).getConversation ⟨[97], 2⟩ = none) ∧
    ∃ db, Runs db ∧ (db (userKey 8 [117])).rows.map (·.conversation) = [talk 1 [117] [97]] ∧
      (db (userKey 8 [117])).getConversation ⟨[97], 2⟩ = none := by
  have hempty : Reach (Exact 8) (conversationStep 8) (fun _ _ => True) fun _ => {} := .init (exact_empty 8)
  exact ⟨hempty.exists_of_run [.addOrUpdate [talk 1 [117] [97], talk 2 [117] [97]]] _ (by decide +kernel),
    hempty.exists_of_run [.addOrUpdate [talk 0 [117] [97]]] _ (by decide +kernel),
    hempty.exists_of_run [.addOrUpdate [talk 1 [117] []], .addOrUpdate [talk 2 [117] []]] _ (by decide +kernel),
    hempty.exists_of_run [.addWithUser [117] [talk 1 [118] [97]]] _ (by decide +kernel),
    hempty.exists_of_run [.addOrUpdate [talk 1 [117] [97]], .addWithUser [117] [talk 2 [118] [97]]] _ (by decide +kernel)⟩

end ConversationDB
end WuKongIM.WKDB

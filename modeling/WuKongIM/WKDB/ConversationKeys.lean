import WuKongIM.Lib.Footprint
import WuKongIM.WKDB.Conversation

/-! Where the functions on conversations read and write. -/
namespace WuKongIM.WKDB
open Lib List Option Function ConversationRow

/-- Every row lies under the hash of its own user, and a row without a user has no channel. -/
def UserTable.Owned (k : UserKey) (t : UserTable) : Prop :=
  ∀ r ∈ t.rows, (r.uid = none → r.channelId = none) ∧ ∀ u, r.uid = some u → hashWithString u = k.hash

namespace UserTable
variable {k : UserKey} {t : UserTable}

theorem owned_empty : ({} : UserTable).Owned k := nofun

section
variable (h : t.Owned k) {r : ConversationRow}
include h

theorem Owned.row {id : UInt64} (hr : t.row id = some r) :
    (r.uid = none → r.channelId = none) ∧ ∀ u, r.uid = some u → hashWithString u = k.hash :=
  h r (mem_of_find?_eq_some hr)

theorem Owned.deleteConversationIndex (c : Conversation) : (t.deleteConversationIndex c).Owned k := h

theorem Owned.deleteColumns (id : UInt64) : (t.deleteColumns id).Owned k :=
  fun r hr => h r (mem_of_mem_filter hr)

theorem Owned.put (hr : (r.uid = none → r.channelId = none) ∧ ∀ u, r.uid = some u → hashWithString u = k.hash) :
    { t with rows := put key r t.rows }.Owned k := by
  intro r' hr'
  rcases mem_of_mem_put hr' with rfl | hr'
  · exact hr
  · exact h r' hr'

/-- Columns other than the user and the channel may be set in any row. -/
theorem Owned.setColumns (id : UInt64) {set : ConversationRow → ConversationRow}
    (hset : ∀ r, (set r).uid = r.uid ∧ (set r).channelId = r.channelId) : (t.setColumns id set).Owned k := by
  apply h.put
  rw [(hset _).1, (hset _).2]
  cases hr : t.row id with
  | none => exact ⟨fun _ => rfl, nofun⟩
  | some r => exact h.row hr

end

variable {c : Conversation}

theorem Owned.writeConversation (h : t.Owned k) (hc : hashWithString c.uid = k.hash) : (t.writeConversation c).Owned k := by
  refine Owned.put h ⟨fun hn => absurd hn (some_ne_none _), fun u hu => ?_⟩
  cases hu
  exact hc

theorem Owned.oldConversation (h : t.Owned k) {c : Channel} {old : Conversation}
    (ho : t.oldConversation c = some old) : hashWithString old.uid = k.hash := by
  rw [UserTable.oldConversation, filter_eq_some_iff, getConversation] at ho
  obtain ⟨ho, hne⟩ := ho
  split at ho
  · cases ho
  obtain ⟨r, hr, rfl⟩ := map_eq_some_iff.mp ho
  obtain ⟨hnone, hsome⟩ := h.row hr
  cases hu : r.uid with
  | none => simp [conversation, hnone hu] at hne
  | some u =>
    have : r.conversation.uid = u := by simp [conversation, hu]
    rw [this]
    exact hsome u hu

theorem mem_iterate {rows : List ConversationRow} (h : c ∈ iterateConversation rows) :
    ∃ r ∈ rows, c = r.conversation := by
  induction rows using iterateConversation.induct with
  | case1 => exact absurd h not_mem_nil
  | case2 r => exact ⟨r, .head _, mem_singleton.mp h⟩
  | case3 r rows hne hid ih =>
    rw [iterateConversation, if_pos hid] at h
    obtain ⟨r', hr', hc⟩ := ih h
    exact ⟨r', .tail r hr', hc⟩
    exact hne
  | case4 r rows hne hid ih =>
    rw [iterateConversation, if_neg hid] at h
    rcases mem_cons.mp h with rfl | h
    · exact ⟨r, .head rows, rfl⟩
    · obtain ⟨r', hr', hc⟩ := ih h
      exact ⟨r', .tail r hr', hc⟩
    exact hne

theorem Owned.getConversations (h : t.Owned k) (hc : c ∈ t.getConversations) : c.uid = [] ∨
    hashWithString c.uid = k.hash := by
  obtain ⟨r, hr, rfl⟩ := mem_iterate hc
  obtain ⟨-, hsome⟩ := h r (mem_of_mem_filter hr)
  cases hu : r.uid with
  | none => exact .inl (by simp [conversation, hu])
  | some u =>
    refine .inr ?_
    have : r.conversation.uid = u := by simp [conversation, hu]
    rw [this]
    exact hsome u hu

end UserTable

namespace ConversationDB
open UserTable (Owned)
variable {K : Set UserKey}

variable {k : UserKey} {db : ConversationDB} {f : UserTable → UserTable} {γ : Type}

theorem local_modify (hk : k ∈ K) (h : ∀ t, t.Owned k → (f t).Owned k) :
    Local Owned K fun db => modify db k f := .update hk h

theorem modify_self (db : ConversationDB) (k : UserKey) (f : UserTable → UserTable) : modify db k f k = f (db k) :=
  update_self ..

theorem modify_of_ne {k' : UserKey} (h : k' ≠ k) : modify db k f k' = db k' := update_of_ne h ..

theorem local_commit {b : Batch} (hdel : ∀ e ∈ b.delKvs, ⟨e.1, hashWithString e.2.uid⟩ ∈ K)
    (hrange : ∀ e ∈ b.delRangeKvs, e.1 ∈ K) (hset : ∀ e ∈ b.setKvs, ⟨e.1, hashWithString e.2.uid⟩ ∈ K) :
    Local Owned K fun db => commit db b := by
  refine .comp (.comp (.foldl fun e he => ?_) (.foldl fun e he => ?_)) (.foldl fun e he => ?_)
  · exact local_modify (hdel e he) fun t ht => ht.deleteConversationIndex e.2
  · exact local_modify (hrange e he) fun t ht => ht.deleteColumns e.2
  · exact local_modify (hset e he) fun t ht => ht.writeConversation rfl

theorem foldl_batch (f : γ → Batch) (l : List γ) (b : Batch) : l.foldl (fun b c => b ++ f c) b =
    ⟨b.delKvs ++ l.flatMap fun c => (f c).delKvs, b.delRangeKvs ++ l.flatMap fun c => (f c).delRangeKvs,
      b.setKvs ++ l.flatMap fun c => (f c).setKvs⟩ := by
  induction l generalizing b with
  | nil => simp
  | cons c l ih =>
    rw [foldl_cons, ih]
    simp only [flatMap_cons, ← append_assoc]
    rfl

theorem local_batches {f : ConversationDB → γ → Batch} {l : List γ} {pre : ConversationDB → ConversationDB}
    (hpre : Local Owned K pre) (hf : ∀ c ∈ l, ∀ db db', Set.EqOn db db' K → f db c = f db' c)
    (hdel : ∀ c ∈ l, ∀ db, Valid Owned db → ∀ e ∈ (f db c).delKvs, ⟨e.1, hashWithString e.2.uid⟩ ∈ K)
    (hrange : ∀ c ∈ l, ∀ db, Valid Owned db → ∀ e ∈ (f db c).delRangeKvs, e.1 ∈ K)
    (hset : ∀ c ∈ l, ∀ db, Valid Owned db → ∀ e ∈ (f db c).setKvs, ⟨e.1, hashWithString e.2.uid⟩ ∈ K) :
    Local Owned K fun db => commit (pre db) (l.foldl (fun b c => b ++ f db c) {}) := by
  refine .plan (fun db => l.foldl (fun b c => b ++ f db c) {}) (fun b db => commit (pre db) b) ?_ ?_
  · exact fun db db' _ _ heq => foldl_ext _ _ _ fun b c hc => by rw [hf c hc db db' heq]
  intro db hdb
  rw [foldl_batch]
  exact hpre.comp (local_commit (forall_mem_flatMap.mpr fun c hc => hdel c hc db hdb)
    (forall_mem_flatMap.mpr fun c hc => hrange c hc db hdb) (forall_mem_flatMap.mpr fun c hc => hset c hc db hdb))

section
variable {shardNum : Nat}

variable {conversations : List Conversation} {uid : Bytes}

theorem local_setRelation (h : ∀ c ∈ conversations, userKey shardNum c.uid ∈ K) :
    Local Owned K fun db => setConversationLocalUserRelation shardNum db conversations :=
  .foldl fun c hc => local_modify (h c hc) fun _ ht => ht

theorem addOrUpdate_congr (hu : userKey shardNum uid ∈ K) {db' : ConversationDB} (h : Set.EqOn db db' K)
    (c : Conversation) : addOrUpdate shardNum db uid c = addOrUpdate shardNum db' uid c := by
  rw [addOrUpdate, addOrUpdate, h hu]

theorem addOrUpdate_keys (hdb : Valid Owned db) (uid : Bytes) (c : Conversation) :
    (∀ e ∈ (addOrUpdate shardNum db uid c).delKvs, ⟨e.1, hashWithString e.2.uid⟩ = userKey shardNum uid) ∧
      (∀ e ∈ (addOrUpdate shardNum db uid c).delRangeKvs, False) ∧
      ∀ e ∈ (addOrUpdate shardNum db uid c).setKvs, (⟨e.1, hashWithString e.2.uid⟩ : UserKey) =
        ⟨shardId shardNum uid, hashWithString c.uid⟩ := by
  rw [addOrUpdate]
  cases ho : (db (userKey shardNum uid)).oldConversation c.channel with
  | none =>
    refine ⟨nofun, fun e he => not_mem_nil he, fun e he => ?_⟩
    rw [mem_singleton.mp he]
  | some old =>
    refine ⟨fun e he => ?_, fun e he => not_mem_nil he, fun e he => ?_⟩
    · rw [mem_singleton.mp he, (hdb _).oldConversation ho]
      rfl
    · rw [mem_singleton.mp he]

theorem local_addOrUpdate (h : ∀ c ∈ conversations, userKey shardNum c.uid ∈ K) :
    Local Owned K fun db => addOrUpdateConversations shardNum db conversations := by
  by_cases hn : conversations = []
  · simp only [hn]
    exact .id
  have hmem (c : Conversation) (hc : c ∈ conversations.filter fun c => c.uid ≠ []) : userKey shardNum c.uid ∈ K :=
    h c (mem_of_mem_filter hc)
  simp only [addOrUpdateConversations, if_neg hn]
  refine local_batches (local_setRelation h) ?_ ?_ ?_ ?_
  · exact fun c hc db db' heq => addOrUpdate_congr (hmem c hc) heq c
  · intro c hc db hdb e he
    rw [(addOrUpdate_keys hdb c.uid c).1 e he]
    exact hmem c hc
  · exact fun c hc db hdb e he => ((addOrUpdate_keys hdb c.uid c).2.1 e he).elim
  · intro c hc db hdb e he
    rw [(addOrUpdate_keys hdb c.uid c).2.2 e he]
    exact hmem c hc

theorem local_addWithUser (hu : userKey shardNum uid ∈ K)
    (hs : ∀ c ∈ conversations, ⟨shardId shardNum uid, hashWithString c.uid⟩ ∈ K)
    (hr : ∀ c ∈ conversations, userKey shardNum c.uid ∈ K) :
    Local Owned K fun db => addOrUpdateConversationsWithUser shardNum db uid conversations := by
  by_cases hn : uid = []
  · simp only [hn]
    exact .id
  simp only [addOrUpdateConversationsWithUser, if_neg hn]
  refine local_batches (local_setRelation hr) ?_ ?_ ?_ ?_
  · exact fun c _ db db' heq => addOrUpdate_congr hu heq c
  · intro c _ db hdb e he
    rw [(addOrUpdate_keys hdb uid c).1 e he]
    exact hu
  · exact fun c _ db hdb e he => ((addOrUpdate_keys hdb uid c).2.1 e he).elim
  · intro c hc db hdb e he
    rw [(addOrUpdate_keys hdb uid c).2.2 e he]
    exact hs c hc

theorem local_addIfNotExist (h : ∀ c ∈ conversations, userKey shardNum c.uid ∈ K) :
    Local Owned K fun db => addOrUpdateConversationsBatchIfNotExist shardNum db conversations := by
  refine .plan (fun db : ConversationDB => (conversations.filter fun c =>
    c.uid ≠ [] && !(db (userKey shardNum c.uid)).existConversation c.channel).map fun c => (shardId shardNum c.uid, c))
    (fun set db => commit db { setKvs := set }) ?_ ?_
  · intro db db' _ _ heq
    refine congrArg _ (filter_congr fun c hc => ?_)
    rw [heq (h c hc)]
  · intro db _
    exact local_commit nofun nofun
      (forall_mem_map.mpr fun c hc => h c (mem_of_mem_filter hc))

variable (hu : userKey shardNum uid ∈ K)
include hu

theorem local_deletedAt (c : Channel) (seq : UInt64) :
    Local Owned K fun db => updateConversationDeletedAtMsgSeq shardNum db uid c seq := by
  refine .plan (fun db : ConversationDB => (db (userKey shardNum uid)).getConversationIdByChannel c)
    (fun id db => if id = 0 then db else modify db (userKey shardNum uid)
      (UserTable.setColumns id fun r => { r with deletedAtMsgSeq := some seq })) ?_ ?_
  · intro db db' _ _ heq
    rw [heq hu]
  · intro db _
    split
    · exact .id
    · exact local_modify hu fun t ht => ht.setColumns _ fun _ => ⟨rfl, rfl⟩

theorem local_ifSeqGreater (now : UInt64) (c : Channel) (seq : UInt64) :
    Local Owned K fun db => updateConversationIfSeqGreater shardNum db now uid c seq := by
  let act (old : Option Conversation) (db : ConversationDB) := old.elim db fun old =>
    if old.readToMsgSeq ≥ seq then db else modify db (userKey shardNum uid)
      (UserTable.setColumns old.id fun r => { r with readedToMsgSeq := some seq, updatedAt := some now })
  have heq : (fun db => updateConversationIfSeqGreater shardNum db now uid c seq) =
      fun db => act ((db (userKey shardNum uid)).oldConversation c) db := by
    funext db
    rw [updateConversationIfSeqGreater]
    cases (db (userKey shardNum uid)).oldConversation c with
    | none | some old => rfl
  rw [heq]
  refine .plan _ act ?_ ?_
  · intro db db' _ _ heq
    rw [heq hu]
  intro db _
  cases (db (userKey shardNum uid)).oldConversation c with
  | none => exact .id
  | some old =>
    dsimp only [act, Option.elim]
    split
    · exact .id
    · exact local_modify hu fun t ht => ht.setColumns _ fun _ => ⟨rfl, rfl⟩

/-- A row without a user takes the hash of the empty string into the index keys. -/
theorem local_deleteChannels (hn : ⟨shardId shardNum uid, hashWithString []⟩ ∈ K) (channels : List (Nat × Channel)) :
    Local Owned K fun db => deleteChannels shardNum db uid channels := by
  refine local_batches (f := fun db (c : Nat × Channel) => deleteConversationRows shardNum db uid c.2)
    (local_modify hu fun _ ht => ht) ?_ ?_ ?_ ?_
  · intro c _ db db' heq
    rw [deleteConversationRows, deleteConversationRows, heq hu]
  · intro c _ db hdb e he
    obtain ⟨old, hold, rfl⟩ := mem_map.mp he
    rcases (hdb _).getConversations (mem_of_mem_filter hold) with hold | hold
    · rw [hold]
      exact hn
    · rw [hold]
      exact hu
  · exact fun c _ db _ => forall_mem_map.mpr fun _ _ => hu
  · exact nofun

end

theorem commit_cons (db : ConversationDB) (e : Nat × Conversation) (l : List (Nat × Conversation)) :
    commit db { setKvs := e :: l } =
      commit (modify db ⟨e.1, hashWithString e.2.uid⟩ (UserTable.writeConversation e.2)) { setKvs := l } := rfl

theorem channelIndex_writes {num : UInt64} {l : List (Nat × Conversation)}
    (h : ∀ e ∈ l, ⟨e.1, hashWithString e.2.uid⟩ ≠ k ∨ channelToNum e.2.channel ≠ num) (db : ConversationDB) :
    (commit db { setKvs := l } k).channelIndex num = (db k).channelIndex num := by
  induction l generalizing db with
  | nil => rfl
  | cons e l ih =>
    rw [commit_cons, ih fun e' he' => h e' (mem_cons_of_mem e he')]
    by_cases hk : k = ⟨e.1, hashWithString e.2.uid⟩
    · have hnum := (h e (.head l)).resolve_left fun hne => hne hk.symm
      rw [← hk, modify_self]
      exact update_of_ne hnum.symm ..
    · rw [modify_of_ne hk]

/-- Two lists of conversations without a common one can be added together if they are missing. -/
theorem addMissing_append {shardNum : Nat} {xs ys : List Conversation}
    (h : ∀ x ∈ xs, ∀ y ∈ ys, userKey shardNum x.uid ≠ userKey shardNum y.uid ∨
      channelToNum x.channel ≠ channelToNum y.channel)
    (db : ConversationDB) : addOrUpdateConversationsBatchIfNotExist shardNum db (xs ++ ys) =
      addOrUpdateConversationsBatchIfNotExist shardNum (addOrUpdateConversationsBatchIfNotExist shardNum db xs) ys := by
  have hexist (y : Conversation) (hy : y ∈ ys) :
      (addOrUpdateConversationsBatchIfNotExist shardNum db xs (userKey shardNum y.uid)).existConversation y.channel =
        (db (userKey shardNum y.uid)).existConversation y.channel := by
    rw [UserTable.existConversation, UserTable.existConversation,
      addOrUpdateConversationsBatchIfNotExist, channelIndex_writes]
    exact forall_mem_map.mpr fun x hx => h x (mem_of_mem_filter hx) y hy
  have hfilter : (ys.filter fun c => c.uid ≠ [] &&
        !(addOrUpdateConversationsBatchIfNotExist shardNum db xs (userKey shardNum c.uid)).existConversation c.channel) =
      ys.filter fun c => c.uid ≠ [] && !(db (userKey shardNum c.uid)).existConversation c.channel :=
    filter_congr fun y hy => by rw [hexist y hy]
  calc addOrUpdateConversationsBatchIfNotExist shardNum db (xs ++ ys)
    _ = commit (addOrUpdateConversationsBatchIfNotExist shardNum db xs)
          { setKvs := (ys.filter fun c => c.uid ≠ [] &&
              !(db (userKey shardNum c.uid)).existConversation c.channel).map fun c => (shardId shardNum c.uid, c) } := by
        rw [addOrUpdateConversationsBatchIfNotExist, filter_append, map_append]
        exact foldl_append
    _ = addOrUpdateConversationsBatchIfNotExist shardNum (addOrUpdateConversationsBatchIfNotExist shardNum db xs) ys := by
        rw [← hfilter]
        rfl

end ConversationDB
end WuKongIM.WKDB

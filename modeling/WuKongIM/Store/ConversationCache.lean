import WuKongIM.Store.ConversationCommands

/-! The cache of lists of last conversations, as the commands on conversations treat it. -/
namespace WuKongIM.Cluster
open WKDB List

/-- A list that `GetLastConversations` has answered, and when it was put into the cache. -/
structure LastConversationsResult where
  conversations : List Conversation
  cachedAt : UInt64

/-- The lists stand under keys that begin with the user's name and a colon. -/
abbrev ConversationCache := Bytes → Option LastConversationsResult

/-- Ten minutes. -/
def LastConversationsResult.isExpired (r : LastConversationsResult) (now : UInt64) : Bool :=
  now.toNat > r.cachedAt.toNat + 600000000000

/-- What is done to the cache once a change is committed. -/
inductive CacheCall
  | updateConversationsInCache (conversations : List Conversation)
  | invalidateUserConversations (uid : Bytes)

def CacheCall.users : CacheCall → List Bytes
  | updateConversationsInCache conversations => conversations.map (·.uid)
  | invalidateUserConversations uid => [uid]

/-- The conversations of the commands, under the users of the commands. -/
def conversationMap (cmds : List (Bytes × List Conversation)) : List (Bytes × List Conversation) :=
  (cmds.map Prod.fst).dedup.map fun uid => (uid, (cmds.filter fun c => c.1 = uid).flatMap Prod.snd)

/-- The cached list with the updates of its channels in their place, each taken once, and the
updates that are left. -/
def mergeCached (updated : List Conversation) : List Conversation → List Conversation × List Conversation
  | [] => ([], updated)
  | cached :: rest =>
    match updated.reverse.find? fun c => c.channel = cached.channel with
    | some c =>
      let (merged, left) := mergeCached (updated.filter fun c => c.channel ≠ cached.channel) rest
      (c :: merged, left)
    | none =>
      let (merged, left) := mergeCached updated rest
      (cached :: merged, left)

variable (newestFirst : List Conversation → List Conversation) (env : Env) (logIndex : UInt64)

/-- A list that lacks one of the conversations is dropped. The sort is the library's, which decides
among equal times. -/
def updateUserConversationsInCache (cache : ConversationCache) (e : Bytes × List Conversation) :
    ConversationCache := fun key =>
  if (e.1 ++ [58]).isPrefixOf key then
    (cache key).bind fun r =>
      if r.isExpired (env.now logIndex) then some r
      else
        let (merged, left) := mergeCached e.2 r.conversations
        if left ≠ [] then none else some ⟨newestFirst merged, env.now logIndex⟩
  else cache key

def CacheCall.perform (cache : ConversationCache) : CacheCall → ConversationCache
  | updateConversationsInCache conversations =>
    (env.groupOrder logIndex (conversationMap (conversations.map fun c => (c.uid, [c])))).foldl
      (updateUserConversationsInCache newestFirst env logIndex) cache
  | invalidateUserConversations uid => fun key => if (uid ++ [58]).isPrefixOf key then none else cache key

def callIf (b : Bool) (call : CacheCall) : List CacheCall := if b then [call] else []

/-- A command that has nothing to write leaves the cache alone. -/
def ConversationCMD.cacheCalls (o : Options) (db : ConversationDB) : ConversationCMD → List CacheCall
  | addOrUpdateConversations conversations => [.updateConversationsInCache conversations]
  | addOrUpdateUserConversations uid conversations => callIf (uid ≠ []) (.updateConversationsInCache conversations)
  | addOrUpdateConversationsBatchIfNotExist conversations =>
    callIf (conversations.any fun c => c.uid ≠ []) (.updateConversationsInCache conversations)
  | deleteConversation uid _ | deleteConversations uid _ => [.invalidateUserConversations uid]
  | batchUpdateConversation models => models.zipIdx.flatMap fun m => (env.uidOrder logIndex m.2 m.1.uids).flatMap fun e =>
    callIf (e.1 ≠ []) (.updateConversationsInCache [m.1.conversation o e])
  | updateConversationDeletedAtMsgSeq uid channel _ =>
    callIf ((db (userKey o.shardNum uid)).getConversationIdByChannel channel ≠ 0) (.invalidateUserConversations uid)
  | updateConversationIfSeqGreater uid channel seq =>
    callIf (((db (userKey o.shardNum uid)).oldConversation channel).any fun old => old.readToMsgSeq < seq)
      (.invalidateUserConversations uid)

/-- The cache has no list under a key that begins like those of the user. -/
def Uncached (cache : ConversationCache) (uid : Bytes) : Prop := ∀ key, uid ++ [58] <+: key → cache key = none

variable {newestFirst env logIndex} {cache : ConversationCache} {calls : List CacheCall}

theorem CacheCall.perform_eq {call : CacheCall} (h : ∀ uid ∈ call.users, Uncached cache uid) :
    call.perform newestFirst env logIndex cache = cache := by
  cases call with
  | invalidateUserConversations uid =>
    funext key
    simp only [perform]
    split
    · next hkey =>
      have hkey := isPrefixOf_iff_prefix.mp hkey
      exact (h uid mem_cons_self key hkey).symm
    · rfl
  | updateConversationsInCache conversations =>
    refine foldlRecOn (motive := (· = cache)) _ _ rfl fun _ heq e he => ?_
    subst heq
    have hmem := (env.groupOrder_perm logIndex _).mem_iff.mp he
    obtain ⟨uid, huid, rfl⟩ := mem_map.mp hmem
    have huid : uid ∈ conversations.map (·.uid) := by simpa using huid
    funext key
    rw [updateUserConversationsInCache]
    split
    · next hkey =>
      have hkey := isPrefixOf_iff_prefix.mp hkey
      rw [h uid huid key hkey, Option.bind_none]
    · rfl

theorem foldl_perform_eq (h : ∀ call ∈ calls, ∀ uid ∈ call.users, Uncached cache uid) :
    calls.foldl (CacheCall.perform newestFirst env logIndex) cache = cache := by
  induction calls with
  | nil => rfl
  | cons call calls ih =>
    obtain ⟨hcall, hcalls⟩ := forall_mem_cons.mp h
    rw [foldl_cons, CacheCall.perform_eq hcall, ih hcalls]

theorem eq_of_mem_callIf {b : Bool} {call call' : CacheCall} (h : call ∈ callIf b call') : call = call' := by
  rw [callIf] at h
  split at h
  · exact mem_singleton.mp h
  · cases h

/-- The cache is told of users of the command only. -/
theorem ConversationCMD.users_cacheCalls {o : Options} {db : ConversationDB} {c : ConversationCMD}
    {call : CacheCall} (h : call ∈ c.cacheCalls env logIndex o db) : call.users ⊆ c.users := by
  cases c with
    simp only [cacheCalls] at h
  | addOrUpdateConversations conversations | deleteConversation uid channel | deleteConversations uid channels =>
    rw [mem_singleton.mp h]
    exact Subset.refl _
  | addOrUpdateUserConversations uid conversations =>
    rw [eq_of_mem_callIf h]
    exact subset_cons_self ..
  | addOrUpdateConversationsBatchIfNotExist conversations | updateConversationDeletedAtMsgSeq uid channel seq
  | updateConversationIfSeqGreater uid channel seq =>
    rw [eq_of_mem_callIf h]
    exact Subset.refl _
  | batchUpdateConversation models =>
    obtain ⟨m, hm, h⟩ := mem_flatMap.mp h
    obtain ⟨e, he, h⟩ := mem_flatMap.mp h
    rw [eq_of_mem_callIf h]
    have he : e ∈ m.1.uids := (env.uidOrder_perm logIndex m.2 m.1.uids).mem_iff.mp he
    exact cons_subset.mpr ⟨mem_flatMap.mpr ⟨m.1, fst_mem_of_mem_zipIdx hm, mem_map_of_mem he⟩, nil_subset _⟩

end WuKongIM.Cluster

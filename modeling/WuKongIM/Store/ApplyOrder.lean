import WuKongIM.Store.Apply
import WuKongIM.WKDB.ConversationKeys

/-! Applying a slot's log in calls of any sizes against applying its commands one at a time. -/
namespace WuKongIM.Cluster
open Lib WKDB ConversationDB List ConversationCMD
open UserTable (Owned)

variable (shardNum : Nat)

/-- The places that a command on conversations reads and writes. -/
def ConversationCMD.keys : ConversationCMD → List UserKey
  | addOrUpdateConversations conversations => conversations.map fun c => userKey shardNum c.uid
  | addOrUpdateUserConversations uid conversations =>
    userKey shardNum uid :: conversations.flatMap fun c =>
      [⟨shardId shardNum uid, hashWithString c.uid⟩, userKey shardNum c.uid]
  | addOrUpdateConversationsBatchIfNotExist conversations => conversations.map fun c => userKey shardNum c.uid
  | deleteConversation uid _ => [userKey shardNum uid, ⟨shardId shardNum uid, hashWithString []⟩]
  | deleteConversations uid _ => [userKey shardNum uid, ⟨shardId shardNum uid, hashWithString []⟩]
  | batchUpdateConversation models => models.flatMap fun m => m.uids.map fun e => userKey shardNum e.1
  | updateConversationDeletedAtMsgSeq uid _ _ => [userKey shardNum uid]
  | updateConversationIfSeqGreater uid _ _ => [userKey shardNum uid]

def ConversationCMD.places (c : ConversationCMD) : Set UserKey := {k | k ∈ c.keys shardNum}

variable (o : Options) (env : Env) (logIndex : UInt64)

theorem local_userConversations (uid : Bytes) (conversations : List Conversation) :
    Local Owned ((addOrUpdateUserConversations uid conversations).places o.shardNum)
      fun db => addOrUpdateConversationsWithUser o.shardNum db uid conversations := by
  have hmem {k : UserKey} {c : Conversation} (hc : c ∈ conversations)
      (hk : k ∈ [⟨shardId o.shardNum uid, hashWithString c.uid⟩, userKey o.shardNum c.uid]) :
      k ∈ (addOrUpdateUserConversations uid conversations).places o.shardNum :=
    mem_cons_of_mem _ (mem_flatMap.mpr ⟨c, hc, hk⟩)
  exact local_addWithUser mem_cons_self (fun c hc => hmem hc (.head _))
    fun c hc => hmem hc (.tail _ (.head _))

theorem local_batchUpdate (models : List BatchUpdateConversationModel) :
    Local Owned ((batchUpdateConversation models).places o.shardNum)
      fun db => handleBatchUpdateConversation o env logIndex db models := by
  refine .foldl fun m hm => .foldl fun e he => ?_
  have hkey : userKey o.shardNum e.1 ∈ (batchUpdateConversation models).places o.shardNum := by
    have he : e ∈ m.1.uids := (env.uidOrder_perm logIndex m.2 m.1.uids).mem_iff.mp he
    exact mem_flatMap.mpr ⟨m.1, fst_mem_of_mem_zipIdx hm, mem_map.mpr ⟨e, he, rfl⟩⟩
  have huid (c : Conversation) (hc : c ∈ [m.1.conversation o e]) : c.uid = e.1 := by
    rw [mem_singleton.mp hc]
    rfl
  refine local_addWithUser hkey (fun c hc => ?_) fun c hc => ?_
  · rw [huid c hc]
    exact hkey
  · rw [huid c hc]
    exact hkey

theorem ConversationCMD.local_apply (c : ConversationCMD) :
    Local Owned (c.places o.shardNum) fun db => c.apply o env logIndex db := by
  cases c with
  | addOrUpdateConversations conversations =>
    exact local_addOrUpdate fun c hc => mem_map.mpr ⟨c, hc, rfl⟩
  | addOrUpdateUserConversations uid conversations => exact local_userConversations o uid conversations
  | addOrUpdateConversationsBatchIfNotExist conversations =>
    exact local_addIfNotExist fun c hc => mem_map.mpr ⟨c, hc, rfl⟩
  | deleteConversation uid channel | deleteConversations uid channels =>
    exact local_deleteChannels mem_cons_self (.tail _ (.head _)) _
  | batchUpdateConversation models => exact local_batchUpdate o env logIndex models
  | updateConversationDeletedAtMsgSeq uid channel seq =>
    exact local_deletedAt mem_cons_self channel seq
  | updateConversationIfSeqGreater uid channel seq =>
    exact local_ifSeqGreater mem_cons_self _ channel seq

def ConversationCMD.phase : ConversationCMD → Nat
  | addOrUpdateUserConversations .. => 1
  | addOrUpdateConversationsBatchIfNotExist .. => 2
  | _ => 0

/-- Nothing happens to the first command of a call by being put off behind the second or merged with
it: the first is not put off, or the second comes later still, or they are about different users.
Two commands that add missing conversations may share a user but not a conversation. -/
def ConversationCMD.apart : ConversationCMD → ConversationCMD → Bool
  | addOrUpdateConversationsBatchIfNotExist xs, addOrUpdateConversationsBatchIfNotExist ys =>
    xs.all fun x => ys.all fun y =>
      userKey shardNum x.uid ≠ userKey shardNum y.uid || channelToNum x.channel ≠ channelToNum y.channel
  | c, d => c.phase = 0 || c.phase < d.phase || (c.keys shardNum).all fun k => k ∉ d.keys shardNum

theorem ConversationCMD.disjoint_of_apart {shardNum : Nat} {c d : ConversationCMD} (h : c.apart shardNum d)
    (hc : c.phase ≠ 0) (hd : d.phase ≤ c.phase) (h2 : d.phase ≠ 2) : Disjoint (c.places shardNum) (d.places shardNum) := by
  have hkeys : (c.keys shardNum).all fun k => k ∉ d.keys shardNum := by
    cases c <;> cases d <;> simp_all [apart, phase]
  refine Set.disjoint_left.mpr fun k hk hk' => ?_
  exact of_decide_eq_true (all_eq_true.mp hkeys k hk) hk'

variable (o : Options) (env : Env)

def conversationCMDs (logs : List Log) : List (UInt64 × ConversationCMD) :=
  logs.filterMap fun log => match log.cmd with
    | .conversation c => some (log.index, c)
    | _ => none

def applyConversation (db : ConversationDB) (e : UInt64 × ConversationCMD) : ConversationDB := e.2.apply o env e.1 db

def ConversationCMD.userConversations : ConversationCMD → Option (Bytes × List Conversation)
  | addOrUpdateUserConversations uid conversations => some (uid, conversations)
  | _ => none

def ConversationCMD.missingConversations : ConversationCMD → Option (List Conversation)
  | addOrUpdateConversationsBatchIfNotExist conversations => some conversations
  | _ => none

def groupedConversations (logIndex : UInt64) (db : ConversationDB)
    (cmds : List (UInt64 × ConversationCMD)) : ConversationDB :=
  let db := (cmds.filter fun e => e.2.phase = 0).foldl (applyConversation o env) db
  let db := (env.groupOrder logIndex (conversationMap (cmds.filterMap fun e => e.2.userConversations))).foldl
    (fun db c => addOrUpdateConversationsWithUser o.shardNum db c.1 c.2) db
  addOrUpdateConversationsBatchIfNotExist o.shardNum db (cmds.filterMap fun e => e.2.missingConversations).flatten

variable {o env} {cmds : List (UInt64 × ConversationCMD)} {db : ConversationDB} {l : List (Bytes × List Conversation)}

theorem local_step (e : UInt64 × ConversationCMD) :
    Local Owned (e.2.places o.shardNum) fun db => applyConversation o env db e := e.2.local_apply o env e.1

theorem missing_merged (h : cmds.Pairwise fun c d => c.2.apart o.shardNum d.2)
    (hp : ∀ e ∈ cmds, e.2.phase = 2) : cmds.foldl (applyConversation o env) db =
      addOrUpdateConversationsBatchIfNotExist o.shardNum db (cmds.filterMap fun e => e.2.missingConversations).flatten := by
  induction cmds generalizing db with
  | nil => rfl
  | cons e cmds ih =>
    obtain ⟨he, hcmds⟩ := pairwise_cons.mp h
    obtain ⟨index, c⟩ := e
    cases c with
    | addOrUpdateConversationsBatchIfNotExist xs =>
      rw [foldl_cons, ih hcmds fun e' he' => hp e' (mem_cons_of_mem _ he')]
      refine (addMissing_append ?_ db).symm
      intro x hx y hy
      obtain ⟨ys, hys, hy⟩ := mem_flatten.mp hy
      obtain ⟨e', he', hc⟩ := mem_filterMap.mp hys
      have hap := he e' he'
      obtain ⟨index', c⟩ := e'
      cases c with
      | addOrUpdateConversationsBatchIfNotExist ys' =>
        cases hc
        simpa using all_eq_true.mp (all_eq_true.mp hap x hx) y hy
      | _ => cases hc
    | _ => exact absurd (hp _ (.head _)) (by simp [phase])

theorem filter_eq_of_nodup (h : (l.map Prod.fst).Nodup)
    {c : Bytes × List Conversation} (hc : c ∈ l) : (l.filter fun d => d.1 = c.1) = [c] := by
  induction l with
  | nil => exact absurd hc not_mem_nil
  | cons d l ih =>
    obtain ⟨hd, h⟩ := nodup_cons.mp h
    rcases mem_cons.mp hc with rfl | hc
    · have hrest : (l.filter fun d => d.1 = c.1) = [] := by
        refine filter_eq_nil_iff.mpr fun e he heq => hd ?_
        rw [← of_decide_eq_true heq]
        exact mem_map_of_mem he
      simp [hrest]
    · have hne : d.1 ≠ c.1 := fun heq => hd (heq ▸ mem_map_of_mem hc)
      simp [hne, ih h hc]

theorem conversationMap_of_nodup (h : (l.map Prod.fst).Nodup) : conversationMap l = l := by
  rw [conversationMap, h.dedup, map_map]
  refine (map_congr_left fun c hc => ?_).trans (map_id l)
  rw [Function.comp_apply, filter_eq_of_nodup h hc]
  simp

/-- The places of a command on one user's conversations, given by its arguments. -/
def userPlaces (shardNum : Nat) (c : Bytes × List Conversation) : Set UserKey :=
  (ConversationCMD.addOrUpdateUserConversations c.1 c.2).places shardNum

theorem userConversations_eq_some {c : ConversationCMD} {u : Bytes × List Conversation}
    (h : c.userConversations = some u) : c = .addOrUpdateUserConversations u.1 u.2 := by
  cases c with
  | addOrUpdateUserConversations uid conversations =>
    cases h
    rfl
  | _ => cases h

theorem userConversations_merged (h : cmds.Pairwise fun c d => c.2.apart o.shardNum d.2)
    (hp : ∀ e ∈ cmds, e.2.phase = 1) (hdb : Valid Owned db) (logIndex : UInt64) : cmds.foldl (applyConversation o env) db =
      (env.groupOrder logIndex (conversationMap (cmds.filterMap fun e => e.2.userConversations))).foldl
        (fun db c => addOrUpdateConversationsWithUser o.shardNum db c.1 c.2) db := by
  have hfold : cmds.foldl (applyConversation o env) db =
      (cmds.filterMap fun e => e.2.userConversations).foldl
        (fun db c => addOrUpdateConversationsWithUser o.shardNum db c.1 c.2) db := by
    clear h hdb
    induction cmds generalizing db with
    | nil => rfl
    | cons e cmds ih =>
      obtain ⟨index, c⟩ := e
      have hc : c.phase = 1 := hp (index, c) (.head cmds)
      cases c with
      | addOrUpdateUserConversations uid conversations => exact ih fun e he => hp e (mem_cons_of_mem _ he)
      | _ => simp [phase] at hc
  have hdisj : (cmds.filterMap fun e => e.2.userConversations).Pairwise fun c d =>
      Disjoint (userPlaces o.shardNum c) (userPlaces o.shardNum d) := by
    refine pairwise_filterMap.mpr (h.imp fun {c d} hap u hu v hv => ?_)
    rw [userConversations_eq_some hu, userConversations_eq_some hv] at hap
    exact disjoint_of_apart hap Nat.one_ne_zero le_rfl (by simp [phase])
  have hnodup : ((cmds.filterMap fun e => e.2.userConversations).map Prod.fst).Nodup := by
    refine pairwise_map.mpr (hdisj.imp fun {c d} hcd heq => ?_)
    have hkey : userKey o.shardNum c.1 ∈ userPlaces o.shardNum c := mem_cons_self
    refine Set.disjoint_left.mp hcd hkey ?_
    rw [heq]
    exact mem_cons_self
  rw [hfold, conversationMap_of_nodup hnodup]
  exact foldl_perm (env.groupOrder_perm logIndex _).symm (fun c _ => local_userConversations o c.1 c.2) hdisj hdb

theorem ConversationCMD.phase_le (c : ConversationCMD) : c.phase ≤ 2 := by
  cases c <;> simp [phase]

theorem ConversationCMD.userConversations_eq_none (c : ConversationCMD) (h : c.phase ≠ 1) : c.userConversations = none := by
  cases c with
  | addOrUpdateUserConversations => exact absurd rfl h
  | _ => rfl

theorem ConversationCMD.missing_eq_none (c : ConversationCMD) (h : c.phase ≠ 2) : c.missingConversations = none := by
  cases c with
  | addOrUpdateConversationsBatchIfNotExist => exact absurd rfl h
  | _ => rfl

theorem filterMap_phase {β : Type} {f : ConversationCMD → Option β} {p : ConversationCMD → Bool}
    (h : ∀ c, p c = false → f c = none) (cmds : List (UInt64 × ConversationCMD)) :
    ((cmds.filter fun e => p e.2).filterMap fun e => f e.2) = cmds.filterMap fun e => f e.2 := by
  rw [filterMap_filter]
  congr 1
  funext e
  cases hp : p e.2 with
  | true => rfl
  | false => simp [h e.2 hp]

/-- The three passes of a grouped call, when no command is put off behind one that shares a user
with it. -/
theorem conversations_grouped (h : cmds.Pairwise fun c d => c.2.apart o.shardNum d.2)
    (hdb : Valid Owned db) (logIndex : UInt64) :
    cmds.foldl (applyConversation o env) db = groupedConversations o env logIndex db cmds := by
  have hpostpone (n : Nat) (hn : n ≠ 0) (l : List (UInt64 × ConversationCMD))
      (hl : l.Pairwise fun c d => c.2.apart o.shardNum d.2) (hle : ∀ e ∈ l, e.2.phase ≤ n) :
      l.foldl (applyConversation o env) db = (l.filter fun e => e.2.phase = n).foldl (applyConversation o env)
        ((l.filter fun e => !decide (e.2.phase = n)).foldl (applyConversation o env) db) := by
    refine foldl_postpone _ (fun e _ => local_step e) (hl.imp_of_mem fun {c d} _ hmem hap hc hd => ?_) hdb
    have hc : c.2.phase = n := of_decide_eq_true hc
    have hd : d.2.phase ≠ n := of_decide_eq_false hd
    have := hle d hmem
    have := c.2.phase_le
    exact disjoint_of_apart hap (by omega) (by omega) (by omega)
  have hvalid (l : List (UInt64 × ConversationCMD)) : Valid Owned (l.foldl (applyConversation o env) db) :=
    (Local.foldl fun e _ => (local_step e).mono (Set.subset_univ _)).keeps db hdb
  have hmissing : ((cmds.filter fun e => e.2.phase = 2).filterMap fun e => e.2.missingConversations) =
      cmds.filterMap fun e => e.2.missingConversations := by
    exact filterMap_phase
      (fun c hc => c.missing_eq_none (of_decide_eq_false hc)) cmds
  have huser : (((cmds.filter fun e => !decide (e.2.phase = 2)).filter fun e => e.2.phase = 1).filterMap
      fun e => e.2.userConversations) = cmds.filterMap fun e => e.2.userConversations := by
    rw [filter_filter]
    refine filterMap_phase (p := fun c => decide (c.phase = 1) && !decide (c.phase = 2)) (fun c hc => ?_) cmds
    refine c.userConversations_eq_none fun h1 => ?_
    rw [h1] at hc
    exact absurd hc (by decide)
  have hfirst : ((cmds.filter fun e => !decide (e.2.phase = 2)).filter fun e => !decide (e.2.phase = 1)) =
      cmds.filter fun e => e.2.phase = 0 := by
    rw [filter_filter]
    refine filter_congr fun e _ => ?_
    cases e.2 <;> rfl
  -- the commands on missing conversations go behind all others, and those of one user behind what remains
  rw [hpostpone 2 (by decide) cmds h fun e _ => e.2.phase_le,
    missing_merged (h.filter _) fun e he => of_decide_eq_true (mem_filter.mp he).2,
    hpostpone 1 (by decide) _ (h.filter _),
    userConversations_merged ((h.filter _).filter _) (fun e he => of_decide_eq_true (mem_filter.mp he).2)
      (hvalid _), hmissing, huser, hfirst, groupedConversations]
  intro e he
  have hne : e.2.phase ≠ 2 := by simpa using (mem_filter.mp he).2
  have := e.2.phase_le
  omega

end WuKongIM.Cluster

import WuKongIM.Store.ApplyOrder

/-! The log of a slot, cut into calls of `ApplySlotLogs` in any way. -/
namespace WuKongIM.Cluster
open Lib WKDB ConversationDB List
open UserTable (Owned)

variable (o : ApplyOptions) (env : Env)

def configCMDs (logs : List Log) : List (ChannelClusterConfig × UInt64) :=
  logs.filterMap fun log => match log.cmd with
    | .channelClusterConfigSave cfg => some (cfg, log.index)
    | _ => none

def tableCMDs (logs : List Log) : List (UInt64 × TableCMD) :=
  logs.filterMap fun log => match log.cmd with
    | .table c => some (log.index, c)
    | _ => none

/-- The three parts of the database, each with its own commands. -/
def applyParts (db : DB) (logs : List Log) : DB where
  conversations := (conversationCMDs logs).foldl (applyConversation o.toOptions env) db.conversations
  conversationCache := db.conversationCache
  clusterConfigs := (configCMDs logs).foldl (fun configs c => saveChannelClusterConfig configs c.1 c.2) db.clusterConfigs
  tables := (tableCMDs logs).foldl (fun t e => e.2.apply o env e.1 t) db.tables

theorem applyParts_append (db : DB) (xs ys : List Log) :
    applyParts o env db (xs ++ ys) = applyParts o env (applyParts o env db xs) ys := by
  simp [applyParts, conversationCMDs, configCMDs, tableCMDs]

/-- No list is cached under a key that begins like those of a user of the commands. -/
def Unlisted (cache : ConversationCache) (logs : List Log) : Prop :=
  ∀ e ∈ conversationCMDs logs, ∀ uid ∈ e.2.users, Uncached cache uid

variable {o env} {logs : List Log} {db : DB}

theorem Unlisted.mono {cache : ConversationCache} {logs' : List Log} (h : Unlisted cache logs)
    (hsub : logs' ⊆ logs) : Unlisted cache logs' := fun e he => h e (filterMap_subset _ hsub he)

theorem notify_eq {index : UInt64} {calls : List CacheCall}
    (h : ∀ call ∈ calls, ∀ uid ∈ call.users, Uncached db.conversationCache uid) : db.notify o env index calls = db := by
  rw [DB.notify, foldl_perform_eq h]

theorem applyParts_singleton {log : Log} (h : Unlisted db.conversationCache [log]) :
    applyParts o env db [log] = log.cmd.apply o env log.index db := by
  obtain ⟨index, cmd⟩ := log
  cases cmd with
  | conversation c =>
    refine (notify_eq fun call hcall uid huid => ?_).symm
    exact h (index, c) mem_cons_self uid (ConversationCMD.users_cacheCalls hcall huid)
  | _ => rfl

theorem foldlM_applyLog (h : ∀ log ∈ logs, log.cmd.wellFormed o.texts) (hcache : Unlisted db.conversationCache logs) :
    logs.foldlM (applyLog o env) db = some (applyParts o env db logs) := by
  induction logs generalizing db with
  | nil => rfl
  | cons log logs ih =>
    have hstep : applyLog o env db log = some (applyParts o env db [log]) := by
      rw [applyLog, if_pos (h log (.head logs)), applyParts_singleton (hcache.mono (by simp))]
    have hrest : Unlisted (applyParts o env db [log]).conversationCache logs := hcache.mono (subset_cons_self ..)
    rw [foldlM_cons, hstep, Option.bind_eq_bind, Option.bind_some,
      ih (fun l hl => h l (mem_cons_of_mem log hl)) hrest, ← applyParts_append]
    rfl

/-- What the first pass over the logs finds. -/
theorem cmds_filter (logs : List Log) : let front := logs.filter fun log => log.postponed.isNone
    conversationCMDs front = (conversationCMDs logs).filter (fun e => e.2.phase = 0) ∧
      configCMDs front = [] ∧ tableCMDs front = tableCMDs logs := by
  simp only [conversationCMDs, configCMDs, tableCMDs, filterMap_filter, filter_filterMap, filterMap_eq_nil_iff]
  refine ⟨filterMap_congr fun log _ => ?_, fun log _ => ?_, filterMap_congr fun log _ => ?_⟩
  all_goals
    obtain ⟨index, cmd⟩ := log
    cases cmd with
    | conversation c => cases c <;> rfl
    | _ => rfl

/-- What it leaves for the passes after it. -/
theorem cmds_postponed (logs : List Log) : let back := logs.filterMap Log.postponed
    back.filterMap Postponed.config? = configCMDs logs ∧
      (back.filterMap Postponed.userConversations? = (conversationCMDs logs).filterMap fun e => e.2.userConversations) ∧
      back.filterMap Postponed.missingConversations? = (conversationCMDs logs).filterMap fun e =>
        e.2.missingConversations := by
  simp only [conversationCMDs, filterMap_filterMap]
  refine ⟨filterMap_congr fun log _ => ?_, filterMap_congr fun log _ => ?_, filterMap_congr fun log _ => ?_⟩
  all_goals
    obtain ⟨index, cmd⟩ := log
    cases cmd with
    | conversation c => cases c <;> rfl
    | _ => rfl

theorem handleUserConversations_eq {cmds : List (Bytes × List Conversation)} {index : UInt64}
    (h : ∀ cmd ∈ cmds, ∀ c ∈ cmd.2, Uncached db.conversationCache c.uid) :
    handleAddOrUpdateUserConversationsForCMDs o env index db cmds =
      { db with
        conversations := (env.groupOrder index (conversationMap cmds)).foldl
          (fun db c => db.addOrUpdateConversationsWithUser o.shardNum c.1 c.2) db.conversations } := by
  refine notify_eq fun call hcall uid huid => ?_
  obtain ⟨e, he, hcall⟩ := mem_flatMap.mp hcall
  rw [eq_of_mem_callIf hcall] at huid
  obtain ⟨u, -, rfl⟩ := mem_map.mp ((env.groupOrder_perm index _).mem_iff.mp he)
  obtain ⟨c, hc, rfl⟩ := mem_map.mp huid
  obtain ⟨cmd, hcmd, hc⟩ := mem_flatMap.mp hc
  exact h cmd (mem_of_mem_filter hcmd) c hc

theorem handleMissingConversations_eq {cmds : List (List Conversation)} {index : UInt64}
    (h : ∀ cs ∈ cmds, ∀ c ∈ cs, Uncached db.conversationCache c.uid) :
    handleAddOrUpdateConversationsBatchIfNotExistForCMDs o env index db cmds =
      { db with conversations := db.conversations.addOrUpdateConversationsBatchIfNotExist o.shardNum cmds.flatten } := by
  refine notify_eq fun call hcall uid huid => ?_
  rw [eq_of_mem_callIf hcall] at huid
  obtain ⟨c, hc, rfl⟩ := mem_map.mp huid
  obtain ⟨cs, hcs, hc⟩ := mem_flatten.mp hc
  exact h cs hcs c hc

theorem applyCMDs_passes (hwf : ∀ log ∈ logs, log.cmd.wellFormed o.texts)
    (hcache : Unlisted db.conversationCache logs) : applyCMDs o env db logs =
    some { applyParts o env db logs with
      conversations := groupedConversations o.toOptions env ((logs.head?.map (·.index)).getD 0) db.conversations
        (conversationCMDs logs) } := by
  have hfront : (logs.filter fun log => log.postponed.isNone).foldlM (applyLog o env) db =
      some (applyParts o env db (logs.filter fun log => log.postponed.isNone)) :=
    foldlM_applyLog (fun log hlog => hwf log (mem_of_mem_filter hlog)) (hcache.mono (filter_subset_self ..))
  have hback : ((logs.filter fun log => log.postponed.isSome).all fun log => log.cmd.wellFormed o.texts) :=
    all_eq_true.mpr fun log hlog => hwf log (mem_of_mem_filter hlog)
  obtain ⟨hconversations, hconfigs, htables⟩ := cmds_filter logs
  obtain ⟨hconfigs', husers, hmissing⟩ := cmds_postponed logs
  rw [applyCMDs, hfront]
  simp only [hback, hconfigs', husers, hmissing, Option.bind_eq_bind, Option.bind_some]
  rw [handleUserConversations_eq, handleMissingConversations_eq]
  · simp only [applyParts, hconversations, hconfigs, htables]
    rfl
  · intro cs hcs c hc
    obtain ⟨⟨index, cmd⟩, he, heq⟩ := mem_filterMap.mp hcs
    refine hcache _ he _ ?_
    cases cmd with
    | addOrUpdateConversationsBatchIfNotExist cs' =>
      cases heq
      exact mem_map_of_mem hc
    | _ => cases heq
  · intro cmd hcmd c hc
    obtain ⟨e, he, heq⟩ := mem_filterMap.mp hcmd
    refine hcache e he _ ?_
    rw [userConversations_eq_some heq]
    exact mem_cons_of_mem _ (mem_map_of_mem hc)

theorem applyCMDs_eq (hwf : ∀ log ∈ logs, log.cmd.wellFormed o.texts) (hcache : Unlisted db.conversationCache logs)
    (hap : (conversationCMDs logs).Pairwise fun c d => c.2.apart o.shardNum d.2)
    (hdb : Valid Owned db.conversations) : applyCMDs o env db logs = some (applyParts o env db logs) := by
  rw [applyCMDs_passes hwf hcache, ← conversations_grouped hap hdb]
  rfl

theorem applyParts_valid (hdb : Valid Owned db.conversations) (logs : List Log) :
    Valid Owned (applyParts o env db logs).conversations :=
  (Local.foldl fun e _ => (local_step e).mono (Set.subset_univ _)).keeps _ hdb

variable (o) in
/-- A call that groups its commands puts none off behind, and merges none with, a command of the
same user. -/
def InOrder (call : List Log) : Prop :=
  call.length ≥ 10 → (conversationCMDs call).Pairwise fun c d => c.2.apart o.shardNum d.2 = true

theorem applySlotLogs_eq (hwf : ∀ log ∈ logs, log.cmd.wellFormed o.texts) (h : InOrder o logs)
    (hcache : Unlisted db.conversationCache logs) (hdb : Valid Owned db.conversations) :
    applySlotLogs o env db logs = some (applyParts o env db logs) := by
  rw [applySlotLogs]
  split
  · next hlen => exact applyCMDs_eq hwf hcache (h hlen) hdb
  · exact foldlM_applyLog hwf hcache

theorem foldlM_applySlotLogs {calls : List (List Log)} (hwf : ∀ call ∈ calls, ∀ log ∈ call, log.cmd.wellFormed o.texts)
    (h : ∀ call ∈ calls, InOrder o call) (hcache : Unlisted db.conversationCache calls.flatten)
    (hdb : Valid Owned db.conversations) :
    calls.foldlM (applySlotLogs o env) db = some (applyParts o env db calls.flatten) := by
  induction calls generalizing db with
  | nil => rfl
  | cons call calls ih =>
    have hfirst : Unlisted db.conversationCache call := hcache.mono (subset_append_left ..)
    have hrest : Unlisted (applyParts o env db call).conversationCache calls.flatten :=
      hcache.mono (subset_append_right ..)
    rw [foldlM_cons, applySlotLogs_eq (hwf call (.head calls)) (h call (.head calls)) hfirst hdb, Option.bind_eq_bind,
      Option.bind_some, ih (fun c hc => hwf c (mem_cons_of_mem call hc)) (fun c hc => h c (mem_cons_of_mem call hc))
        hrest (applyParts_valid hdb call), flatten_cons, applyParts_append]

private def eightShards : ApplyOptions where
  shardNum := 8
  isCmdChannel := fun _ => false
  texts := ⟨id, id, fun _ => none, fun s t => s ++ t⟩
  tokenHash := id
  newestFirst := id

private def listOrder : Env := ⟨id, fun _ _ l => l, fun _ l => l, fun _ _ _ => .refl _, fun _ _ => .refl _⟩

/-- User `u` gets a conversation in the group `g`, `uid` loses theirs, and eight more logs make the
call a grouped one. -/
private def addThenDelete (uid : Bytes) : List Log :=
  [⟨1, .conversation (.addOrUpdateUserConversations [117] [{ id := 1, uid := [117], channel := ⟨[103], 2⟩ }])⟩,
    ⟨2, .conversation (.deleteConversation uid ⟨[103], 2⟩)⟩] ++
  (List.range 8).map fun i => ⟨UInt64.ofNat i + 3, .table (.systemUIDsAdd [])⟩

/-- A list of user `w` is cached. -/
private def listed : DB where
  conversationCache key := if key = [119, 58] then some ⟨[], 0⟩ else none

end WuKongIM.Cluster

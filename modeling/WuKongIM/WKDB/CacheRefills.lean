import WuKongIM.Lib.ReadThrough
import WuKongIM.WKDB.Permissions

/-! Readers that fill a cache while a writer is under way: the queries about the members of a
channel and about its last number, against the writers of the same entries. -/
namespace WuKongIM.WKDB
open Lib List Function PermissionDB

/-- What a writer does to the cache of permissions, one call of the cache after the other. -/
inductive CacheStep
  | set (key : Bytes) (value : Bool)
  | keys (p : PermissionType)
  | remove (key : Bytes)

namespace PermissionDB
variable (c : Channel)

def batchSteps (p : PermissionType) (uids : List Bytes) (value : Bool) : List CacheStep :=
  uids.map fun uid => .set (getPermissionKey p c uid) value

def allowlistSteps (uids : List Bytes) (value : Bool) : List CacheStep :=
  batchSteps c .allowlist uids value ++
    if value = true ∧ uids ≠ [] then [.set (getPermissionKey .hasAllowlist c []) true] else []

/-- A writer that is refused does not get as far as the cache. -/
def Action.cacheSteps : Action → List CacheStep
  | .addSubscribers members =>
    if channelToNum c = 0 ∨ ∃ m ∈ members, hashWithString m.uid = 0 then []
    else batchSteps c .subscriber (members.map (·.uid)) true
  | .removeSubscribers uids => batchSteps c .subscriber uids.eraseDups false
  | .removeAllSubscriber => if channelToNum c = 0 then [] else [.keys .subscriber]
  | .addAllowlist members => allowlistSteps c (members.map (·.uid)) true
  | .removeAllowlist uids => allowlistSteps c uids false
  | .removeAllAllowlist => [.keys .allowlist, .remove (getPermissionKey .hasAllowlist c [])]
  | .addDenylist members => batchSteps c .denylist (members.map (·.uid)) true
  | .removeDenylist uids => batchSteps c .denylist uids false
  | .removeAllDenylist => [.keys .denylist]
  | _ => []

/-- The invalidation of a list takes the keys of the cache first and removes those it finds
afterwards; of these, only the entry's own is followed here. -/
def perform (key : Bytes) : CacheStep → PermissionDB → PermissionDB × List CacheStep
  | .set k value, s => ({ s with cache := s.cache.setPermission k value }, [])
  | .keys p, s => (s, if PermissionCache.goesOn (PermissionCache.channelKeys c p) key ∧ (s.cache key).isSome then
      [.remove key] else [])
  | .remove k, s => ({ s with cache := s.cache.remove k }, [])

def settles (key : Bytes) : CacheStep → Bool
  | .set k _ => k = key
  | .keys p => PermissionCache.goesOn (PermissionCache.channelKeys c p) key
  | .remove k => k = key

def stored (p : PermissionType) (uid : Bytes) (s : PermissionDB) : Bool :=
  if p = .hasAllowlist then !(s.tables.getAllowlist c).isEmpty
  else ((s.list (channelToNum c) p).uidIndex (hashWithString uid)).isSome

/-- The tables come with the commit, the cache after it. -/
def refill (a : Action) (p : PermissionType) (uid : Bytes) : ReadThrough PermissionDB Bool CacheStep where
  entry s := s.cache.getPermission (getPermissionKey p c uid)
  load := stored c p uid
  keeps _ := true
  fill value s := { s with cache := s.cache.setPermission (getPermissionKey p c uid) value }
  evict s := { s with cache := s.cache.remove (getPermissionKey p c uid) }
  commit s := { s with tables := (s.apply c a).tables }
  updates := a.cacheSteps c
  perform := perform c (getPermissionKey p c uid)
  settles := settles c (getPermissionKey p c uid)
  entry_fill _ _ := update_self ..
  load_fill _ _ := rfl
  entry_evict _ := update_self ..
  load_evict _ := rfl
  entry_commit _ := rfl
  load_perform k _ := by cases k <;> rfl
  entry_perform k s h := by
    cases k with
    | set k value => exact update_of_ne (Ne.symm (of_decide_eq_false h)) ..
    | keys q => rfl
    | remove k => exact update_of_ne (Ne.symm (of_decide_eq_false h)) ..

/-- The actions that change a list, of names among the given ones. -/
def Action.Writes (names : Bytes → Prop) : Action → Prop
  | .addSubscribers members | .addAllowlist members | .addDenylist members => ∀ m ∈ members, names m.uid
  | .removeSubscribers uids | .removeAllowlist uids | .removeDenylist uids => ∀ uid ∈ uids, names uid
  | .removeAllSubscriber | .removeAllAllowlist | .removeAllDenylist => True
  | _ => False

/-- A step and what it brings up, with nothing in between. -/
def performAll (key : Bytes) (s : PermissionDB) (k : CacheStep) : PermissionDB :=
  (perform c key k s).2.foldl (fun s k => (perform c key k s).1) (perform c key k s).1

variable {c} {names : Bytes → Prop} {a : Action} {p : PermissionType} {uid : Bytes} {s : PermissionDB}

theorem performAll_batch (key : Bytes) (q : PermissionType) (uids : List Bytes) (value : Bool) :
    (batchSteps c q uids value).foldl (performAll c key) s =
      { s with cache := uids.foldl (fun cache uid => cache.setPermission (getPermissionKey q c uid) value) s.cache } := by
  rw [batchSteps, foldl_map]
  induction uids generalizing s with
  | nil => rfl
  | cons u uids ih => exact ih

theorem performAll_allowlist (key : Bytes) (uids : List Bytes) (value : Bool) :
    (allowlistSteps c uids value).foldl (performAll c key) s =
      { s with cache := s.cache.batchSetAllowlistExists c uids value } := by
  rw [allowlistSteps, foldl_append, performAll_batch, PermissionCache.batchSetAllowlistExists]
  split <;> rfl

theorem performAll_keys {q : PermissionType} (hq : q ≠ .hasAllowlist) (key : Bytes) :
    (performAll c key s (.keys q)).cache key = s.cache.invalidateChannelByType c q key := by
  rw [PermissionCache.invalidateChannelByType, if_neg hq, performAll, perform]
  by_cases hgoes : PermissionCache.goesOn (PermissionCache.channelKeys c q) key
  · cases hentry : s.cache key with
    | none => simp [hgoes, hentry]
    | some value => simp [hgoes, perform, PermissionCache.remove]
  · simp [hgoes]

theorem performAll_remove (key k : Bytes) : (performAll c key s (.remove k)).cache key =
    if key = k then none else s.cache key := update_apply ..

/-- Without anyone in between, the commit and the steps after it are the writer as a whole, as far
as the entry goes. -/
theorem entry_apply (ha : a.Writes names) (p : PermissionType) (uid : Bytes) (s : PermissionDB) :
    (refill c a p uid).entry
        ((a.cacheSteps c).foldl (performAll c (getPermissionKey p c uid)) ((refill c a p uid).commit s)) =
      (refill c a p uid).entry (s.apply c a) := by
  cases a with
  | addSubscribers members =>
    simp only [refill, apply, addSubscribers, Action.cacheSteps]
    split
    · rfl
    · rw [performAll_batch]
      rfl
  | removeSubscribers uids =>
    rw [Action.cacheSteps, performAll_batch]
    rfl
  | removeAllSubscriber =>
    simp only [refill, apply, removeAllSubscriber, Action.cacheSteps]
    split
    · rfl
    · rw [foldl_cons, foldl_nil, PermissionCache.getPermission, performAll_keys (by decide)]
      rfl
  | addAllowlist members | removeAllowlist uids =>
    rw [Action.cacheSteps, performAll_allowlist]
    rfl
  | removeAllAllowlist =>
    simp only [refill, apply, removeAllAllowlist, Action.cacheSteps, foldl_cons, foldl_nil]
    rw [PermissionCache.getPermission, PermissionCache.getPermission, performAll_remove, performAll_keys (by decide)]
    exact (update_apply ..).symm
  | addDenylist members | removeDenylist uids =>
    rw [Action.cacheSteps, performAll_batch]
    rfl
  | removeAllDenylist =>
    simp only [refill, apply, removeAllDenylist, Action.cacheSteps, foldl_cons, foldl_nil]
    rw [PermissionCache.getPermission, performAll_keys (by decide)]
    rfl
  | existSubscriber _ | existAllowlist _ | existDenylist _ | hasAllowlist | evict _ => exact ha.elim

theorem answer_eq_refill : s.answer (getPermissionKey p c uid) (stored c p uid s) = match (refill c a p uid).entry s with
    | some value => (value, s)
    | none => ((refill c a p uid).load s, (refill c a p uid).fill ((refill c a p uid).load s) s) := rfl

theorem tables_apply (ha : a.Writes names) (t : ChannelTables) (cache cache' : PermissionCache) :
    (apply ⟨t, cache⟩ c a).tables = (apply ⟨t, cache'⟩ c a).tables := by
  cases a with
  | addSubscribers members =>
    simp only [apply, addSubscribers]
    split <;> rfl
  | removeAllSubscriber =>
    simp only [apply, removeAllSubscriber]
    split <;> rfl
  | removeSubscribers _ | addAllowlist _ | removeAllowlist _ | removeAllAllowlist | addDenylist _ | removeDenylist _
  | removeAllDenylist => rfl
  | existSubscriber _ | existAllowlist _ | existDenylist _ | hasAllowlist | evict _ => exact ha.elim

theorem set_mem_batchSteps {q : PermissionType} {uids : List Bytes} {v value : Bool}
    (h : .set (getPermissionKey p c uid) v ∈ batchSteps c q uids value) : p = q ∧ uid ∈ uids ∧ v = value := by
  obtain ⟨u, hu, heq⟩ := mem_map.mp h
  obtain ⟨hkey, rfl⟩ := CacheStep.set.inj heq
  obtain ⟨rfl, rfl⟩ := PermissionId.getPermissionKey_inj.mp hkey
  exact ⟨rfl, hu, rfl⟩

theorem cache_of_set_mem_batch {q : PermissionType} {uids : List Bytes} {v value : Bool}
    {cache : PermissionCache} (h : .set (getPermissionKey p c uid) v ∈ batchSteps c q uids value) :
    uids.foldl (fun cache uid => cache.setPermission (getPermissionKey q c uid) value) cache
      (getPermissionKey p c uid) = some v := by
  obtain ⟨rfl, hu, rfl⟩ := set_mem_batchSteps h
  rw [foldl_setPermission, if_pos ⟨rfl, hu⟩]

theorem cache_of_set_mem_allowlist {uids : List Bytes} {v value : Bool} {cache : PermissionCache}
    (h : .set (getPermissionKey p c uid) v ∈ allowlistSteps c uids value) :
    cache.batchSetAllowlistExists c uids value (getPermissionKey p c uid) = some v := by
  rcases mem_append.mp h with h | h
  · obtain ⟨rfl, hu, rfl⟩ := set_mem_batchSteps h
    rw [batchExists_apply _ _ _ _ (by decide), if_pos ⟨rfl, hu⟩]
  · split at h
    · next hcond =>
      obtain ⟨hkey, rfl⟩ := CacheStep.set.inj (mem_singleton.mp h)
      rw [hkey, batchExists_has, if_pos hcond]
    · cases h

/-- A value that a writer sets is in the cache when the writer is through. -/
theorem cache_of_set_mem {v : Bool} (h : .set (getPermissionKey p c uid) v ∈ a.cacheSteps c) :
    (s.apply c a).cache (getPermissionKey p c uid) = some v := by
  cases a with
  | addSubscribers members =>
    simp only [apply, addSubscribers, Action.cacheSteps] at h ⊢
    split at h
    · cases h
    · next hcond =>
      rw [if_neg hcond]
      exact cache_of_set_mem_batch h
  | removeAllSubscriber =>
    simp only [Action.cacheSteps] at h
    split at h <;> simp at h
  | removeSubscribers _ | addDenylist _ | removeDenylist _ => exact cache_of_set_mem_batch h
  | addAllowlist _ | removeAllowlist _ => exact cache_of_set_mem_allowlist h
  | removeAllAllowlist | removeAllDenylist => simp [Action.cacheSteps] at h
  | existSubscriber _ | existAllowlist _ | existDenylist _ | hasAllowlist | evict _ => cases h

def Listed (names : Bytes → Prop) (c : Channel) (s : PermissionDB) : Prop := ∀ q, (s.list (channelToNum c) q).Sound names

theorem Sound.coherent (h : s.Sound names c) (hn : Hashed names) (hp : HasEntry p uid) (hu : p ≠ .hasAllowlist → names uid)
    {v : Bool} (hv : s.cache (getPermissionKey p c uid) = some v) : v = stored c p uid s := by
  rw [stored]
  split
  · next hk =>
    rw [hp hk, hk] at hv
    exact Bool.eq_iff_iff.mpr ((h.cachedHas v hv).trans (h.hasAllowlist_iff hn).symm)
  · next hk =>
    rw [h.cached p uid v hk (hu hk) hv, MemberTable.has, (h.lists p).indexed]

/-- A writer that finds the cache empty leaves lists and cache as they should be. -/
theorem Listed.apply (h : Listed names c s) (hn : Hashed names) (ha : a.Writes names) :
    Sound names c (apply ⟨s.tables, fun _ => none⟩ c a) := by
  have hcareful : Careful names c ⟨s.tables, fun _ => none⟩ a := by
    cases a with
    | removeAllowlist uids => exact ⟨ha, nofun⟩
    | removeAllSubscriber | removeAllAllowlist | removeAllDenylist => exact nofun
    | addSubscribers _ | addAllowlist _ | addDenylist _ | removeSubscribers _ | removeDenylist _ => exact ha
    | existSubscriber _ | existAllowlist _ | existDenylist _ | hasAllowlist | evict _ => exact ha.elim
  have hsound : Sound names c ⟨s.tables, fun _ => none⟩ := ⟨h, nofun, nofun⟩
  exact hsound.apply hn hcareful

theorem refill_writes (hn : Hashed names) (ha : a.Writes names) (hp : HasEntry p uid)
    (hu : p ≠ .hasAllowlist → names uid) : (refill c a p uid).Writes (Listed names c)
      (fun s => ∀ v, .set (getPermissionKey p c uid) v ∈ a.cacheSteps c → v = stored c p uid s)
      (fun k => k ∈ a.cacheSteps c ∨ k = .remove (getPermissionKey p c uid)) where
  good_fill _ _ h := h
  good_evict _ h := h
  done_fill _ _ h := h
  done_evict _ h := h
  done_commit s h v hv := by
    have hset : (PermissionDB.apply ⟨s.tables, fun _ => none⟩ c a).cache (getPermissionKey p c uid) = some v :=
      cache_of_set_mem hv
    rw [(h.apply hn ha).coherent hn hp hu hset]
    simp only [stored, list, refill, tables_apply ha s.tables (fun _ => none) s.cache]
  done_perform k _ h := by cases k <;> exact h
  own_updates _ hk := .inl hk
  own_perform k s _ k' hk' := by
    cases k with
    | set _ _ | remove _ => cases hk'
    | keys q =>
      simp only [refill, perform] at hk'
      split at hk'
      · exact .inr (mem_singleton.mp hk')
      · cases hk'
  perform k s hdone hown hsettles := by
    cases k with
    | set key value =>
      obtain rfl : key = getPermissionKey p c uid := of_decide_eq_true hsettles
      rcases hown with hmem | hremove
      · exact .inr ((refill c a p uid).coherent_fill (hdone value hmem))
      · cases hremove
    | keys q =>
      have hgoes : PermissionCache.goesOn (PermissionCache.channelKeys c q) (getPermissionKey p c uid) := hsettles
      cases hentry : s.cache (getPermissionKey p c uid) with
      | some value => exact .inl (by simp [refill, perform, settles, hgoes, hentry])
      | none =>
        refine .inr fun v hv => ?_
        cases hentry.symm.trans hv
    | remove key =>
      obtain rfl : key = getPermissionKey p c uid := of_decide_eq_true hsettles
      exact .inr ((refill c a p uid).coherent_evict s)

end PermissionDB

/-- The writers of the number of the last message, past their checks. -/
inductive SeqWrite
  | appendMessages (msgs : List Message) (lastMsg : Message)
  | truncateLogTo (messageSeq : UInt64)

/-- What they do to the caches: the entry of the channel is set or removed, and each message is
noted for its sender. -/
inductive SeqStep
  | channelSeq (value : Option UInt64)
  | userSeq (m : Message)

variable (c : Channel)

def SeqWrite.commit (db : WukongDB) : SeqWrite → WukongDB
  | appendMessages msgs lastMsg => db.commit c fun s =>
    (msgs.foldl (Shard.writeMessage (channelToNum c)) s).setChannelLastMessageSeq (channelToNum c) lastMsg.messageSeq.toUInt64
  | truncateLogTo messageSeq => db.commit c fun s =>
    (s.deleteRange (primaryKey (channelToNum c) (messageSeq + 1)) (primaryKey (channelToNum c) maxUint64)).setChannelLastMessageSeq
      (channelToNum c) messageSeq

def SeqWrite.steps : SeqWrite → List SeqStep
  | appendMessages msgs lastMsg => .channelSeq (some lastMsg.messageSeq.toUInt64) :: msgs.map .userSeq
  | truncateLogTo _ => [.channelSeq none]

def SeqStep.perform (db : WukongDB) : SeqStep → WukongDB
  | channelSeq value => { db with channelSeqCache := update db.channelSeqCache (channelToKey c) value }
  | userSeq m => { db with userLastMsgSeqCache := WukongDB.updateIfGreater c db.userLastMsgSeqCache m }

def SeqStep.settles : SeqStep → Bool
  | channelSeq _ => true
  | userSeq _ => false

def SeqWrite.lastSeq : SeqWrite → UInt64
  | appendMessages _ lastMsg => lastMsg.messageSeq.toUInt64
  | truncateLogTo messageSeq => messageSeq

namespace WukongDB
variable {db : WukongDB} {c : Channel}

theorem foldl_userSeq (msgs : List Message) : (msgs.map SeqStep.userSeq).foldl (SeqStep.perform c) db =
    { db with userLastMsgSeqCache := msgs.foldl (updateIfGreater c) db.userLastMsgSeqCache } := by
  rw [foldl_map]
  induction msgs generalizing db with
  | nil => rfl
  | cons m msgs ih => exact ih

theorem appendMessages_eq (msgs : List Message) : db.appendMessages c msgs = match msgs.find? fun m => m.channel ≠ c with
    | some m => .error (.channelIdentity m.channelID m.channelType c.id c.type)
    | none =>
      match msgs.getLast? with
      | none => .error .panic
      | some lastMsg =>
        let w := SeqWrite.appendMessages msgs lastMsg
        .ok (w.steps.foldl (SeqStep.perform c) (w.commit c db)) := by
  simp only [SeqWrite.steps, foldl_cons, foldl_userSeq]
  rfl

theorem truncateLogTo_eq (messageSeq : UInt64) : db.truncateLogTo c messageSeq =
    if messageSeq = 0 then .error (.truncateMessageSeq messageSeq)
    else if messageSeq ≥ (db.getChannelLastMessageSeq c).1 then .ok
    (db.getChannelLastMessageSeq c).2 else
      let w := SeqWrite.truncateLogTo messageSeq
      .ok (w.steps.foldl (SeqStep.perform c) (w.commit c (db.getChannelLastMessageSeq c).2)) := rfl

/-- A number that is not in the database is answered as zero and not kept. -/
def refill (c : Channel) (w : SeqWrite) : ReadThrough WukongDB UInt64 SeqStep where
  entry db := db.channelSeqCache (channelToKey c)
  load db := ((db.channelDb c).lastSeqs (channelToNum c)).getD 0
  keeps db := ((db.channelDb c).lastSeqs (channelToNum c)).isSome
  fill seq db := { db with channelSeqCache := update db.channelSeqCache (channelToKey c) (some seq) }
  evict db := { db with channelSeqCache := update db.channelSeqCache (channelToKey c) none }
  commit db := w.commit c db
  updates := w.steps
  perform k db := (k.perform c db, [])
  settles := SeqStep.settles
  entry_fill _ _ := update_self ..
  load_fill _ _ := rfl
  entry_evict _ := update_self ..
  load_evict _ := rfl
  entry_commit _ := by cases w <;> rfl
  load_perform k _ := by cases k <;> rfl
  entry_perform k _ h := by
    cases k with
    | channelSeq value => cases h
    | userSeq m => rfl

theorem lastSeq_eq_refill (w : SeqWrite) : db.getChannelLastMessageSeq c = match (refill c w).entry db with
    | some seq => (seq, db)
    | none => ((refill c w).load db,
      if (refill c w).keeps db then (refill c w).fill ((refill c w).load db) db else db) := by
  rcases Option.eq_none_or_eq_some (db.channelSeqCache (channelToKey c)) with hentry | ⟨seq, hentry⟩
  · rcases Option.eq_none_or_eq_some ((db.channelDb c).lastSeqs (channelToNum c)) with hlast | ⟨seq, hlast⟩
    all_goals simp [getChannelLastMessageSeq, refill, hentry, hlast]
  · simp [getChannelLastMessageSeq, refill, hentry]

theorem refill_writes (c : Channel) (w : SeqWrite) :
    (refill c w).Writes (fun _ => True) (fun db => ((db.channelDb c).lastSeqs (channelToNum c)).getD 0 = w.lastSeq)
      (fun k => ∀ seq, k = .channelSeq (some seq) → seq = w.lastSeq) where
  good_fill _ _ h := h
  good_evict _ h := h
  done_fill _ _ h := h
  done_evict _ h := h
  done_commit db _ := by
    cases w <;> simp [refill, SeqWrite.commit, SeqWrite.lastSeq, commit, channelDb, channelDbIndex,
      Shard.setChannelLastMessageSeq]
  done_perform k _ h := by cases k <;> exact h
  own_updates k hk seq heq := by
    subst heq
    cases w <;> simp_all [refill, SeqWrite.steps, SeqWrite.lastSeq]
  own_perform _ _ _ := forall_mem_nil _
  perform k db hdone hown hsettles := by
    cases k with
    | userSeq m => cases hsettles
    | channelSeq value =>
      refine .inr fun v hv => ?_
      simp only [refill, SeqStep.perform, update_self] at hv
      subst hv
      exact (hown v rfl).trans hdone.symm

end WukongDB

variable {ι : Type} [DecidableEq ι]

private def barred (uid : Bytes) : Prop := uid = [117]

private theorem barred_hashed : Hashed barred where
  inj u u' hu hu' _ := hu.trans hu'.symm
  ne_zero u hu := by
    subst hu
    decide
  ne_max u hu := by
    subst hu
    decide

private def guarded : PermissionDB := ⟨({} : ChannelTables).addDenylist ⟨[103], 2⟩ [{ uid := [117] }], fun _ => none⟩

private def barrier (a : PermissionDB.Action) : ReadThrough PermissionDB Bool CacheStep :=
  PermissionDB.refill ⟨[103], 2⟩ a .denylist [117]

private theorem guarded_start (a : PermissionDB.Action) : (barrier a).Start (PermissionDB.Listed barred ⟨[103], 2⟩)
    (⟨guarded, .writing, fun _ => .idle⟩ : Session _ _ _ Bool) := by
  refine ⟨fun q => ?_, nofun, rfl, fun _ => rfl⟩
  have hempty : Sound barred ⟨[103], 2⟩ {} := ⟨fun q => by cases q <;> exact .empty, nofun, nofun⟩
  have hadded : Sound barred ⟨[103], 2⟩ (addDenylist {} ⟨[103], 2⟩ [{ uid := [117] }]) :=
    hempty.addDenylist barred_hashed (by simp [barred])
  exact hadded.lists q

/-- The list is removed as a whole; readers fill while the writer still has the entry before it. -/
private def barrierCheck (s : Session PermissionDB Bool CacheStep Bool) : Move Bool → Bool
  | .fill _ => (barrier .removeAllDenylist).pending s.stage
  | _ => true

private theorem careful_of_barrierCheck (s : Session PermissionDB Bool CacheStep Bool)
    (m : Move Bool) (h : barrierCheck s m) : (barrier .removeAllDenylist).Careful s m := by
  cases m with
  | fill i =>
    rintro late value - - hpending
    exact absurd h (by simp [barrierCheck, hpending])
  | commit => exact fun hleft => absurd hleft (by decide +kernel)
  | lookup i | load i | evict | update | finish => trivial

end WuKongIM.WKDB

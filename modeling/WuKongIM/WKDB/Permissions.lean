import WuKongIM.Lib.Run
import WuKongIM.WKDB.CacheKeys
import WuKongIM.WKDB.Members

/-! The lists of members of a channel with the cache of permissions in front of them, and the
queries about them. -/
namespace WuKongIM.WKDB
open Lib List Function MemberTable PermissionCache

structure PermissionDB where
  tables : ChannelTables := {}
  cache : PermissionCache := fun _ => none

namespace PermissionDB
variable (s : PermissionDB) (c : Channel) {uid : Bytes} {names : Bytes → Prop}

section

variable (members : List Member)

/-- A channel or a member of number zero is refused. -/
def addSubscribers : PermissionDB :=
  if channelToNum c = 0 ∨ ∃ m ∈ members, hashWithString m.uid = 0 then s
  else ⟨s.tables.addSubscribers c members, s.cache.batchSetSubscriberExists c (members.map (·.uid)) true⟩

variable (uids : List Bytes)

def removeSubscribers : PermissionDB :=
  ⟨s.tables.removeSubscribers c uids, s.cache.batchSetSubscriberExists c uids.eraseDups false⟩

def removeAllSubscriber : PermissionDB :=
  if channelToNum c = 0 then s
  else ⟨s.tables.removeAllSubscriber c, s.cache.invalidateChannelByType c .subscriber⟩

def addAllowlist : PermissionDB :=
  ⟨s.tables.addAllowlist c members, s.cache.batchSetAllowlistExists c (members.map (·.uid)) true⟩

def removeAllowlist : PermissionDB :=
  ⟨s.tables.removeAllowlist c uids, s.cache.batchSetAllowlistExists c uids false⟩

def removeAllAllowlist : PermissionDB :=
  ⟨s.tables.removeAllAllowlist c,
    (s.cache.invalidateChannelByType c .allowlist).invalidateChannelByType c .hasAllowlist⟩

def addDenylist : PermissionDB :=
  ⟨s.tables.addDenylist c members, s.cache.batchSetDenylistExists c (members.map (·.uid)) true⟩

def removeDenylist : PermissionDB :=
  ⟨s.tables.removeDenylist c uids, s.cache.batchSetDenylistExists c uids false⟩

def removeAllDenylist : PermissionDB :=
  ⟨s.tables.removeAllDenylist c, s.cache.invalidateChannelByType c .denylist⟩

/-- The cache first, then what the tables say, which is kept in the cache. -/
def answer (key : Bytes) (stored : Bool) : Bool × PermissionDB :=
  match s.cache.getPermission key with
  | some value => (value, s)
  | none => (stored, { s with cache := s.cache.setPermission key stored })

variable (uid : Bytes)

def existSubscriber : Bool × PermissionDB :=
  s.answer (getPermissionKey .subscriber c uid)
    ((s.tables.subscribers (channelToNum c)).uidIndex (hashWithString uid)).isSome

def existAllowlist : Bool × PermissionDB :=
  s.answer (getPermissionKey .allowlist c uid)
    ((s.tables.allowlist (channelToNum c)).uidIndex (hashWithString uid)).isSome

def existDenylist : Bool × PermissionDB :=
  s.answer (getPermissionKey .denylist c uid)
    ((s.tables.denylist (channelToNum c)).uidIndex (hashWithString uid)).isSome

def hasAllowlist : Bool × PermissionDB :=
  s.answer (getPermissionKey .hasAllowlist c []) (!(s.tables.getAllowlist c).isEmpty)

end

/-- What can happen to the lists of a channel and to the cache. An entry that expires is as good as
evicted. -/
inductive Action
  | addSubscribers (members : List Member)
  | removeSubscribers (uids : List Bytes)
  | removeAllSubscriber
  | addAllowlist (members : List Member)
  | removeAllowlist (uids : List Bytes)
  | removeAllAllowlist
  | addDenylist (members : List Member)
  | removeDenylist (uids : List Bytes)
  | removeAllDenylist
  | existSubscriber (uid : Bytes)
  | existAllowlist (uid : Bytes)
  | existDenylist (uid : Bytes)
  | hasAllowlist
  | evict (key : Bytes)

def apply : Action → PermissionDB
  | .addSubscribers members => s.addSubscribers c members
  | .removeSubscribers uids => s.removeSubscribers c uids
  | .removeAllSubscriber => s.removeAllSubscriber c
  | .addAllowlist members => s.addAllowlist c members
  | .removeAllowlist uids => s.removeAllowlist c uids
  | .removeAllAllowlist => s.removeAllAllowlist c
  | .addDenylist members => s.addDenylist c members
  | .removeDenylist uids => s.removeDenylist c uids
  | .removeAllDenylist => s.removeAllDenylist c
  | .existSubscriber uid => (s.existSubscriber c uid).2
  | .existAllowlist uid => (s.existAllowlist c uid).2
  | .existDenylist uid => (s.existDenylist c uid).2
  | .hasAllowlist => (s.hasAllowlist c).2
  | .evict key => { s with cache := s.cache.remove key }

def step (c : Channel) (s : PermissionDB) (a : Action) : Option PermissionDB := some (s.apply c a)

def list (num : UInt64) : PermissionType → MemberTable
  | .subscriber => s.tables.subscribers num
  | .denylist => s.tables.denylist num
  | .allowlist | .hasAllowlist => s.tables.allowlist num

/-- The names are of the given ones; a removal that empties the allowlist does not meet the cached
answer that there is one; and the removal of a whole list does not meet a cached member without a
name. -/
def Careful (names : Bytes → Prop) (c : Channel) (s : PermissionDB) : Action → Prop
  | .addSubscribers members | .addAllowlist members | .addDenylist members => ∀ m ∈ members, names m.uid
  | .removeSubscribers uids | .removeDenylist uids => ∀ uid ∈ uids, names uid
  | .removeAllowlist uids => (∀ uid ∈ uids, names uid) ∧
      (s.cache.getHasAllowlist c = some true → ∃ m ∈ s.tables.getAllowlist c, m.uid ∉ uids)
  | .removeAllSubscriber => s.cache.getSubscriberExists c [] ≠ some true
  | .removeAllAllowlist => s.cache.getAllowlistExists c [] ≠ some true
  | .removeAllDenylist => s.cache.getDenylistExists c [] ≠ some true
  | _ => True

structure AnswersRight (names : Bytes → Prop) (c : Channel) (s : PermissionDB) : Prop where
  subscriber : ∀ uid, names uid → ((s.existSubscriber c uid).1 = true ↔ uid ∈ (s.tables.getSubscribers c).map (·.uid))
  allowlist : ∀ uid, names uid → ((s.existAllowlist c uid).1 = true ↔ uid ∈ (s.tables.getAllowlist c).map (·.uid))
  denylist : ∀ uid, names uid → ((s.existDenylist c uid).1 = true ↔ uid ∈ (s.tables.getDenylist c).map (·.uid))
  hasAllowlist : (s.hasAllowlist c).1 = true ↔ s.tables.getAllowlist c ≠ []

variable {cache : PermissionCache} {c : Channel} {value : Bool}

theorem foldl_setPermission (p q : PermissionType) (uids : List Bytes) :
    uids.foldl (fun cache uid => cache.setPermission (getPermissionKey p c uid) value) cache
      (getPermissionKey q c uid) = if q = p ∧ uid ∈ uids then some value else cache (getPermissionKey q c uid) := by
  induction uids generalizing cache with
  | nil => simp
  | cons u uids ih =>
    rw [foldl_cons, ih, setPermission, update_apply]
    simp only [PermissionId.getPermissionKey_inj]
    by_cases hq : q = p
    · by_cases hu : uid = u <;> by_cases hm : uid ∈ uids <;> simp [hq, hu]
    · simp [hq]

variable {p : PermissionType} {q : PermissionType}

theorem foldl_set_of_ne (h : q ≠ p) (uids : List Bytes) :
    uids.foldl (fun cache uid => cache.setPermission (getPermissionKey p c uid) value) cache
      (getPermissionKey q c uid) = cache (getPermissionKey q c uid) :=
  (foldl_setPermission p q uids).trans (if_neg fun hq => h hq.1)

variable (cache c) (uids : List Bytes) (value) {s : PermissionDB}

theorem batchExists_apply (hq : q ≠ .hasAllowlist) (uid : Bytes) :
    cache.batchSetAllowlistExists c uids value (getPermissionKey q c uid) =
      if q = .allowlist ∧ uid ∈ uids then some value else cache (getPermissionKey q c uid) := by
  rw [batchSetAllowlistExists]
  split
  · rw [setHasAllowlist, setPermission, update_of_ne]
    · exact foldl_setPermission .allowlist q uids
    · exact fun h => hq (PermissionId.getPermissionKey_inj.mp h).1
  · exact foldl_setPermission .allowlist q uids

theorem batchExists_has : cache.batchSetAllowlistExists c uids value (getPermissionKey .hasAllowlist c []) =
    if value ∧ uids ≠ [] then some true else cache (getPermissionKey .hasAllowlist c []) := by
  rw [batchSetAllowlistExists]
  split
  · exact update_self ..
  · exact (foldl_setPermission .allowlist .hasAllowlist uids).trans (by simp)

section
variable {s' : PermissionDB} {c : Channel}

structure Sound (names : Bytes → Prop) (c : Channel) (s : PermissionDB) : Prop where
  lists : ∀ p, (s.list (channelToNum c) p).Sound names
  cached : ∀ p uid b, p ≠ .hasAllowlist → names uid → s.cache (getPermissionKey p c uid) = some b →
    b = (s.list (channelToNum c) p).has uid
  cachedHas : ∀ b, s.cache (getPermissionKey .hasAllowlist c []) = some b →
    (b = true ↔ ∃ id, ((s.list (channelToNum c) .allowlist).rows id).isSome = true)

variable (h : s.Sound names c)
include h

theorem Sound.has_kept (hlist : s'.list (channelToNum c) .allowlist = s.list (channelToNum c) .allowlist)
    (hcache : ∀ b, s'.cache (getPermissionKey .hasAllowlist c []) = some b →
      s.cache (getPermissionKey .hasAllowlist c []) = some b) (b : Bool)
    (hb : s'.cache (getPermissionKey .hasAllowlist c []) = some b) :
    b ↔ ∃ id, ((s'.list (channelToNum c) .allowlist).rows id).isSome := by
  rw [hlist]
  exact h.cachedHas b (hcache b hb)

variable (hother : ∀ q, q ≠ p → (q = .hasAllowlist → p ≠ .allowlist) → s'.list (channelToNum c) q = s.list (channelToNum c) q)
  (hlist : (s'.list (channelToNum c) p).Sound names) (hhas : ∀ b, s'.cache (getPermissionKey .hasAllowlist c []) = some b →
    (b ↔ ∃ id, ((s'.list (channelToNum c) .allowlist).rows id).isSome))
include hother hlist hhas

theorem Sound.change (hkept : ∀ q uid b, q ≠ p → q ≠ .hasAllowlist → s'.cache (getPermissionKey q c uid) = some b →
      s.cache (getPermissionKey q c uid) =
        some b) (hown : ∀ uid b, names uid → s'.cache (getPermissionKey p c uid) = some b →
      b = (s'.list (channelToNum c) p).has uid) : s'.Sound names c := by
  have hrest (q : PermissionType) (hq : q ≠ p) (hq' : q ≠ .hasAllowlist) :
      s'.list (channelToNum c) q = s.list (channelToNum c) q := hother q hq fun h => absurd h hq'
  have hlists (q : PermissionType) (hq : q ≠ .hasAllowlist) : (s'.list (channelToNum c) q).Sound names := by
    by_cases hqp : q = p
    · exact hqp ▸ hlist
    · exact hrest q hqp hq ▸ h.lists q
  refine ⟨fun q => ?_, fun q uid b hq hu hc => ?_, hhas⟩
  · by_cases hq : q = .hasAllowlist
    · subst hq
      exact hlists .allowlist nofun
    · exact hlists q hq
  · by_cases hqp : q = p
    · subst hqp
      exact hown uid b hu hc
    · rw [hrest q hqp hq]
      exact h.cached q uid b hq hu (hkept q uid b hqp hq hc)

theorem Sound.set (hp : p ≠ .hasAllowlist) (uids : List Bytes) (value : Bool) (hmember : ∀ uid, names uid →
      (s'.list (channelToNum c) p).has uid = if uid ∈ uids then value else (s.list (channelToNum c) p).has uid)
    (hcache : ∀ q uid, q ≠ .hasAllowlist → s'.cache (getPermissionKey q c uid) = if q = p ∧
      uid ∈ uids then some value else s.cache (getPermissionKey q c uid)) : s'.Sound names c := by
  refine h.change hother hlist hhas (fun q uid b hq hq' hb => ?_) fun uid b hu hb => ?_
  · rwa [hcache q uid hq', if_neg fun h => hq h.1] at hb
  rw [hcache p uid hp] at hb
  rw [hmember uid hu]
  by_cases hm : uid ∈ uids
  · rw [if_pos ⟨rfl, hm⟩] at hb
    rw [if_pos hm]
    exact (Option.some.inj hb).symm
  · rw [if_neg fun h => hm h.2] at hb
    rw [if_neg hm]
    exact h.cached p uid b hp hu hb

theorem Sound.clear (hp : p ≠ .hasAllowlist) (hnil : s.cache (getPermissionKey p c []) ≠ some true)
    (hrows : ∀ id, (s'.list (channelToNum c) p).rows id = none)
    (hcache : ∀ key b, s'.cache key = some b → s.cache.invalidateChannelByType c p key = some b) : s'.Sound names c := by
  refine h.change hother hlist hhas (fun q uid b _ _ hb => byType_eq_some (hcache _ b hb)) fun uid b hu hb => ?_
  have hb := hcache _ b hb
  rw [has, hrows]
  by_cases hu : uid = []
  · subst hu
    cases b with
    | false => rfl
    | true => exact absurd (byType_eq_some hb) hnil
  · rw [byType_eq_none (fun h => absurd h hp) fun _ h => absurd h hu] at hb
    cases hb

omit hlist

variable (hp : p ≠ .hasAllowlist) (hn : Hashed names)
include hp hn

theorem Sound.added {members : List Member} (hm : ∀ m ∈ members, names m.uid)
    (hlist : s'.list (channelToNum c) p = members.foldl write (s.list (channelToNum c) p))
    (hcache : ∀ q uid, q ≠ .hasAllowlist → s'.cache (getPermissionKey q c uid) =
      if q = p ∧ uid ∈ members.map Member.uid then some true else s.cache (getPermissionKey q c uid)) : s'.Sound names c :=
  h.set hother (hlist ▸ (h.lists p).foldl_write hm) hhas hp _ true
    (fun _ hu => by rw [hlist, has_foldl_write hn hm hu]) hcache

theorem Sound.dropped {uids : List Bytes} (hm : ∀ uid ∈ uids, names uid) {index : UInt64 × Member → UInt64}
    (hindex : ∀ e ∈ (s.list (channelToNum c) p).byUids uids, index e = e.1)
    (hlist : s'.list (channelToNum c) p =
      ((s.list (channelToNum c) p).byUids uids).foldl (remove index) (s.list (channelToNum c) p))
    (hcache : ∀ q uid, q ≠ .hasAllowlist → s'.cache (getPermissionKey q c uid) = if q = p ∧
      uid ∈ uids then some false else s.cache (getPermissionKey q c uid)) : s'.Sound names c :=
  h.set hother (hlist ▸ (h.lists p).removed _ hindex) hhas hp _ false
    (fun _ hu => by rw [hlist, has_removed hn hm hu]) hcache

end

section
variable {c : Channel} {members : List Member} {uids : List Bytes}

section
variable (h : s.Sound names c) (hn : Hashed names)
include h hn

theorem Sound.addSubscribers (hm : ∀ m ∈ members, names m.uid) : (s.addSubscribers c members).Sound names c := by
  rw [PermissionDB.addSubscribers]
  split
  · exact h
  · exact h.added (p := .subscriber) (fun q hq _ => by cases q <;> first | rfl | exact absurd rfl hq)
      (h.has_kept rfl fun b hb => (foldl_set_of_ne (by decide) _).symm.trans hb) (by decide) hn hm (update_self ..)
      fun q uid _ => foldl_setPermission .subscriber q _

theorem Sound.removeSubscribers (hm : ∀ uid ∈ uids, names uid) : (s.removeSubscribers c uids).Sound names c := by
  refine h.dropped (p := .subscriber) (fun q hq _ => by cases q <;> first | rfl | exact absurd rfl hq)
    (h.has_kept rfl fun b hb => (foldl_set_of_ne (by decide) _).symm.trans hb) (by decide) hn
    (fun uid hu => hm uid (mem_eraseDups.mp hu)) (fun e he => ?_)
    (update_self ..) fun q uid _ => foldl_setPermission .subscriber q _
  exact ((h.lists .subscriber).named e.1 e.2 (mem_byUids.mp he).2).2

theorem Sound.removeAllSubscriber (hnil : s.cache.getSubscriberExists c [] ≠ some true) :
    (s.removeAllSubscriber c).Sound names c := by
  rw [PermissionDB.removeAllSubscriber]
  split
  · exact h
  have hlist : list ⟨s.tables.removeAllSubscriber c,
    s.cache.invalidateChannelByType c .subscriber⟩ (channelToNum c) .subscriber =
      { uidIndex := fun id => if id = maxUint64 then (s.list (channelToNum c) .subscriber).uidIndex id else none } :=
    update_self ..
  refine h.clear (fun q hq _ => by cases q <;> first | rfl | exact absurd rfl hq) ?_
    (h.has_kept rfl fun b hb => byType_eq_some (p := .subscriber) hb) (by decide) hnil (fun id => ?_) fun _ _ hb => hb
  · exact hlist ▸ (h.lists .subscriber).cleared hn
  · rw [hlist]

theorem Sound.addDenylist (hm : ∀ m ∈ members, names m.uid) : (s.addDenylist c members).Sound names c :=
  h.added (p := .denylist) (fun q hq _ => by cases q <;> first | rfl | exact absurd rfl hq)
    (h.has_kept rfl fun b hb => (foldl_set_of_ne (by decide) _).symm.trans hb) (by decide) hn hm (update_self ..)
    fun q uid _ => foldl_setPermission .denylist q _

theorem Sound.removeDenylist (hm : ∀ uid ∈ uids, names uid) : (s.removeDenylist c uids).Sound names c :=
  h.dropped (p := .denylist) (fun q hq _ => by cases q <;> first | rfl | exact absurd rfl hq)
    (h.has_kept rfl fun b hb => (foldl_set_of_ne (by decide) _).symm.trans hb) (by decide) hn hm
    (fun _ _ => rfl) (update_self ..)
    fun q uid _ => foldl_setPermission .denylist q _

theorem Sound.removeAllDenylist (hnil : s.cache.getDenylistExists c [] ≠ some true) :
    (s.removeAllDenylist c).Sound names c := by
  have hlist : list (s.removeAllDenylist c) (channelToNum c) .denylist =
      ChannelTables.emptied (s.list (channelToNum c) .denylist) := update_self ..
  refine h.clear (fun q hq _ => by cases q <;> first | rfl | exact absurd rfl hq) ?_
    (h.has_kept rfl fun b hb => byType_eq_some (p := .denylist) hb) (by decide) hnil (fun id => ?_) fun _ _ hb => hb
  · exact hlist ▸ (h.lists .denylist).emptied hn
  · exact hlist ▸ (h.lists .denylist).rows_emptied hn id

theorem Sound.getSubscribers_eq : s.tables.getSubscribers c =
    (s.list (channelToNum c) .subscriber).scan.map fun e => e.2.read :=
  (h.lists .subscriber).iterate_scan hn

theorem Sound.getDenylist_eq : s.tables.getDenylist c = (s.list (channelToNum c) .denylist).scan.map fun e => e.2.read :=
  (h.lists .denylist).iterate_filter hn

theorem Sound.getAllowlist_eq : s.tables.getAllowlist c = (s.list (channelToNum c) .allowlist).scan.map fun e => e.2.read :=
  (h.lists .allowlist).iterate_filter hn

end

theorem list_addAllowlist (s : PermissionDB) (c : Channel) (members : List Member) :
    list (s.addAllowlist c members) (channelToNum c) .allowlist =
      members.foldl write (s.list (channelToNum c) .allowlist) := update_self ..

theorem list_removeAllowlist (s : PermissionDB) (c : Channel) (uids : List Bytes) :
    list (s.removeAllowlist c uids) (channelToNum c) .allowlist =
      ((s.list (channelToNum c) .allowlist).byUids uids).foldl (remove Prod.fst) (s.list (channelToNum c) .allowlist) :=
  update_self ..

variable (h : s.Sound names c) (hn : Hashed names)
include h hn

theorem Sound.addAllowlist (hm : ∀ m ∈ members, names m.uid) : (s.addAllowlist c members).Sound names c := by
  have hlist := list_addAllowlist s c members
  refine h.added (fun q hq hq' => ?_) (fun b hb => ?_) (by decide) hn hm hlist fun q uid hq =>
    batchExists_apply s.cache c true _ hq uid
  · cases q <;> first | rfl | exact absurd rfl hq | exact absurd rfl (hq' rfl)
  · rw [hlist]
    have hb := (batchExists_has s.cache c true _).symm.trans hb
    cases members with
    | nil => exact h.cachedHas b hb
    | cons m members =>
      refine ⟨fun _ => ⟨hashWithString m.uid, ?_⟩, fun _ => (Option.some.inj hb).symm⟩
      exact (has_foldl_write hn hm (hm m (.head members))).trans (if_pos (.head _))

theorem Sound.removeAllowlist (hm : ∀ uid ∈ uids, names uid)
    (hleft : s.cache.getHasAllowlist c = some true → ∃ m ∈ s.tables.getAllowlist c, m.uid ∉ uids) :
    (s.removeAllowlist c uids).Sound names c := by
  have hlist := list_removeAllowlist s c uids
  refine h.dropped (fun q hq hq' => ?_) (fun b hb => ?_) (by decide) hn hm (fun _ _ => rfl) hlist
    fun q uid hq => batchExists_apply s.cache c false uids hq uid
  · cases q <;> first | rfl | exact absurd rfl hq | exact absurd rfl (hq' rfl)
  · rw [hlist]
    have hb : s.cache (getPermissionKey .hasAllowlist c []) = some b :=
      ((batchExists_has s.cache c false uids).trans (if_neg fun h => Bool.false_ne_true h.1)).symm.trans hb
    constructor
    · rintro rfl
      obtain ⟨m, hmem, hleft⟩ := hleft hb
      rw [h.getAllowlist_eq hn] at hmem
      obtain ⟨e, he, rfl⟩ := mem_map.mp hmem
      have hrow := mem_scan.mp he
      obtain ⟨hu, hid⟩ := (h.lists .allowlist).named _ _ hrow
      refine ⟨hashWithString e.2.uid, ?_⟩
      have hhas : (s.list (channelToNum c) .allowlist).has e.2.uid := by rw [has, hid, hrow]; rfl
      exact (has_removed hn hm hu _).trans ((if_neg hleft).trans hhas)
    · rintro ⟨id, hid⟩
      refine (h.cachedHas b hb).mpr ⟨id, ?_⟩
      rw [rows_removed] at hid
      split at hid
      · cases hid
      · exact hid

theorem Sound.removeAllAllowlist (hnil : s.cache.getAllowlistExists c [] ≠ some true) :
    (s.removeAllAllowlist c).Sound names c := by
  have hlist : list (s.removeAllAllowlist c) (channelToNum c) .allowlist =
      ChannelTables.emptied (s.list (channelToNum c) .allowlist) := update_self ..
  refine h.clear (fun q hq hq' => ?_) ?_ (fun b hb => nomatch (update_self ..).symm.trans hb) (by decide) hnil (fun id => ?_)
    fun key b hb => remove_eq_some hb
  · cases q <;> first | rfl | exact absurd rfl hq | exact absurd rfl (hq' rfl)
  · exact hlist ▸ (h.lists .allowlist).emptied hn
  · exact hlist ▸ (h.lists .allowlist).rows_emptied hn id

end

section
variable {c : Channel}

variable (h : s.Sound names c)
include h

theorem Sound.query (hp : p ≠ .hasAllowlist) :
    (s.answer (getPermissionKey p c uid) ((s.list (channelToNum c) p).uidIndex (hashWithString uid)).isSome).2.Sound names c := by
  rw [answer]
  split
  · exact h
  rw [(h.lists p).indexed]
  refine h.set (fun _ _ _ => rfl) (h.lists p)
    (h.has_kept rfl fun b hb => (foldl_set_of_ne (Ne.symm hp) [uid]).symm.trans hb) hp [uid]
    ((s.list (channelToNum c) p).has uid) (fun u _ => ?_) fun q u _ => foldl_setPermission p q [uid]
  by_cases hu : u = uid
  · rw [if_pos (mem_singleton.mpr hu), hu]
    rfl
  · rw [if_neg (mt mem_singleton.mp hu)]
    rfl

theorem Sound.hasAllowlist_iff (hn : Hashed names) : (!(s.tables.getAllowlist c).isEmpty) ↔
    ∃ id, ((s.list (channelToNum c) .allowlist).rows id).isSome := by
  rw [h.getAllowlist_eq hn, ← scan_map_ne_nil]
  simp

theorem Sound.queryHas (hn : Hashed names) : (s.hasAllowlist c).2.Sound names c := by
  rw [hasAllowlist, answer]
  split
  · exact h
  refine ⟨h.lists, fun p u b hp hu hb => h.cached p u b hp hu ?_, fun b hb => ?_⟩
  · exact (update_of_ne (fun hk => hp (PermissionId.getPermissionKey_inj.mp hk).1) ..).symm.trans hb
  have hb : some (!(s.tables.getAllowlist c).isEmpty) = some b :=
    (update_self (getPermissionKey .hasAllowlist c []) _ s.cache).symm.trans hb
  rw [← Option.some.inj hb]
  exact h.hasAllowlist_iff hn

theorem Sound.evict (key : Bytes) : Sound names c { s with cache := s.cache.remove key } :=
  ⟨h.lists, fun p u b hp hu hb => h.cached p u b hp hu (remove_eq_some hb), fun b hb => h.cachedHas b (remove_eq_some hb)⟩

theorem Sound.apply (hn : Hashed names) {a : Action} (ha : s.Careful names c a) : (s.apply c a).Sound names c := by
  cases a with
  | addSubscribers members => exact h.addSubscribers hn ha
  | removeSubscribers uids => exact h.removeSubscribers hn ha
  | removeAllSubscriber => exact h.removeAllSubscriber hn ha
  | addAllowlist members => exact h.addAllowlist hn ha
  | removeAllowlist uids => exact h.removeAllowlist hn ha.1 ha.2
  | removeAllAllowlist => exact h.removeAllAllowlist hn ha
  | addDenylist members => exact h.addDenylist hn ha
  | removeDenylist uids => exact h.removeDenylist hn ha
  | removeAllDenylist => exact h.removeAllDenylist hn ha
  | existSubscriber uid | existAllowlist uid | existDenylist uid => exact h.query (by decide)
  | hasAllowlist => exact h.queryHas hn
  | evict key => exact h.evict key

theorem Sound.answer_eq (hu : names uid) (hp : p ≠ .hasAllowlist) :
    (s.answer (getPermissionKey p c uid) ((s.list (channelToNum c) p).uidIndex (hashWithString uid)).isSome).1 =
      (s.list (channelToNum c) p).has uid := by
  rw [answer]
  split
  · next value hv => exact h.cached p uid value hp hu hv
  · exact (h.lists p).indexed _

end

variable {c : Channel}

def Start (names : Bytes → Prop) (c : Channel) (s : PermissionDB) : Prop :=
  (∀ p, (s.list (channelToNum c) p).Sound names) ∧ s.cache = fun _ => none

/-- In every run in which the names are known, no removal of the last member of the allowlist meets
a cached answer that there is one, and no removal of a whole list a cached member without a name,
all queries answer from the lists. -/
theorem permissions_right (hn : Hashed names)
    (h : Reach (Start names c) (step c) (Careful names c) s) : s.AnswersRight names c := by
  have hs : s.Sound names c := by
    refine h.invariant (Sound names c) ?_ ?_
    · rintro s ⟨hl, hc⟩
      exact ⟨hl, fun p u b _ _ hb => by simp [hc] at hb, fun b hb => by simp [hc] at hb⟩
    · intro s a t hs ha hst
      cases hst
      exact hs.apply hn ha
  refine ⟨fun uid hu => ?_, fun uid hu => ?_, fun uid hu => ?_, ?_⟩
  · rw [hs.getSubscribers_eq hn, (hs.lists .subscriber).mem_scan_map hn hu]
    exact Bool.eq_iff_iff.mp (hs.answer_eq hu (by decide))
  · rw [hs.getAllowlist_eq hn, (hs.lists .allowlist).mem_scan_map hn hu]
    exact Bool.eq_iff_iff.mp (hs.answer_eq hu (by decide))
  · rw [hs.getDenylist_eq hn, (hs.lists .denylist).mem_scan_map hn hu]
    exact Bool.eq_iff_iff.mp (hs.answer_eq hu (by decide))
  · rw [PermissionDB.hasAllowlist, answer]
    split
    · next value hv =>
      rw [hs.cachedHas value hv, hs.getAllowlist_eq hn, ← scan_map_ne_nil]
    · rw [hs.hasAllowlist_iff hn, hs.getAllowlist_eq hn, ← scan_map_ne_nil]

private def club : Channel := ⟨[99], 2⟩

private def couple (uid : Bytes) : Prop := uid ∈ [[117], [118]]

private theorem couple_hashed : Hashed couple where
  inj u u' hu hu' h := by
    simp only [couple, mem_cons, not_mem_nil, or_false] at hu hu'
    rcases hu with rfl | rfl <;> rcases hu' with rfl | rfl <;> first | rfl | exact absurd h (by decide)
  ne_zero u hu := by
    simp only [couple, mem_cons, not_mem_nil, or_false] at hu
    rcases hu with rfl | rfl <;> decide
  ne_max u hu := by
    simp only [couple, mem_cons, not_mem_nil, or_false] at hu
    rcases hu with rfl | rfl <;> decide

private theorem couple_start : Start couple club {} := by
  refine ⟨fun p => ?_, rfl⟩
  cases p <;> exact .empty

private theorem couple_known : ∀ m ∈ [({ uid := [117] } : Member), { uid := [118] }], couple m.uid := by
  intro m hm
  simp only [mem_cons, not_mem_nil, or_false] at hm
  rcases hm with rfl | rfl <;> simp [couple]

/-- One of two members of the allowlist is removed. -/
theorem permissions_right_removed : AnswersRight couple club
    ((addAllowlist {} club [{ uid := [117] }, { uid := [118] }]).removeAllowlist club [[117]]) := by
  have hadded : Reach (Start couple club) (step club) (Careful couple club)
      (addAllowlist {} club [{ uid := [117] }, { uid := [118] }]) :=
    .step (a := .addAllowlist [{ uid := [117] }, { uid := [118] }]) (.init couple_start) couple_known rfl
  have hright := permissions_right couple_hashed hadded
  refine permissions_right couple_hashed (.step (a := .removeAllowlist [[117]]) hadded ⟨?_, fun _ => ?_⟩ rfl)
  · simp [couple]
  · obtain ⟨m, hm, hu⟩ := mem_map.mp ((hright.allowlist [118] (by simp [couple])).mp (by decide +kernel))
    exact ⟨m, hm, by rw [hu]; decide⟩

/-- The only member is removed: the list is empty, and the cache still says that there is one. -/
theorem permissions_right_fails :
    let s := (addAllowlist {} club [{ uid := [117] }]).removeAllowlist club [[117]]
    Reach (Start couple club) (step club) (fun _ _ => True) s ∧ (s.hasAllowlist club).1 = true ∧
      s.tables.getAllowlist club = [] := by
  refine ⟨?_, by decide +kernel, ?_⟩
  · exact .step (a := .removeAllowlist [[117]])
      (.step (a := .addAllowlist [{ uid := [117] }]) (.init couple_start) trivial rfl) trivial rfl
  refine getAllowlist_eq_nil fun id => ?_
  refine (congrArg (fun t : MemberTable => t.rows id) (list_removeAllowlist ..)).trans ?_
  rw [rows_removed]
  split
  · rfl
  · next hid => exact update_of_ne (fun h => hid (by rw [h]; exact .head [])) ..

end PermissionDB
end WuKongIM.WKDB

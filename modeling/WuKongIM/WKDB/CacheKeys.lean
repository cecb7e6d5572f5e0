import WuKongIM.WKDB.PermissionCache

/-! The keys of the caches of permissions and of the last numbers of users: whom a key belongs to,
and what the operations on one name do to the entries of another. -/
namespace WuKongIM.WKDB
open Lib List Function PermissionCache

variable {uid : Bytes} {p : PermissionType} {uid' : Bytes} {u : SenderId}

theorem keyTail_inj {type type' : UInt8} (h : keyTail type uid = keyTail type' uid') :
    type = type' ∧ uid = uid' := by
  have hcolon (type : UInt8) : 58 ∉ itoa type := notMem_itoa (.inr (by decide))
  have hmem (type : UInt8) (uid : Bytes) : 58 ∈ itoa type ++ [58] ++ uid := by simp
  rw [keyTail, keyTail] at h
  split_ifs at h with hu hu' hu'
  · exact ⟨itoa_inj h, hu.trans hu'.symm⟩
  · exact absurd (h ▸ hmem type' uid') (hcolon type)
  · exact absurd (h ▸ hmem type uid) (hcolon type')
  · rw [append_assoc, append_assoc] at h
    obtain ⟨ht, hu⟩ := joined_inj (hcolon type) (hcolon type') h
    exact ⟨itoa_inj ht, hu⟩

theorem PermissionType.code_inj {p' : PermissionType} (h : p.code = p'.code) : p = p' := by
  cases p <;> cases p' <;> first | rfl | cases h

structure PermissionId where
  kind : PermissionType
  channel : Channel
  uid : Bytes
  deriving DecidableEq

namespace PermissionId
variable {x y : PermissionId}

def key (x : PermissionId) : Bytes := getPermissionKey x.kind x.channel x.uid

/-- The identifier of the other channel goes on, after that of this one and a colon, with the
beginning of this type and user. -/
def Overlaps (x y : PermissionId) : Prop :=
  x.kind = y.kind ∧ Lib.Overlaps 58 x.channel.id (keyTail x.channel.type x.uid) y.channel.id (keyTail y.channel.type y.uid)

theorem key_eq_iff : x.key = y.key ↔ x = y ∨ x.Overlaps y ∨ y.Overlaps x := by
  have hcons (x : PermissionId) :
      x.key = itoa x.kind.code ++ 58 :: (x.channel.id ++ 58 :: keyTail x.channel.type x.uid) := by
    simp [key, getPermissionKey]
  rw [hcons, hcons]
  constructor
  · intro h
    obtain ⟨hk, h⟩ := joined_inj (notMem_itoa (.inr (by decide))) (notMem_itoa (.inr (by decide))) h
    have hk := PermissionType.code_inj (itoa_inj hk)
    rcases joined_eq_iff.mp h with ⟨hid, ht⟩ | h | h
    · obtain ⟨ht, hu⟩ := keyTail_inj ht
      obtain ⟨k', ⟨i', t'⟩, u'⟩ := y
      cases hk
      cases hid
      cases ht
      cases hu
      exact .inl rfl
    · exact .inr (.inl ⟨hk, h⟩)
    · exact .inr (.inr ⟨hk.symm, h⟩)
  · rintro (rfl | ⟨hk, h⟩ | ⟨hk, h⟩)
    · rfl
    all_goals rw [hk, h.joined]

theorem getPermissionKey_inj {q : PermissionType} {c : Channel} :
    getPermissionKey p c uid = getPermissionKey q c uid' ↔ p = q ∧ uid = uid' := by
  have hlonger (a z : Bytes) : a ≠ a ++ 58 :: z := fun h => by
    have := congrArg length h
    rw [length_append, length_cons] at this
    omega
  refine (key_eq_iff (x := ⟨p, c, uid⟩) (y := ⟨q, c, uid'⟩)).trans ⟨?_, ?_⟩
  · rintro (h | ⟨-, z, h, -⟩ | ⟨-, z, h, -⟩)
    · cases h
      exact ⟨rfl, rfl⟩
    all_goals exact absurd h (hlonger _ z)
  · rintro ⟨rfl, rfl⟩
    exact .inl rfl

end PermissionId

inductive PermissionOp
  | set (value : Bool)
  | invalidateUser
  | invalidateChannel
  | invalidateChannelByType

def PermissionOp.apply (x : PermissionId) (cache : PermissionCache) : PermissionOp → PermissionCache
  | set value => cache.setPermission x.key value
  | invalidateUser => cache.invalidateUser x.channel x.uid
  | invalidateChannel => cache.invalidateChannel x.channel
  | invalidateChannelByType => cache.invalidateChannelByType x.channel x.kind

section
variable {cache : PermissionCache} {c : Channel} {key : Bytes} {b : Bool} {x : PermissionId}

theorem remove_eq_some {k : Bytes} (h : cache.remove k key = some b) : cache key = some b := by
  rw [remove, update_apply] at h
  split at h
  · cases h
  · exact h

theorem invalidateUser_eq_some (h : cache.invalidateUser c uid key = some b) : cache key = some b :=
  remove_eq_some (remove_eq_some (remove_eq_some h))

theorem invalidateChannel_eq_some (h : cache.invalidateChannel c key = some b) : cache key = some b := by
  rw [invalidateChannel] at h
  split at h
  · cases h
  · exact h

theorem byType_eq_some (h : cache.invalidateChannelByType c p key = some b) : cache key = some b := by
  rw [invalidateChannelByType] at h
  split at h
  · exact remove_eq_some h
  dsimp only at h
  split at h
  · cases h
  · exact h

theorem PermissionOp.apply_eq_some (hk : key ≠ x.key) (op : PermissionOp)
    (h : op.apply x cache key = some b) : cache key = some b := by
  cases op with
  | set value => rwa [apply, setPermission, update_of_ne hk] at h
  | invalidateUser => exact invalidateUser_eq_some h
  | invalidateChannel => exact invalidateChannel_eq_some h
  | invalidateChannelByType => exact byType_eq_some h

theorem PermissionOp.foldl_eq_some (hk : key ≠ x.key) (ops : List PermissionOp)
    (h : ops.foldl (apply x) cache key = some b) : cache key = some b := by
  induction ops generalizing cache with
  | nil => exact h
  | cons op ops ih => exact op.apply_eq_some hk (ih h)

/-- A kind of which a user may have an entry; whether a channel has an allowlist is a question about
no user. -/
def HasEntry (p : PermissionType) (uid : Bytes) : Prop := p = .hasAllowlist → uid = []

/-- The key of a user without a name is too short for every invalidation of the channel. -/
theorem not_goesOn_nil (p q : PermissionType) : goesOn (channelKeys c q) (getPermissionKey p c []) = false := by
  have hlen : (itoa p.code).length = (itoa q.code).length := by cases p <;> cases q <;> rfl
  have hlt : ¬ (channelKeys c q).length < (getPermissionKey p c []).length := by
    simp only [channelKeys, getPermissionKey, keyTail, if_true, length_append]
    omega
  rw [goesOn, decide_eq_false hlt, Bool.false_and]

theorem goesOn_permissionKey : goesOn (channelKeys c p) (getPermissionKey p c uid) ↔ uid ≠ [] := by
  by_cases hu : uid = []
  · rw [hu, not_goesOn_nil]
    simp
  · have hkey : getPermissionKey p c uid = channelKeys c p ++ uid := by
      simp [channelKeys, getPermissionKey, keyTail, hu]
    rw [hkey, goesOn]
    simp [length_pos_iff]

theorem byType_eq_none (hp : HasEntry p uid)
    (h : p ≠ .hasAllowlist → uid = [] → cache (getPermissionKey p c []) = none) :
    cache.invalidateChannelByType c p (getPermissionKey p c uid) = none := by
  rw [invalidateChannelByType]
  by_cases hk : p = .hasAllowlist
  · rw [if_pos hk, hp hk, remove, update_self]
  rw [if_neg hk]
  by_cases hu : uid = []
  · subst hu
    rw [not_goesOn_nil]
    exact h hk rfl
  · rw [goesOn_permissionKey.mpr hu]
    rfl

theorem invalidateChannel_eq_none (hp : HasEntry p uid)
    (h : p ≠ .hasAllowlist → uid = [] → cache (getPermissionKey p c []) = none) :
    cache.invalidateChannel c (getPermissionKey p c uid) = none := by
  rw [invalidateChannel]
  by_cases hk : p = .hasAllowlist
  · subst hk
    simp [hp rfl]
  by_cases hu : uid = []
  · subst hu
    simp [h hk rfl]
  have hon := goesOn_permissionKey (c := c) (p := p) |>.mpr hu
  cases p with
  | denylist | subscriber | allowlist => simp [hon]
  | hasAllowlist => exact absurd rfl hk

/-- The invalidations of a channel miss just the entries of the user without a name. -/
theorem invalidated_iff : (∀ p uid, HasEntry p uid → cache.invalidateChannelByType c p (getPermissionKey p c uid) = none ∧
      cache.invalidateChannel c (getPermissionKey p c uid) = none) ↔
    ∀ p, p ≠ .hasAllowlist → cache (getPermissionKey p c []) = none := by
  constructor
  · intro h p hk
    have hp := (h p [] fun _ => rfl).1
    rwa [invalidateChannelByType, if_neg hk, not_goesOn_nil] at hp
  · intro h p uid hp
    exact ⟨byType_eq_none hp fun hk _ => h p hk, invalidateChannel_eq_none hp fun hk _ => h p hk⟩

end

structure SenderId where
  uid : Bytes
  channel : Channel
  deriving DecidableEq

variable {u v : SenderId}

def SenderId.key (u : SenderId) : Bytes := makeKey u.uid u.channel

/-- The name of the other user goes on, after that of this one and a colon, with the beginning of
this identifier. -/
def SenderId.Overlaps (u v : SenderId) : Prop :=
  u.channel.type = v.channel.type ∧ Lib.Overlaps 58 u.uid u.channel.id v.uid v.channel.id

theorem SenderId.key_eq_iff : u.key = v.key ↔ u = v ∨ u.Overlaps v ∨ v.Overlaps u := by
  have hcons (u : SenderId) : u.key = (u.uid ++ 58 :: u.channel.id) ++ [58, u.channel.type] := by simp [key, makeKey]
  rw [hcons, hcons]
  constructor
  · intro h
    obtain ⟨h, ht⟩ := append_inj' h rfl
    have ht : u.channel.type = v.channel.type := by simpa using ht
    rcases joined_eq_iff.mp h with ⟨hu, hid⟩ | h | h
    · obtain ⟨uid', ⟨i', t'⟩⟩ := v
      cases hu
      cases hid
      cases ht
      exact .inl rfl
    · exact .inr (.inl ⟨ht, h⟩)
    · exact .inr (.inr ⟨ht.symm, h⟩)
  · rintro (rfl | ⟨ht, h⟩ | ⟨ht, h⟩)
    · rfl
    all_goals rw [h.joined, ht]

inductive LastSeqOp
  | set (seq : UInt64)
  | updateIfGreater (seq : UInt64)
  | invalidate

def LastSeqOp.apply (u : SenderId) (cache : Bytes → Option UInt64) : LastSeqOp → Bytes → Option UInt64
  | set seq => update cache u.key (some seq)
  | updateIfGreater seq =>
    match cache u.key with
    | some old => if seq > old then update cache u.key (some seq) else cache
    | none => update cache u.key (some seq)
  | invalidate => update cache u.key none

theorem LastSeqOp.apply_of_ne {key : Bytes} (hk : key ≠ u.key) (cache : Bytes → Option UInt64)
    (op : LastSeqOp) : op.apply u cache key = cache key := by
  cases op with
  | set seq | invalidate => exact update_of_ne hk ..
  | updateIfGreater seq =>
    rw [apply]
    cases cache u.key with
    | none => exact update_of_ne hk ..
    | some old =>
      dsimp only
      split
      · exact update_of_ne hk ..
      · rfl

theorem LastSeqOp.foldl_of_ne {key : Bytes} (hk : key ≠ u.key) (ops : List LastSeqOp)
    (cache : Bytes → Option UInt64) : ops.foldl (apply u) cache key = cache key := by
  induction ops generalizing cache with
  | nil => rfl
  | cons op ops ih => rw [foldl_cons, ih, op.apply_of_ne hk]

/-- Two names are kept apart in the caches exactly when neither overlaps the other, and the entries
of a channel all go with it exactly when none of them is that of the user without a name. -/
theorem cached_apart {x y : PermissionId} {u v : SenderId} (hxy : x ≠ y) (huv : u ≠ v)
    (cache : PermissionCache) (c : Channel) :
    ((x.key ≠ y.key ∧ ∀ (ops : List PermissionOp) (cache : PermissionCache) (b : Bool),
        ops.foldl (PermissionOp.apply x) cache y.key = some b → cache y.key = some b) ↔
      ¬ x.Overlaps y ∧ ¬ y.Overlaps x) ∧
    ((u.key ≠ v.key ∧ ∀ (ops : List LastSeqOp) (cache : Bytes → Option UInt64),
        ops.foldl (LastSeqOp.apply u) cache v.key = cache v.key) ↔
      ¬ u.Overlaps v ∧ ¬ v.Overlaps u) ∧
    ((∀ p uid, HasEntry p uid → cache.invalidateChannelByType c p (getPermissionKey p c uid) = none ∧
        cache.invalidateChannel c (getPermissionKey p c uid) = none) ↔
      ∀ p, p ≠ .hasAllowlist → cache (getPermissionKey p c []) = none) := by
  refine ⟨?_, ?_, invalidated_iff⟩
  · have hkey : x.key ≠ y.key ↔ ¬ x.Overlaps y ∧ ¬ y.Overlaps x := by
      rw [Ne, PermissionId.key_eq_iff, or_iff_right hxy, not_or]
    rw [← hkey]
    exact ⟨And.left, fun hne => ⟨hne, fun ops cache b => PermissionOp.foldl_eq_some hne.symm ops⟩⟩
  · have hkey : u.key ≠ v.key ↔ ¬ u.Overlaps v ∧ ¬ v.Overlaps u := by
      rw [Ne, SenderId.key_eq_iff, or_iff_right huv, not_or]
    rw [← hkey]
    exact ⟨And.left, fun hne => ⟨hne, fun ops cache => LastSeqOp.foldl_of_ne hne.symm ops cache⟩⟩

/-- Two members of one group: the entry of the second stays whatever is done with the first. -/
theorem cached_apart_group :
    getPermissionKey .denylist ⟨[103], 2⟩ [117] ≠ getPermissionKey .denylist ⟨[103], 2⟩ [118] ∧
    ∀ (ops : List PermissionOp) (cache : PermissionCache) (b : Bool),
      ops.foldl (PermissionOp.apply ⟨.denylist, ⟨[103], 2⟩, [117]⟩) cache
        (getPermissionKey .denylist ⟨[103], 2⟩ [118]) = some b →
        cache (getPermissionKey .denylist ⟨[103], 2⟩ [118]) = some b := by
  have happart := (cached_apart (x := ⟨.denylist, ⟨[103], 2⟩, [117]⟩) (y := ⟨.denylist, ⟨[103], 2⟩, [118]⟩)
    (u := ⟨[117], ⟨[103], 2⟩⟩) (v := ⟨[118], ⟨[103], 2⟩⟩) (by decide) (by decide) (fun _ => none) ⟨[103], 2⟩).1
  refine happart.mpr ⟨fun h => ?_, fun h => ?_⟩
  all_goals exact absurd h.2.mem (by decide)

/-- The user `2:u` of the channel `a` of type 1 and the user `u` of the channel `a:1` of type 2
share an entry; so do the last numbers of `a` in `b:c` and of `a:b` in `c`; and the entry of the
user without a name outlives its channel. -/
theorem cached_apart_fails :
    [PermissionOp.set true].foldl (PermissionOp.apply ⟨.denylist, ⟨[97], 1⟩, [50, 58, 117]⟩)
      (fun _ => none) (getPermissionKey .denylist ⟨[97, 58, 49], 2⟩ [117]) = some true ∧
    [LastSeqOp.set 7].foldl (LastSeqOp.apply ⟨[97], ⟨[98, 58, 99], 2⟩⟩) (fun _ => none)
    (makeKey [97, 58, 98] ⟨[99], 2⟩) = some 7 ∧
    (PermissionCache.setSubscriberExists (fun _ => none) ⟨[103], 2⟩ [] true).invalidateChannelByType ⟨[103], 2⟩ .subscriber
      (getPermissionKey .subscriber ⟨[103], 2⟩ []) = some true := by
  decide +kernel

end WuKongIM.WKDB

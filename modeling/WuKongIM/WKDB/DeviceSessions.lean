import WuKongIM.Lib.Register
import WuKongIM.WKDB.DeviceVersions

/-! Queries and updates of one device side by side. -/
namespace WuKongIM.WKDB
open Lib List

structure Credentials where
  token : Bytes
  tokenVersion : UInt64
  deviceLevel : UInt8
  deriving DecidableEq

def Device.credentials (d : Device) : Credentials := ⟨d.token, d.tokenVersion, d.deviceLevel⟩

/-- What may be written over what, by the credentials alone. -/
def Credentials.Allows (c c' : Credentials) : Prop :=
  (c.tokenVersion = 0 ∧ c'.tokenVersion = 0) ∨ c.tokenVersion < c'.tokenVersion ∨ c = c'

theorem allowed_iff_allows {x d : Device} : deviceTokenWriteAllowed x d ↔ x.credentials.Allows d.credentials := by
  rw [allowed_iff, Credentials.Allows, Credentials.mk.injEq]
  constructor
  · rintro (h | h | ⟨hversion, htoken, hlevel⟩)
    · exact .inl h
    · exact .inr (.inl h)
    · exact .inr (.inr ⟨htoken.symm, hversion.symm, hlevel.symm⟩)
  · rintro (h | h | ⟨htoken, hversion, hlevel⟩)
    · exact .inl h
    · exact .inr (.inl h)
    · exact .inr (.inr ⟨hversion.symm, htoken.symm, hlevel.symm⟩)

/-- Nothing comes after a device but credentials that may be written over it. -/
def Supersedes : Option Credentials → Option Credentials → Prop
  | none, _ => True
  | some c, some c' => c.Allows c'
  | some _, none => False

namespace DeviceShard
variable {t t' : DeviceShard} {uid : Bytes} {flag id : UInt64} {d x old : Device}

/-- An update deletes the index entries of the row it found, before it commits. -/
def unindex (t : DeviceShard) (old : Device) : DeviceShard := if isEmptyDevice old then t else t.deleteDeviceIndex old

theorem rows_unindex (t : DeviceShard) (old : Device) : (t.unindex old).rows = t.rows := by
  rw [unindex]
  split
  · rfl
  · rfl

theorem getDeviceById_unindex (t : DeviceShard) (old : Device) (id : UInt64) :
    (t.unindex old).getDeviceById id = t.getDeviceById id := by
  rw [getDeviceById, getDeviceById, rows_unindex]

/-- The write comes out in front: the device handed out so far allows it and, at the same version,
does not lie before the row that is written; and that row is not the last one, which is never looked
at. -/
def Leads (uid : Bytes) (flag : UInt64) (t : DeviceShard) (d : Device) : Prop :=
  (∀ x, t.Chosen uid flag x → deviceTokenWriteAllowed x d = true ∧
    (x.tokenVersion = d.tokenVersion → x.id < d.id → x.credentials = d.credentials)) ∧
  (d.id = maxUint64 → ∃ x, t.Chosen uid flag x ∧ x.credentials = d.credentials)

theorem wrote_unindex (h : t.Indexed d.uid) (hold : isEmptyDevice old = false → old.id = d.id) :
    Wrote d.uid d t ((t.unindex old).writeDevice d) := by
  rw [unindex]
  split
  · exact wrote_writeDevice h
  · next hne => exact wrote_deleteDeviceIndex h (hold (by simpa using hne))

theorem Wrote.chosen (hw : Wrote uid d t t') (h : t.Indexed uid) (hd : d.uid ≠ [])
    (hflag : d.deviceFlag = flag) (hleads : t.Leads uid flag d) : ∃ z, t'.Chosen uid flag z ∧
    z.credentials = d.credentials ∧ (z.uid = d.uid ∨ t.Chosen uid flag z) := by
  by_cases hmax : d.id = maxUint64
  · obtain ⟨x, hx, hsame⟩ := hleads.2 hmax
    exact ⟨x, hx.congr (hw.candidate_of_max hmax), hsame, .inr hx⟩
  obtain ⟨z, ⟨hid, hzuid, htoken, hver, hlevel⟩, -, hiff⟩ := hw.candidate_iff h hd hflag hmax
  have hz : z.credentials = d.credentials := by rw [Device.credentials, htoken, hver, hlevel, Device.credentials]
  rcases h.getDevice_spec flag with ⟨-, -, hempty⟩ | ⟨x, -, -, hx⟩
  · have honly (y : Device) (hy : t'.Candidate uid flag y) : y = z :=
      ((hiff y).mp hy).resolve_right fun hcand => hempty y hcand.1
    refine ⟨z, ⟨(hiff z).mpr (.inl rfl), fun y hy => ?_, fun y hy _ => ?_⟩, hz, .inl hzuid⟩
    all_goals exact le_of_eq (by rw [honly y hy])
  · obtain ⟨hallowed, hbefore⟩ := hleads.1 x hx
    have hle := UInt64.le_iff_toNat_le.mp (le_of_allowed hallowed)
    by_cases hlt : x.tokenVersion.toNat < d.tokenVersion.toNat
    · exact ⟨z, hx.put_new hiff (.inl (by rwa [hver])), hz, .inl hzuid⟩
    have heq : x.tokenVersion.toNat = d.tokenVersion.toNat := by omega
    by_cases hbehind : x.id < d.id
    · refine ⟨x, hx.put_behind hiff (by rw [hver, heq]) ?_, hbefore (UInt64.toNat_inj.mp heq) hbehind, .inr hx⟩
      rw [hid]
      exact UInt64.lt_iff_toNat_lt.mp hbehind
    · refine ⟨z, hx.put_new hiff (.inr ⟨by rw [hver, heq], ?_⟩), hz, .inl hzuid⟩
      rw [hid]
      exact UInt64.le_iff_toNat_le.mp (UInt64.not_lt.mp hbehind)

theorem updateTarget_row (hids : ∀ id x, t.getDeviceById id = some x → x.id = id) (d : Device)
    (h0 : d.id ≠ 0) : (t.updateTarget d).1 ≠ 0 ∧ (isEmptyDevice (t.updateTarget d).2 = false →
      (t.updateTarget d).2.id = (t.updateTarget d).1) := by
  have hnamed : isEmptyDevice ((t.getDeviceById d.id).getD {}) = false → ((t.getDeviceById d.id).getD {}).id = d.id := by
    cases hrow : t.getDeviceById d.id with
    | none => exact nofun
    | some row => exact fun _ => hids d.id row hrow
  rw [updateTarget]
  split
  · next hother =>
    split
    · next current hcurrent =>
      split
      · refine ⟨?_, fun _ => rfl⟩
        rw [hids _ _ hcurrent]
        exact hother.1
      · exact ⟨h0, hnamed⟩
    · exact ⟨h0, hnamed⟩
  · exact ⟨h0, hnamed⟩

/-- The row whose index entry is gone lies in front of all that is left. -/
def Hides (uid : Bytes) (flag : UInt64) (t : DeviceShard) (old : Device) : Prop :=
  hashWithString old.uid = hashWithString uid ∧ ∃ row, t.getDeviceById old.id = some row ∧
    hashWithString row.uid = hashWithString uid ∧ row.deviceFlag = flag ∧ old.id ≠ maxUint64 ∧
    ∀ y, t.Candidate uid flag y → y.tokenVersion ≤ row.tokenVersion ∧ (y.tokenVersion = row.tokenVersion → old.id < y.id)

theorem uidIndex_unindex (hne : isEmptyDevice old = false) (uid : Bytes) : (t.unindex old).uidIndex (hashWithString uid) =
    (t.uidIndex (hashWithString uid)).filter fun id => hashWithString old.uid ≠ hashWithString uid ∨ id ≠ old.id := by
  rw [unindex, if_neg (by simp [hne]), deleteDeviceIndex]
  dsimp only
  by_cases hhash : hashWithString uid = hashWithString old.uid
  · rw [hhash]
    simp
  · rw [Function.update_of_ne hhash]
    simp [Ne.symm hhash]

theorem candidate_unindex (h : t.Indexed uid) (hne : isEmptyDevice old = false) (y : Device) :
    (t.unindex old).Candidate uid flag y ↔
      t.Candidate uid flag y ∧ (hashWithString old.uid ≠ hashWithString uid ∨ y.id ≠ old.id) := by
  simp only [Candidate, uidIndex_unindex hne, getDeviceById_unindex, mem_filter, decide_eq_true_eq]
  constructor
  · rintro ⟨id, ⟨hid, hkept⟩, hmax, hrow, hflag⟩
    exact ⟨⟨id, hid, hmax, hrow, hflag⟩, (h.id_eq hrow).symm ▸ hkept⟩
  · rintro ⟨⟨id, hid, hmax, hrow, hflag⟩, hkept⟩
    exact ⟨id, ⟨hid, h.id_eq hrow ▸ hkept⟩, hmax, hrow, hflag⟩

theorem getDeviceId_unindex (h : t.Indexed uid) (hhides : isEmptyDevice old = false → ¬ (t.unindex old).Hides uid flag old) :
    (t.unindex old).getDeviceId uid flag = t.getDeviceId uid flag := by
  by_cases hempty : isEmptyDevice old
  · rw [unindex, if_pos hempty]
  have hne : isEmptyDevice old = false := by simpa using hempty
  have hcand (y : Device) : (t.unindex old).Candidate uid flag y ↔ t.Candidate uid flag y ∧
      (hashWithString old.uid ≠ hashWithString uid ∨ y.id ≠ old.id) := candidate_unindex h hne y
  have hkept (x : Device) (hx : t.Chosen uid flag x) : (t.unindex old).Candidate uid flag x := by
    refine (hcand x).mpr ⟨hx.mem, ?_⟩
    by_contra hgone
    obtain ⟨hhash, hid⟩ := not_or.mp hgone
    obtain ⟨hrow, -, hmax⟩ := hx.row h
    rw [not_not.mp hid] at hrow hmax
    obtain ⟨id, hmem, -, hrow', hflag⟩ := hx.mem
    obtain ⟨-, x', hx', hxhash⟩ := h.rows id hmem
    cases hrow'.symm.trans hx'
    refine hhides hne ⟨not_not.mp hhash, x, (getDeviceById_unindex t old _).trans hrow, hxhash, hflag, hmax, fun y hy => ?_⟩
    obtain ⟨hy, hyid⟩ := (hcand y).mp hy
    refine ⟨UInt64.le_iff_toNat_le.mpr (hx.highest y hy), fun heq => ?_⟩
    have hfirst := hx.first y hy (congrArg UInt64.toNat heq)
    rw [not_not.mp hid] at hfirst
    exact UInt64.lt_of_le_of_ne (UInt64.le_iff_toNat_le.mpr hfirst) (Ne.symm (hyid.resolve_left hhash))
  have hasc : Ascending (fun d : Device => d.id.toNat) ((t.unindex old).candidates uid flag) := by
    apply Pairwise.filter
    apply pairwise_filterMap.mpr
    rw [uidIndex_unindex hne]
    apply ((h.ascending.filter _).filter _).imp
    intro id id' hlt d hd d' hd'
    rw [getDeviceById_unindex] at hd hd'
    dsimp only
    rw [h.id_eq hd, h.id_eq hd']
    exact hlt
  have hselect : (t.unindex old).select flag (((t.unindex old).uidIndex (hashWithString uid)).filter fun id => id ≠ maxUint64) {} =
      foremost (fun d : Device => d.tokenVersion.toNat) ((t.unindex old).candidates uid flag) none := by
    refine select_eq _ (fun id hid => ?_) {}
    rw [uidIndex_unindex hne] at hid
    rw [getDeviceById_unindex]
    exact h.isSome_row (mem_filter.mp (mem_filter.mp hid).1).1
  rw [getDeviceId, hselect]
  rcases foremost_none hasc with ⟨hnil, hnone⟩ | ⟨b, hb, hbest⟩
  · rcases h.getDevice_spec flag with ⟨-, hzero, -⟩ | ⟨x, -, -, hx⟩
    · rw [hnone, hzero]
    · have := mem_candidates.mpr (hkept x hx)
      rw [hnil] at this
      cases this
  · rcases h.getDevice_spec flag with ⟨-, -, hnone⟩ | ⟨x, -, hxid, hx⟩
    · exact absurd ((hcand b).mp (mem_candidates.mp hbest.mem)).1 (hnone b)
    have hchosen : (t.unindex old).Chosen uid flag x :=
      ⟨hkept x hx, fun y hy => hx.highest y ((hcand y).mp hy).1, fun y hy => hx.first y ((hcand y).mp hy).1⟩
    have hbx : b = x := (hbest.congr fun y => mem_candidates.symm).unique hchosen fun y z hy hz =>
      h.candidate_inj y z ((hcand y).mp hy).1 ((hcand z).mp hz).1
    rw [hb, hxid, hbx]

end DeviceShard

/-- How far an update is, with the device as it will be written and the one found in its row. -/
inductive Update
  | idle
  | checked (d old : Device)
  | unindexed (d old : Device)
  | committed (d old : Device)
  | invalidated (d : Device)
  deriving DecidableEq

/-- The update has passed its check and has not committed. -/
def Update.planned : Update → Option (Device × Device)
  | .checked d old => some (d, old)
  | .unindexed d old => some (d, old)
  | _ => none

/-- The update has deleted the index entries and has not committed. -/
def Update.gap : Update → Option (Device × Device)
  | .unindexed d old => some (d, old)
  | _ => none

/-- What an update has committed and not yet returned with. -/
def Update.stored : Update → Option Device
  | .committed d _ => some d
  | .invalidated d => some d
  | _ => none

/-- How far a query is, with the version of the cache at its last lookup. -/
inductive Query
  | idle
  | looking
  | missed (version : Nat)
  | found (version : Nat) (id : UInt64)
  | loaded (version : Nat) (device : Option Device)

/-- `loadVersion` stands for the two counters that a query compares, which are in memory and too
wide to come round. The history is not part of the program. -/
structure DeviceSession where
  db : DeviceDB := {}
  loadVersion : Nat := 0
  update : Nat → Update := fun _ => .idle
  query : Nat → Query := fun _ => .idle
  history : Register (Option Credentials) Nat Nat := ⟨none, [], fun _ => []⟩

inductive DeviceMove
  | enter (q : Nat)
  | lookup (q : Nat)
  | scan (q : Nat)
  | read (q : Nat)
  | publish (q : Nat)
  | check (w : Nat) (d : Device) (expected : Option DeviceTokenCondition)
  | unindex (w : Nat)
  | commit (w : Nat)
  | invalidate (w : Nat)
  | set (w : Nat)
  | invalidateDevice (key : Bytes × UInt64)
  | evict (key : Bytes × UInt64)
  | expire (key : Bytes × UInt64)
  | bump

namespace DeviceSession
variable (tokenHash : Bytes → Bytes) (uid : Bytes) (flag : UInt64) (s : DeviceSession)

def proceed (q : Nat) (phase : Query) : DeviceSession := { s with query := Function.update s.query q phase }

def advance (w : Nat) (phase : Update) : DeviceSession := { s with update := Function.update s.update w phase }

def recache (db : DeviceDB) : DeviceSession := { s with db }

/-- Other devices of the same segment, and whoever clears the cache, raise the version as well. -/
def bumped : DeviceSession := { s with loadVersion := s.loadVersion + 1 }

def invalidated (key : Bytes × UInt64) : DeviceSession := (s.recache (s.db.invalidateDevice key.1 key.2)).bumped

def step : DeviceMove → Option DeviceSession
  | .enter q =>
    match s.query q with
    | .idle => some { s.proceed q .looking with history := s.history.enter q }
    | _ => none
  | .lookup q =>
    match s.query q with
    | .looking =>
      match s.db.getDeviceLocked uid flag with
      | (some _, db) => some ((s.recache db).proceed q .idle)
      | (none, db) => some ((s.recache db).proceed q (.missed s.loadVersion))
    | _ => none
  | .scan q =>
    match s.query q with
    | .missed version =>
      let id := s.db.shard.getDeviceId uid flag
      some (s.proceed q (if id = 0 then .loaded version none else .found version id))
    | _ => none
  | .read q =>
    match s.query q with
    | .found version id => some (s.proceed q (.loaded version (s.db.shard.getDeviceById id)))
    | _ => none
  | .publish q =>
    match s.query q with
    | .loaded version device =>
      -- what was loaded before an update or an invalidation is thrown away, errors included
      if version ≠ s.loadVersion then some (s.proceed q .looking)
      else
        match device with
        | none => some (s.proceed q .idle)
        | some d => some ((s.recache (s.db.setDeviceLocked d).2).proceed q .idle)
    | _ => none
  | .check w d expected =>
    match s.update w with
    | .idle =>
      if d.uid = uid ∧ d.deviceFlag = flag then
        if d.id = 0 ∨ !s.db.shard.accepts tokenHash d expected then some s
        else
          let target := s.db.shard.updateTarget d
          some (s.advance w (.checked { d with id := target.1, createdAt := none } target.2))
      else none
    | _ => none
  | .unindex w =>
    match s.update w with
    | .checked d old => some { s.advance w (.unindexed d old) with db := { s.db with shard := s.db.shard.unindex old } }
    | _ => none
  | .commit w =>
    match s.update w with
    | .unindexed d old => some { s.advance w (.committed d old) with
        db := { s.db with shard := s.db.shard.writeDevice d }
        history := s.history.commit w (some d.credentials) }
    | _ => none
  | .invalidate w =>
    match s.update w with
    | .committed d old =>
      let moved := !isEmptyDevice old && (old.uid ≠ d.uid || old.deviceFlag ≠ d.deviceFlag)
      some ((if moved then s.invalidated (old.uid, old.deviceFlag) else s).advance w (.invalidated d))
    | _ => none
  | .set w =>
    match s.update w with
    | .invalidated d => some { ((s.recache (s.db.setDevice d)).bumped).advance w .idle with history := s.history.settle w }
    | _ => none
  | .invalidateDevice key => some (s.invalidated key)
  | .evict key => some (s.recache { s.db with cache := Function.update s.db.cache key none })
  | .expire key => some (s.recache { s.db with
      cache := Function.update s.db.cache key ((s.db.cache key).map fun item => { item with expired := true }) })
  | .bump => some s.bumped

/-- What a move hands out, with what may be heard by the query. -/
def answer : DeviceMove → Option (List (Option Credentials) × Option Credentials)
  | .lookup q =>
    match s.query q with
    | .looking => (s.db.getDeviceLocked uid flag).1.map fun d => (s.history.heard q, some d.credentials)
    | _ => none
  | .publish q =>
    match s.query q with
    | .loaded version device =>
      if version ≠ s.loadVersion then none
      else some (s.history.heard q, device.map fun d => (s.db.setDeviceLocked d).1.credentials)
    | _ => none
  | _ => none

/-- An update starts to write when no other one is between its deletion and its commit, and when it
comes out in front; nobody selects a row while the entry of the row in front is gone; and updates
return in the order of their commits. -/
def Careful : DeviceMove → Prop
  | .unindex w => (∀ w', (s.update w').gap = none) ∧ ∀ d old, s.update w = .checked d old → s.db.shard.Leads uid flag d
  | .scan _ => ∀ w d old, (s.update w).gap = some (d, old) → isEmptyDevice old = false → ¬ s.db.shard.Hides uid flag old
  | .set w => s.history.pending.head?.map Prod.fst = some w
  | _ => True

/-- Nobody is under way, and what is cached under the hash of the user is what the database hands
out. -/
structure Start : Prop where
  indexed : s.db.shard.Indexed uid
  settled : s.history.settled = (s.db.shard.getDevice uid flag).map Device.credentials
  cached : ∀ u item, hashWithString u = hashWithString uid → s.db.cache (u, flag) = some item →
    some item.device.credentials = s.history.settled
  update : ∀ w, s.update w = .idle
  query : ∀ q, s.query q = .idle
  pending : s.history.pending = []

end DeviceSession
end WuKongIM.WKDB

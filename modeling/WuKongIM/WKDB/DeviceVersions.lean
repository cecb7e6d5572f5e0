import WuKongIM.Lib.Run
import WuKongIM.WKDB.Devices

/-! The credentials of one device over whole runs: its version never goes down, and under one
positive version its token and its level stay. -/
namespace WuKongIM.WKDB
open Lib Option Function DeviceShard
open UInt64 (le_antisymm le_iff_toNat_le le_refl le_trans lt_iff_toNat_lt lt_irrefl not_lt)

structure Device.GoesOn (x y : Device) : Prop where
  version : x.tokenVersion ≤ y.tokenVersion
  kept : 0 < x.tokenVersion → y.tokenVersion = x.tokenVersion → y.token = x.token ∧ y.deviceLevel = x.deviceLevel

theorem Device.GoesOn.refl (x : Device) : x.GoesOn x := ⟨le_refl _, fun _ _ => ⟨rfl, rfl⟩⟩

theorem Device.GoesOn.trans {x y z : Device} (h : x.GoesOn y) (h' : y.GoesOn z) : x.GoesOn z := by
  refine ⟨le_trans h.version h'.version, fun hpos heq => ?_⟩
  have hyx : y.tokenVersion = x.tokenVersion := le_antisymm (heq ▸ h'.version) h.version
  obtain ⟨htoken, hlevel⟩ := h.kept hpos hyx
  obtain ⟨htoken', hlevel'⟩ := h'.kept (hyx ▸ hpos) (heq.trans hyx.symm)
  exact ⟨htoken'.trans htoken, hlevel'.trans hlevel⟩

variable {next old : Device}

theorem le_of_not_allowed (h : deviceTokenWriteAllowed old next = false) : next.tokenVersion ≤ old.tokenVersion := by
  have hnot := mt allowed_iff.mpr (Bool.eq_false_iff.mp h)
  exact not_lt.mp fun hlt => hnot (.inr (.inl hlt))

theorem le_of_allowed (h : deviceTokenWriteAllowed old next) : old.tokenVersion ≤ next.tokenVersion := by
  rcases allowed_iff.mp h with ⟨h0, h0'⟩ | hlt | ⟨heq, -⟩
  · rw [h0, h0']
    exact le_refl 0
  · exact UInt64.le_of_lt hlt
  · rw [heq]
    exact le_refl _

theorem kept_of_allowed (h : deviceTokenWriteAllowed old next) (hpos : 0 < old.tokenVersion)
    (heq : next.tokenVersion = old.tokenVersion) : next.token = old.token ∧ next.deviceLevel = old.deviceLevel := by
  rcases allowed_iff.mp h with ⟨h0, -⟩ | hlt | ⟨-, hsame⟩
  · rw [h0] at hpos
    exact absurd hpos (lt_irrefl 0)
  · rw [heq] at hlt
    exact absurd hlt (lt_irrefl _)
  · exact hsame

namespace DeviceShard
variable {t t' : DeviceShard} {uid : Bytes} {flag id : UInt64} {d x : Device}

theorem Wrote.goesOn (hw : Wrote uid d t t') (h : t.Indexed uid) (hd : d.uid ≠ []) (hflag : d.deviceFlag = flag)
    (hx : t.Chosen uid flag x) (hversion : x.tokenVersion ≤ d.tokenVersion)
    (hkept : 0 < x.tokenVersion → d.tokenVersion = x.tokenVersion →
      (d.token = x.token ∧ d.deviceLevel = x.deviceLevel) ∨ x.id < d.id) :
    ∃ y, t'.Chosen uid flag y ∧ x.GoesOn y := by
  by_cases hmax : d.id = maxUint64
  · exact ⟨x, hx.congr (hw.candidate_of_max hmax), .refl x⟩
  obtain ⟨z, ⟨hid, -, htoken, hver, hlevel⟩, -, hiff⟩ := hw.candidate_iff h hd hflag hmax
  by_cases hlt : x.tokenVersion < d.tokenVersion
  · refine ⟨z, hx.put_new hiff (.inl ?_), hver ▸ hversion, fun _ heq => ?_⟩
    · rw [hver]
      exact lt_iff_toNat_lt.mp hlt
    · rw [hver] at heq
      exact absurd (heq ▸ hlt) (lt_irrefl _)
  have heq : d.tokenVersion = x.tokenVersion := le_antisymm (not_lt.mp hlt) hversion
  by_cases hbehind : x.id < d.id
  · refine ⟨x, hx.put_behind hiff ?_ ?_, .refl x⟩
    · rw [hver, heq]
    · rw [hid]
      exact lt_iff_toNat_lt.mp hbehind
  · refine ⟨z, hx.put_new hiff (.inr ⟨by rw [hver, heq], ?_⟩), hver ▸ hversion, fun hpos _ => ?_⟩
    · rw [hid]
      exact le_iff_toNat_le.mp (not_lt.mp hbehind)
    · rw [htoken, hlevel]
      exact (hkept hpos heq).resolve_right hbehind

theorem Wrote.version_le (hw : Wrote uid d t t') (h : t.Indexed uid) (hd : d.uid ≠ []) (hflag : d.deviceFlag = flag)
    (hle : ∀ y, t.Candidate uid flag y → y.tokenVersion ≤ d.tokenVersion) {y : Device}
    (hy : t'.Candidate uid flag y) : y.tokenVersion ≤ d.tokenVersion := by
  by_cases hmax : d.id = maxUint64
  · exact hle y ((hw.candidate_of_max hmax y).mp hy)
  obtain ⟨z, ⟨-, -, -, hver, -⟩, -, hiff⟩ := hw.candidate_iff h hd hflag hmax
  rcases (hiff y).mp hy with rfl | ⟨hcand, -⟩
  · rw [hver]
    exact le_refl _
  · exact hle y hcand

/-- The row of an update is the one chosen, or the one named, whose version is not below. -/
theorem updateTarget_cases (h : t.Indexed d.uid) : (∃ x, t.Chosen d.uid d.deviceFlag x ∧ t.updateTarget d = (x.id, x)) ∨
      t.updateTarget d = (d.id, (t.getDeviceById d.id).getD {}) ∧
        ∀ x, t.Chosen d.uid d.deviceFlag x → x.id ≠ d.id ∧
          x.tokenVersion ≤ ((t.getDeviceById d.id).getD {}).tokenVersion := by
  rcases h.getDevice_spec d.deviceFlag with ⟨-, hzero, hempty⟩ | ⟨x, hx, hxid, hchosen⟩
  · right
    refine ⟨?_, fun x hx => absurd hx.mem (hempty x)⟩
    simp [updateTarget, hzero]
  obtain ⟨hrow, hne, -⟩ := hchosen.row h
  have hunique (y : Device) (hy : t.Chosen d.uid d.deviceFlag y) : y = x := hy.unique hchosen h.candidate_inj
  by_cases hsame : x.id = d.id
  · left
    refine ⟨x, hchosen, ?_⟩
    simp only [updateTarget, hxid]
    rw [if_neg fun h => h.2 hsame, ← hsame, hrow]
    rfl
  · by_cases hhigher : x.tokenVersion > ((t.getDeviceById d.id).getD {}).tokenVersion ∨
        (isEmptyDevice ((t.getDeviceById d.id).getD {}) ∧ d.tokenVersion > 0)
    · left
      refine ⟨x, hchosen, ?_⟩
      simp only [updateTarget, hxid, hrow]
      rw [if_pos ⟨hne, hsame⟩, if_pos hhigher]
    · right
      refine ⟨?_, fun y hy => ?_⟩
      · simp only [updateTarget, hxid, hrow]
        rw [if_pos ⟨hne, hsame⟩, if_neg hhigher]
      · rw [hunique y hy]
        exact ⟨hsame, not_lt.mp fun hlt => hhigher (.inl hlt)⟩

/-- The row named in an update, of any device, is the only one that may stand in the way: it must
not belong to another device, carry the version of the device chosen, lie before it and differ from
it. -/
def Fits (t : DeviceShard) (d : Device) : Prop :=
  ∀ x row, t.Chosen d.uid d.deviceFlag x → t.getDeviceById d.id = some row →
    ¬ (hashWithString row.uid = hashWithString d.uid ∧ row.deviceFlag = d.deviceFlag) → 0 < x.tokenVersion →
    row.tokenVersion = x.tokenVersion → d.id < x.id → row.token = x.token ∧ row.deviceLevel = x.deviceLevel

section
variable {tokenHash : Bytes → Bytes} {expected : Option DeviceTokenCondition}

theorem update_of_accepts (h : t.accepts tokenHash d expected) : t.updateDeviceWithTokenCondition tokenHash d expected =
      (if isEmptyDevice (t.updateTarget d).2 then t else t.deleteDeviceIndex (t.updateTarget d).2).writeDevice
        { d with id := (t.updateTarget d).1, createdAt := none } := by
  change (if !meets tokenHash expected (t.updateTarget d).2 d then t else if !deviceTokenWriteAllowed (t.updateTarget d).2 d then t
    else _) = _
  rw [accepts, Bool.and_eq_true] at h
  rw [if_neg (by simp [h.1]), if_neg (by simp [h.2])]
  rfl

variable (h : t.Indexed d.uid)
include h

theorem updateTarget_id (hne : isEmptyDevice (t.updateTarget d).2 = false) :
    (t.updateTarget d).2.id = (t.updateTarget d).1 := by
  rcases updateTarget_cases h with ⟨x, -, htarget⟩ | ⟨htarget, -⟩
  · rw [htarget]
  rw [htarget] at hne ⊢
  cases hrow : t.getDeviceById d.id with
  | none =>
    rw [hrow] at hne
    cases hne
  | some row => exact h.id_eq hrow

variable (ha : t.accepts tokenHash d expected = true)
include ha

theorem wrote_update : Wrote d.uid { d with id := (t.updateTarget d).1, createdAt := none } t
      (t.updateDeviceWithTokenCondition tokenHash d expected) := by
  rw [update_of_accepts ha]
  split
  · exact wrote_writeDevice (d := { d with id := (t.updateTarget d).1, createdAt := none }) h
  · next hne =>
    exact wrote_deleteDeviceIndex (d := { d with id := (t.updateTarget d).1, createdAt := none }) h
      (updateTarget_id h (by simpa using hne))

theorem update_compare (hfits : t.Fits d) (hx : t.Chosen d.uid d.deviceFlag x) :
      x.tokenVersion ≤ d.tokenVersion ∧ (0 < x.tokenVersion → d.tokenVersion = x.tokenVersion →
        (d.token = x.token ∧ d.deviceLevel = x.deviceLevel) ∨ x.id < (t.updateTarget d).1) := by
  rw [accepts, Bool.and_eq_true] at ha
  have hallowed := ha.2
  rcases updateTarget_cases h with ⟨y, hy, htarget⟩ | ⟨htarget, hnamed⟩
  · cases hy.unique hx h.candidate_inj
    rw [htarget] at hallowed ⊢
    exact ⟨le_of_allowed hallowed, fun hpos heq => .inl (kept_of_allowed hallowed hpos heq)⟩
  rw [htarget] at hallowed ⊢
  obtain ⟨hne, hle⟩ := hnamed x hx
  have hold := le_of_allowed hallowed
  refine ⟨le_trans hle hold, fun hpos heq => ?_⟩
  have hversion : ((t.getDeviceById d.id).getD {}).tokenVersion = x.tokenVersion :=
    le_antisymm (heq ▸ hold) hle
  have hkept := kept_of_allowed hallowed (hversion ▸ hpos) (heq.trans hversion.symm)
  by_cases hbehind : x.id < d.id
  · exact .inr hbehind
  left
  have hbefore : d.id < x.id := UInt64.lt_of_le_of_ne (not_lt.mp hbehind) (Ne.symm hne)
  cases hrow : t.getDeviceById d.id with
  | none =>
    rw [hrow] at hversion
    rw [← hversion] at hpos
    exact absurd hpos (by decide)
  | some row =>
    rw [hrow] at hversion hkept
    by_cases hown : hashWithString row.uid = hashWithString d.uid ∧ row.deviceFlag = d.deviceFlag
    · -- a row of the device itself with the version chosen does not lie before it
      have hmax : d.id ≠ maxUint64 := by
        rintro hmax
        rw [hmax] at hbefore
        exact absurd (lt_iff_toNat_lt.mp hbefore) (Nat.not_lt.mpr (Nat.le_of_lt_succ x.id.toNat_lt))
      have hcand : t.Candidate d.uid d.deviceFlag row := ⟨d.id, h.entries _ _ hrow hown.1, hmax, hrow, hown.2⟩
      have hfirst := hx.first row hcand (congrArg UInt64.toNat hversion)
      rw [h.id_eq hrow] at hfirst
      exact absurd (le_iff_toNat_le.mpr hfirst) (UInt64.not_le.mpr hbefore)
    · obtain ⟨htoken, hlevel⟩ := hfits x row hx hrow hown hpos hversion hbefore
      exact ⟨hkept.1.trans htoken, hkept.2.trans hlevel⟩

end

def Owns (t : DeviceShard) (uid : Bytes) (flag id : UInt64) : Prop :=
  ∃ row, t.getDeviceById id = some row ∧ hashWithString row.uid = hashWithString uid ∧ row.deviceFlag = flag

theorem Wrote.owns (hw : Wrote uid d t t') (hd : d.uid ≠ []) (hhash : hashWithString d.uid = hashWithString uid)
    (hflag : d.deviceFlag = flag) (h : id = d.id ∨ t.Owns uid flag id) : t'.Owns uid flag id := by
  by_cases hid : id = d.id
  · obtain ⟨times, hrow⟩ := hw.getDeviceById_self hd
    rw [hid]
    exact ⟨_, hrow, hhash, hflag⟩
  · obtain ⟨row, hrow, hown⟩ := h.resolve_left hid
    exact ⟨row, (hw.getDeviceById_of_ne hid).trans hrow, hown⟩

end DeviceShard

namespace DeviceDB
variable {s s' : DeviceDB} {uid : Bytes} {flag : UInt64} {d x : Device} {tokenHash : Bytes → Bytes}
  {cache : Bytes × UInt64 → Option DeviceItem}

/-- What is cached of the device comes from rows of the device. -/
structure Rooted (uid : Bytes) (flag : UInt64) (s : DeviceDB) : Prop where
  indexed : s.shard.Indexed uid
  cached : ∀ u item, hashWithString u = hashWithString uid → s.cache (u, flag) = some item →
    item.device.uid ≠ [] ∧ s.shard.Owns uid flag item.device.id

/-- The version in the cache is not behind the database. -/
structure Steady (uid : Bytes) (flag : UInt64) (s : DeviceDB) : Prop extends Rooted uid flag s where
  ahead : ∀ item, s.cache (uid, flag) = some item →
    ∀ x, s.shard.Candidate uid flag x → x.tokenVersion ≤ item.device.tokenVersion

theorem setDevice_cases (s : DeviceDB) (d : Device) : (s.setDeviceLocked d).1 = d ∧
        (s.setDeviceLocked d).2 = { s with cache := update s.cache (d.uid, d.deviceFlag) (some ⟨d, false⟩) } ∨
      ∃ item, s.cache (d.uid, d.deviceFlag) = some item ∧ deviceTokenWriteAllowed item.device d = false ∧
        (s.setDeviceLocked d).1 = item.device ∧ (s.setDeviceLocked d).2 = s := by
  rw [setDeviceLocked]
  cases hc : s.cache (d.uid, d.deviceFlag) with
  | none => exact .inl ⟨rfl, rfl⟩
  | some item =>
    dsimp only
    split
    · exact .inl ⟨rfl, rfl⟩
    · next hnot => exact .inr ⟨item, rfl, by simpa using hnot, rfl, rfl⟩

theorem shard_setDevice (s : DeviceDB) (d : Device) : (s.setDeviceLocked d).2.shard = s.shard := by
  rcases setDevice_cases s d with ⟨-, h⟩ | ⟨-, -, -, -, h⟩ <;> rw [h]

/-- No item of the new cache has a device that the old one does not have there. -/
def Shrinks (cache cache' : Bytes × UInt64 → Option DeviceItem) : Prop :=
  ∀ k item, cache' k = some item → ∃ item', cache k = some item' ∧ item'.device = item.device

theorem Rooted.shrink (h : Rooted uid flag s) (hc : Shrinks s.cache cache) : Rooted uid flag { s with cache } := by
  refine ⟨h.indexed, fun u item hu hitem => ?_⟩
  obtain ⟨item', hitem', heq⟩ := hc _ item hitem
  rw [← heq]
  exact h.cached u item' hu hitem'

theorem Steady.shrink (h : Steady uid flag s) (hc : Shrinks s.cache cache) : Steady uid flag { s with cache } := by
  refine ⟨h.toRooted.shrink hc, fun item hitem => ?_⟩
  obtain ⟨item', hitem', heq⟩ := hc _ item hitem
  rw [← heq]
  exact h.ahead item' hitem'

theorem shrinks_update_none (cache : Bytes × UInt64 → Option DeviceItem) (key : Bytes × UInt64) :
    Shrinks cache (update cache key none) := by
  intro k item h
  by_cases hk : k = key
  · rw [hk, update_self] at h
    cases h
  · rw [update_of_ne hk] at h
    exact ⟨item, h, rfl⟩

theorem shrinks_expire (cache : Bytes × UInt64 → Option DeviceItem) (key : Bytes × UInt64) :
    Shrinks cache (update cache key ((cache key).map fun item => { item with expired := true })) := by
  intro k item hitem
  by_cases hk : k = key
  · rw [hk, update_self] at hitem
    obtain ⟨item', hitem', rfl⟩ := map_eq_some_iff.mp hitem
    exact ⟨item', hk ▸ hitem', rfl⟩
  · rw [update_of_ne hk] at hitem
    exact ⟨item, hitem, rfl⟩

theorem getDevice_cases (s : DeviceDB) (uid : Bytes) (flag : UInt64) :
    (∃ item, s.cache (uid, flag) = some item ∧ s.getDeviceLocked uid flag = (some item.device, s)) ∨
      ∃ cache, Shrinks s.cache cache ∧ cache (uid, flag) = none ∧ s.getDeviceLocked uid flag = (none, { s with cache }) := by
  rw [getDeviceLocked]
  cases hc : s.cache (uid, flag) with
  | none => exact .inr ⟨s.cache, fun k item hitem => ⟨item, hitem, rfl⟩, hc, rfl⟩
  | some item =>
    dsimp only
    split
    · exact .inr ⟨_, shrinks_update_none s.cache (uid, flag), update_self .., rfl⟩
    · exact .inl ⟨item, rfl, rfl⟩

theorem Rooted.set (h : Rooted uid flag s) (hd : d.uid ≠ [])
    (hrow : hashWithString d.uid = hashWithString uid → d.deviceFlag = flag → s.shard.Owns uid flag d.id) :
    Rooted uid flag (s.setDeviceLocked d).2 := by
  rcases setDevice_cases s d with ⟨-, h2⟩ | ⟨-, -, -, -, h2⟩
  · rw [h2]
    refine ⟨h.indexed, fun u item hu hitem => ?_⟩
    dsimp only at hitem ⊢
    by_cases hk : (u, flag) = (d.uid, d.deviceFlag)
    · rw [hk, update_self] at hitem
      cases hitem
      obtain ⟨rfl, rfl⟩ := Prod.mk.inj hk
      exact ⟨hd, hrow hu rfl⟩
    · rw [update_of_ne hk] at hitem
      exact h.cached u item hu hitem
  · rw [h2]
    exact h

/-- Once the device of the last write is set, the cache has caught up with the database. -/
theorem Rooted.setDevice (h : Rooted uid flag s) (hd : d.uid ≠ []) (hu : d.uid = uid) (hflag : d.deviceFlag = flag)
    (hrow : s.shard.Owns uid flag d.id) (hle : ∀ x, s.shard.Candidate uid flag x → x.tokenVersion ≤ d.tokenVersion) :
    Steady uid flag (s.setDevice d) := by
  refine ⟨h.set hd fun _ _ => hrow, fun item hitem x hx => ?_⟩
  rw [DeviceDB.setDevice, shard_setDevice] at hx
  have hx := hle x hx
  rw [DeviceDB.setDevice] at hitem
  rcases setDevice_cases s d with ⟨-, h2⟩ | ⟨item', hitem', hnot, -, h2⟩
  · rw [h2] at hitem
    dsimp only at hitem
    rw [hu, hflag, update_self] at hitem
    cases hitem
    exact hx
  · rw [h2, ← hu, ← hflag] at hitem
    cases hitem'.symm.trans hitem
    exact le_trans hx (le_of_not_allowed hnot)

/-- What a query hands out: nothing only if there is nothing, and otherwise a device that the
database is not ahead of. -/
structure Answered (uid : Bytes) (flag : UInt64) (s : DeviceDB) (answer : Option Device × DeviceDB) : Prop where
  steady : Steady uid flag answer.2
  shard : answer.2.shard = s.shard
  missing : answer.1 = none → ∀ x, ¬ s.shard.Candidate uid flag x
  found : ∀ o, answer.1 = some o → o.uid ≠ [] ∧ s.shard.Owns uid flag o.id ∧
    ∀ x, s.shard.Candidate uid flag x → x.tokenVersion ≤ o.tokenVersion

theorem Steady.load (h : Steady uid flag s) (hmiss : s.cache (uid, flag) = none) :
    Answered uid flag s (match s.shard.getDevice uid flag with
    | none => (none, s)
    | some d => (some (s.setDeviceLocked d).1, (s.setDeviceLocked d).2)) := by
  rcases h.indexed.getDevice_spec flag with ⟨hnone, -, hempty⟩ | ⟨y, hy, -, hchosen⟩
  · rw [hnone]
    exact ⟨h, rfl, fun _ => hempty, nofun⟩
  rw [hy]
  obtain ⟨id, hid, -, hrow, hflag⟩ := hchosen.mem
  obtain ⟨-, y', hrow', hhash⟩ := h.indexed.rows id hid
  cases hrow.symm.trans hrow'
  have hne : y.uid ≠ [] := (getDeviceById_eq_some.mp hrow).1
  have howns : s.shard.Owns uid flag y.id := ⟨y, (h.indexed.id_eq hrow).symm ▸ hrow, hhash, hflag⟩
  have hle (x : Device) (hx : s.shard.Candidate uid flag x) : x.tokenVersion ≤ y.tokenVersion :=
    le_iff_toNat_le.mpr (hchosen.highest x hx)
  refine ⟨⟨h.toRooted.set hne fun _ _ => howns, fun item hitem x hx => ?_⟩, shard_setDevice s y, nofun, fun o ho => ?_⟩
  · rw [shard_setDevice] at hx
    rcases setDevice_cases s y with ⟨-, h2⟩ | ⟨-, -, -, -, h2⟩
    · rw [h2] at hitem
      dsimp only at hitem
      by_cases hk : (uid, flag) = (y.uid, y.deviceFlag)
      · rw [hk, update_self] at hitem
        cases hitem
        exact hle x hx
      · rw [update_of_ne hk, hmiss] at hitem
        cases hitem
    · rw [h2, hmiss] at hitem
      cases hitem
  · cases ho
    rcases setDevice_cases s y with ⟨h1, -⟩ | ⟨item, hitem, hnot, h1, -⟩
    · rw [h1]
      exact ⟨hne, howns, hle⟩
    · rw [h1]
      rw [hflag] at hitem
      obtain ⟨hitemne, hitemowns⟩ := h.cached y.uid item hhash hitem
      exact ⟨hitemne, hitemowns, fun x hx => le_trans (hle x hx) (le_of_not_allowed hnot)⟩

theorem Steady.getDevice (h : Steady uid flag s) : Answered uid flag s (s.getDevice uid flag) := by
  rw [DeviceDB.getDevice]
  rcases getDevice_cases s uid flag with ⟨item, hc, heq⟩ | ⟨cache, hshrinks, hmiss, heq⟩
  · rw [heq]
    obtain ⟨hne, howns⟩ := h.cached uid item rfl hc
    refine ⟨h, rfl, nofun, fun o ho => ?_⟩
    cases ho
    exact ⟨hne, howns, h.ahead item hc⟩
  · rw [heq]
    obtain ⟨hsteady, hshard, hmissing, hfound⟩ := (h.shrink hshrinks).load hmiss
    exact ⟨hsteady, hshard, hmissing, hfound⟩

/-- The device handed out goes on. -/
def Follows (uid : Bytes) (flag : UInt64) (s s' : DeviceDB) : Prop :=
  ∀ x, s.shard.Chosen uid flag x → ∃ y, s'.shard.Chosen uid flag y ∧ x.GoesOn y

theorem Follows.of_shard (h : s'.shard = s.shard) : Follows uid flag s s' := fun x hx => ⟨x, h ▸ hx, .refl x⟩

theorem Steady.write (h : Steady uid flag s) {shard : DeviceShard}
    (hw : DeviceShard.Wrote uid d s.shard shard) (hd : d.uid ≠ [])
    (hu : d.uid = uid) (hflag : d.deviceFlag = flag) (h0 : d.id ≠ 0)
    (hx : ∀ x, s.shard.Chosen uid flag x → x.tokenVersion ≤ d.tokenVersion ∧
      (0 < x.tokenVersion → d.tokenVersion = x.tokenVersion →
        (d.token = x.token ∧ d.deviceLevel = x.deviceLevel) ∨ x.id < d.id))
    (hc : Shrinks s.cache cache) : Steady uid flag (setDevice ⟨shard, cache⟩ d) ∧
    Follows uid flag s (setDevice ⟨shard, cache⟩ d) := by
  have hhash : hashWithString d.uid = hashWithString uid := by rw [hu]
  have hle (y : Device) (hy : s.shard.Candidate uid flag y) : y.tokenVersion ≤ d.tokenVersion := by
    rcases h.indexed.getDevice_spec flag with ⟨-, -, hempty⟩ | ⟨x, -, -, hchosen⟩
    · exact absurd hy (hempty y)
    · exact le_trans (le_iff_toNat_le.mpr (hchosen.highest y hy)) (hx x hchosen).1
  constructor
  · have hrooted : Rooted uid flag ⟨shard, cache⟩ := by
      refine ⟨hw.indexed h.indexed hd hhash h0, fun u item hu hitem => ?_⟩
      obtain ⟨hne, howns⟩ := (h.toRooted.shrink hc).cached u item hu hitem
      exact ⟨hne, hw.owns hd hhash hflag (.inr howns)⟩
    exact hrooted.setDevice hd hu hflag (hw.owns hd hhash hflag (.inl rfl))
      fun x hx => hw.version_le h.indexed hd hflag hle hx
  · intro x hchosen
    rw [setDevice, shard_setDevice]
    exact hw.goesOn h.indexed hd hflag hchosen (hx x hchosen).1 (hx x hchosen).2

theorem Steady.update (h : Steady uid flag s) (huid : uid ≠ []) (hu : d.uid = uid) (hflag : d.deviceFlag = flag)
    (hfits : s.shard.Fits d) (tokenHash : Bytes → Bytes) (expected : Option DeviceTokenCondition) :
    Steady uid flag (s.updateDeviceWithTokenCondition tokenHash d expected) ∧
      Follows uid flag s (s.updateDeviceWithTokenCondition tokenHash d expected) := by
  rw [updateDeviceWithTokenCondition]
  split
  · exact ⟨h, .of_shard rfl⟩
  next hgo =>
  obtain ⟨h0, haccepts⟩ := not_or.mp hgo
  have haccepts : s.shard.accepts tokenHash d expected := by simpa using haccepts
  subst hu
  subst hflag
  have htarget : (s.shard.updateTarget d).1 ≠ 0 := by
    rcases updateTarget_cases h.indexed with ⟨x, hx, heq⟩ | ⟨heq, -⟩
    · rw [heq]
      exact (hx.row h.indexed).2.1
    · rw [heq]
      exact h0
  have hw := wrote_update h.indexed haccepts
  have hcompare (x : Device) (hx : s.shard.Chosen d.uid d.deviceFlag x) :=
    update_compare h.indexed haccepts hfits hx
  dsimp only
  split
  · exact h.write hw huid rfl rfl htarget hcompare (shrinks_update_none s.cache _)
  · exact h.write hw huid rfl rfl htarget hcompare fun k item hitem => ⟨item, hitem, rfl⟩

theorem fits_of_owns (h : s.shard.Owns d.uid d.deviceFlag d.id) : s.shard.Fits d := by
  intro x row _ hrow hother
  obtain ⟨row', hrow', hown⟩ := h
  cases hrow.symm.trans hrow'
  exact absurd hown hother

theorem Steady.add (h : Steady uid flag s) (huid : uid ≠ []) (hu : d.uid = uid) (hflag : d.deviceFlag = flag) :
    Steady uid flag (s.addDevice tokenHash d) ∧ Follows uid flag s (s.addDevice tokenHash d) := by
  rw [addDevice]
  split
  · exact ⟨h, .of_shard rfl⟩
  next h0 =>
  subst hu
  subst hflag
  obtain ⟨hsteady, hshard, hmissing, hfound⟩ := h.getDevice
  generalize s.getDevice d.uid d.deviceFlag = answer at hsteady hshard hmissing hfound
  obtain ⟨old, s₁⟩ := answer
  have hfollows {s' : DeviceDB} (hs' : Follows d.uid d.deviceFlag s₁ s') : Follows d.uid d.deviceFlag s s' :=
    fun x hx => hs' x (hshard.symm ▸ hx)
  cases old with
  | none =>
    have hnone := hmissing rfl
    obtain ⟨hsteady', hfollows'⟩ := hsteady.write (wrote_writeDevice hsteady.indexed) huid rfl rfl h0
      (fun x hx => absurd hx.mem (hshard.symm ▸ hnone x)) fun k item hitem => ⟨item, hitem, rfl⟩
    exact ⟨hsteady', hfollows hfollows'⟩
  | some o =>
    obtain ⟨hne, howns, hle⟩ := hfound o rfl
    have hempty : isEmptyDevice o = false := by simpa [isEmptyDevice] using hne
    simp only [getD_some, hempty, Bool.not_false, Bool.true_and]
    split
    · split
      · obtain ⟨hsteady', hfollows'⟩ := hsteady.update (d := { d with id := o.id }) huid rfl rfl
          (fits_of_owns (hshard.symm ▸ howns)) tokenHash none
        exact ⟨hsteady', hfollows hfollows'⟩
      · exact ⟨hsteady, hfollows (.of_shard rfl)⟩
    · next hzero =>
      simp only [Bool.or_eq_true, decide_eq_true_eq, not_or, not_lt] at hzero
      have hold (x : Device) (hx : s₁.shard.Chosen d.uid d.deviceFlag x) : x.tokenVersion ≤ 0 :=
        le_trans (hle x (hshard ▸ hx.mem)) hzero.1
      obtain ⟨hsteady', hfollows'⟩ := hsteady.write (wrote_writeDevice hsteady.indexed) huid rfl rfl h0
        (fun x hx => ⟨le_trans (hold x hx) UInt64.zero_le, fun hpos => absurd hpos (not_lt.mpr (hold x hx))⟩)
        fun k item hitem => ⟨item, hitem, rfl⟩
      exact ⟨hsteady', hfollows hfollows'⟩

inductive DeviceAction
  | add (d : Device)
  | update (d : Device) (expected : Option DeviceTokenCondition)
  | get
  | evict (key : Bytes × UInt64)
  | expire (key : Bytes × UInt64)

def deviceStep (tokenHash : Bytes → Bytes) (uid : Bytes) (flag : UInt64) (s : DeviceDB) : DeviceAction → Option DeviceDB
  | .add d => if d.uid = uid ∧ d.deviceFlag = flag then some (s.addDevice tokenHash d) else none
  | .update d expected =>
    if d.uid = uid ∧ d.deviceFlag = flag then some (s.updateDeviceWithTokenCondition tokenHash d expected) else none
  | .get => some (s.getDevice uid flag).2
  | .evict key => some { s with cache := update s.cache key none }
  | .expire key => some { s with
      cache := update s.cache key ((s.cache key).map fun item => { item with expired := true }) }

/-- An update names no row of another device that stands in the way. -/
def NamesOwn (s : DeviceDB) : DeviceAction → Prop
  | .update d _ => s.shard.Fits d
  | _ => True

theorem Steady.step (h : Steady uid flag s) (huid : uid ≠ []) {a : DeviceAction} (ha : s.NamesOwn a)
    (hs : deviceStep tokenHash uid flag s a = some s') : Steady uid flag s' ∧ Follows uid flag s s' := by
  cases a with
  | add d =>
    rw [deviceStep] at hs
    split at hs <;> cases hs
    next hown => exact h.add huid hown.1 hown.2
  | update d expected =>
    rw [deviceStep] at hs
    split at hs <;> cases hs
    next hown => exact h.update huid hown.1 hown.2 ha tokenHash expected
  | get =>
    cases hs
    have hanswered := h.getDevice
    exact ⟨hanswered.steady, .of_shard hanswered.shard⟩
  | evict key =>
    cases hs
    exact ⟨h.shrink (shrinks_update_none s.cache key), .of_shard rfl⟩
  | expire key =>
    cases hs
    exact ⟨h.shrink (shrinks_expire s.cache key), .of_shard rfl⟩

/-- The device handed out never goes back, as long as no update names the row of another device of
the same version; and what is refused changes nothing. -/
theorem device_goes_on (huid : uid ≠ []) (h : Reach (Steady uid flag) (deviceStep tokenHash uid flag) NamesOwn s)
    (h' : Reach (fun t => t = s) (deviceStep tokenHash uid flag) NamesOwn s') :
    (∀ x, s.shard.getDevice uid flag = some x → ∃ y, s'.shard.getDevice uid flag = some y ∧ x.GoesOn y) ∧
    (∀ d expected, s'.shard.accepts tokenHash d expected = false →
      (s'.updateDeviceWithTokenCondition tokenHash d expected).shard = s'.shard) ∧
    ∀ d old, d.uid = uid → d.deviceFlag = flag → (s'.getDevice uid flag).1 = some old →
      0 < old.tokenVersion ∨ 0 < d.tokenVersion → deviceTokenWriteAllowed old d = false →
      (s'.addDevice tokenHash d).shard = s'.shard := by
  have hsteady : Steady uid flag s := h.invariant (Steady uid flag) (fun _ =>
    id) fun s a t hs ha hstep => (hs.step huid ha hstep).1
  have hrun : Steady uid flag s' ∧ Follows uid flag s s' := by
    refine h'.invariant (fun t => Steady uid flag t ∧ Follows uid flag s t) (fun t ht => ?_) fun t a t' ht ha hstep => ?_
    · subst ht
      exact ⟨hsteady, .of_shard rfl⟩
    obtain ⟨hsteady', hfollows⟩ := ht.1.step huid ha hstep
    refine ⟨hsteady', fun x hx => ?_⟩
    obtain ⟨y, hy, hxy⟩ := ht.2 x hx
    obtain ⟨z, hz, hyz⟩ := hfollows y hy
    exact ⟨z, hz, hxy.trans hyz⟩
  refine ⟨fun x hx => ?_, fun d expected hrefused => ?_, fun d old hu hflag hold hversion hrefused => ?_⟩
  · obtain ⟨y, hy, hxy⟩ := hrun.2 x (hsteady.indexed.getDevice_eq_some.mp hx)
    exact ⟨y, hrun.1.indexed.getDevice_eq_some.mpr hy, hxy⟩
  · rw [updateDeviceWithTokenCondition, if_pos (.inr (by simp [hrefused]))]
  · rw [addDevice]
    split
    · rfl
    have hanswered := hrun.1.getDevice
    have hempty : isEmptyDevice old = false := by simpa [isEmptyDevice] using (hanswered.found old hold).1
    rw [hu, hflag]
    dsimp only
    rw [hold]
    simp only [getD_some, hempty, hrefused]
    rw [if_pos (by simpa using hversion)]
    exact hanswered.shard

private theorem indexed_empty (uid : Bytes) : DeviceShard.Indexed {} uid :=
  ⟨List.Pairwise.nil, nofun, nofun, nofun⟩

private theorem steady_of_indexed {shard : DeviceShard} (h : shard.Indexed uid) : Steady uid flag ⟨shard, fun _ => none⟩ :=
  ⟨⟨h, nofun⟩, nofun⟩

private def phone : Device := { id := 1, uid := [117], token := [66], tokenVersion := 5 }

private def desk : Device := { id := 2, uid := [117], token := [65], tokenVersion := 5, deviceFlag := 1 }

private def phoned : DeviceDB := ⟨(addDevice {} (fun b => b) phone).shard, fun _ => none⟩

private theorem phoned_steady : Steady [117] 1 phoned := by
  apply steady_of_indexed
  exact ((steady_of_indexed (indexed_empty [117])).add (by decide) rfl rfl).1.indexed

private theorem desk_added : Reach (Steady [117] 1) (deviceStep (fun b => b) [117] 1) NamesOwn (phoned.addDevice (fun b => b) desk) :=
  .step (a := .add desk) (.init phoned_steady) trivial rfl

/-- The device gets a higher version under its own row. -/
theorem device_goes_on_raised :
    ((phoned.addDevice (fun b => b) desk).shard.getDevice [117] 1).map (·.tokenVersion) = some 5 ∧
    ∃ y, ((phoned.addDevice (fun b => b) desk).updateDevice (fun b => b) { desk with tokenVersion := 6 }).shard.getDevice [117] 1 =
      some y ∧ desk.GoesOn y := by
  refine ⟨by decide +kernel, ?_⟩
  have hown : (phoned.addDevice (fun b => b) desk).shard.Owns [117] 1 2 := ⟨desk, by decide +kernel, rfl, rfl⟩
  have hupdated : Reach (fun t => t = phoned.addDevice (fun b => b) desk) (deviceStep (fun b => b) [117] 1) NamesOwn
      ((phoned.addDevice (fun b => b) desk).updateDevice (fun b => b) { desk with tokenVersion := 6 }) :=
    .step (a := .update { desk with tokenVersion := 6 } none) (.init rfl) (fits_of_owns hown) rfl
  exact (device_goes_on (by decide) desk_added hupdated).1 desk (by decide +kernel)

/-- The row of the other device is named, with its token and its version: the version stays, and the
token changes. -/
theorem device_goes_on_fails :
    let s := phoned.addDevice (fun b => b) desk
    let s' := s.updateDevice (fun b => b) { phone with deviceFlag := 1 }
    Reach (Steady [117] 1) (deviceStep (fun b => b) [117] 1) (fun _ _ => True) s ∧
    Reach (fun t => t = s) (deviceStep (fun b => b) [117] 1) (fun _ _ => True) s' ∧
    (s.shard.getDevice [117] 1).map (fun x => (x.tokenVersion, x.token)) = some (5, [65]) ∧
    (s'.shard.getDevice [117] 1).map (fun x => (x.tokenVersion, x.token)) = some (5, [66]) := by
  refine ⟨desk_added.mono fun _ _ _ => trivial, ?_, by decide +kernel, by decide +kernel⟩
  exact .step (a := .update { phone with deviceFlag := 1 } none) (.init rfl) trivial rfl

end DeviceDB
end WuKongIM.WKDB

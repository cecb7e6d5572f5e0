import WuKongIM.Lib.Foremost
import WuKongIM.WKDB.UserTables

/-! The devices of the users with the cache in front of them, and which device of a user the
database hands out: the one of the highest version that comes first. -/
namespace WuKongIM.WKDB
open Lib List Function

structure DeviceItem where
  device : Device
  expired : Bool := false
  deriving DecidableEq

structure DeviceDB where
  shard : DeviceShard := {}
  cache : Bytes × UInt64 → Option DeviceItem := fun _ => none

def DeviceShard.updateTarget (t : DeviceShard) (d : Device) : UInt64 × Device :=
  let old := (t.getDeviceById d.id).getD {}
  let currentID := t.getDeviceId d.uid d.deviceFlag
  if currentID ≠ 0 ∧ currentID ≠ d.id then
    match t.getDeviceById currentID with
    | some current =>
      if current.tokenVersion > old.tokenVersion ∨ (isEmptyDevice old ∧ d.tokenVersion > 0) then (current.id, current)
      else (d.id, old)
    | none => (d.id, old)
  else (d.id, old)

def DeviceShard.accepts (t : DeviceShard) (tokenHash : Bytes → Bytes) (d : Device)
    (expected : Option DeviceTokenCondition) : Bool :=
  let old := (t.updateTarget d).2
  meets tokenHash expected old d && deviceTokenWriteAllowed old d

namespace DeviceDB
variable (s : DeviceDB) (tokenHash : Bytes → Bytes)

/-- An item that has expired is taken out. -/
def getDeviceLocked (uid : Bytes) (deviceFlag : UInt64) : Option Device × DeviceDB :=
  match s.cache (uid, deviceFlag) with
  | some item =>
    if item.expired then (none, { s with cache := update s.cache (uid, deviceFlag) none }) else (some item.device, s)
  | none => (none, s)

/-- An item stays, expired or not, when the device may not be written over it. -/
def setDeviceLocked (d : Device) : Device × DeviceDB :=
  let set := { s with cache := update s.cache (d.uid, d.deviceFlag) (some ⟨d, false⟩) }
  match s.cache (d.uid, d.deviceFlag) with
  | some item => if deviceTokenWriteAllowed item.device d then (d, set) else (item.device, s)
  | none => (d, set)

def setDevice (d : Device) : DeviceDB := (s.setDeviceLocked d).2

def invalidateDevice (uid : Bytes) (deviceFlag : UInt64) : DeviceDB :=
  { s with cache := update s.cache (uid, deviceFlag) none }

/-- The loop of `getOrLoadDevice` when nobody is in between. -/
def getDevice (uid : Bytes) (deviceFlag : UInt64) : Option Device × DeviceDB :=
  match s.getDeviceLocked uid deviceFlag with
  | (some d, s) => (some d, s)
  | (none, s) =>
    match s.shard.getDevice uid deviceFlag with
    | none => (none, s)
    | some d => (some (s.setDeviceLocked d).1, (s.setDeviceLocked d).2)

def updateDeviceWithTokenCondition (d : Device) (expected : Option DeviceTokenCondition) : DeviceDB :=
  if d.id = 0 ∨ !s.shard.accepts tokenHash d expected then s
  else
    let target := s.shard.updateTarget d
    let committed := { s with shard := s.shard.updateDeviceWithTokenCondition tokenHash d expected }
    let moved := !isEmptyDevice target.2 && (target.2.uid ≠ d.uid || target.2.deviceFlag ≠ d.deviceFlag)
    let invalidated := if moved then committed.invalidateDevice target.2.uid target.2.deviceFlag else committed
    invalidated.setDevice { d with id := target.1, createdAt := none }

def updateDevice (d : Device) : DeviceDB := s.updateDeviceWithTokenCondition tokenHash d none

def updateDeviceIfTokenMatches (d : Device) (version : UInt64) (hash : Bytes) : DeviceDB :=
  s.updateDeviceWithTokenCondition tokenHash d (some ⟨version, hash⟩)

def addDevice (d : Device) : DeviceDB :=
  if d.id = 0 then s
  else
    let (old, s) := s.getDevice d.uid d.deviceFlag
    let old := old.getD {}
    if !isEmptyDevice old && (old.tokenVersion > 0 || d.tokenVersion > 0) then
      if deviceTokenWriteAllowed old d then s.updateDevice tokenHash { d with id := old.id } else s
    else setDevice { s with shard := s.shard.writeDevice d } d

end DeviceDB

theorem allowed_iff {old next : Device} : deviceTokenWriteAllowed old next ↔
    (old.tokenVersion = 0 ∧ next.tokenVersion = 0) ∨ old.tokenVersion < next.tokenVersion ∨
      (next.tokenVersion = old.tokenVersion ∧ next.token = old.token ∧ next.deviceLevel = old.deviceLevel) := by
  rw [deviceTokenWriteAllowed]
  split_ifs with h0 hne
  · simp [h0]
  · simp only [decide_eq_true_eq]
    tauto
  · have heq : next.tokenVersion = old.tokenVersion := not_not.mp hne
    have hpos : ¬ (old.tokenVersion = 0 ∧ old.tokenVersion = 0) := by rwa [heq] at h0
    simp only [heq, hpos, false_or, UInt64.lt_irrefl, decide_eq_true_eq, true_and]

namespace DeviceShard
variable {t t' : DeviceShard} {uid : Bytes} {flag id : UInt64} {d x : Device}

def Candidate (t : DeviceShard) (uid : Bytes) (flag : UInt64) (x : Device) : Prop :=
  ∃ id ∈ t.uidIndex (hashWithString uid), id ≠ maxUint64 ∧ t.getDeviceById id = some x ∧ x.deviceFlag = flag

/-- The index of a user has the rows of the user, and the rows stand under their identifiers. -/
structure Indexed (t : DeviceShard) (uid : Bytes) : Prop where
  ascending : Ascending UInt64.toNat (t.uidIndex (hashWithString uid))
  rows : ∀ id ∈ t.uidIndex (hashWithString uid), id ≠ 0 ∧
    ∃ x, t.getDeviceById id = some x ∧ hashWithString x.uid = hashWithString uid
  ids : ∀ id x, t.rows id = some x → x.id = id
  entries : ∀ id x, t.getDeviceById id = some x → hashWithString x.uid = hashWithString uid →
    id ∈ t.uidIndex (hashWithString uid)

theorem getDeviceById_eq_some : t.getDeviceById id = some x ↔ x.uid ≠ [] ∧ ∃ row, t.rows id = some row ∧
    x = { row with createdAt := readTime row.createdAt, updatedAt := readTime row.updatedAt } := by
  rw [getDeviceById, Option.bind_eq_some_iff]
  constructor
  · rintro ⟨row, hrow, hx⟩
    dsimp only at hx
    split at hx
    · cases hx
    rename_i hne
    cases hx
    exact ⟨by simpa [isEmptyDevice] using hne, row, hrow, rfl⟩
  · rintro ⟨hne, row, hrow, rfl⟩
    refine ⟨row, hrow, ?_⟩
    simpa [isEmptyDevice] using hne

theorem Indexed.id_eq (h : t.Indexed uid) (hx : t.getDeviceById id = some x) : x.id = id := by
  obtain ⟨-, row, hrow, rfl⟩ := getDeviceById_eq_some.mp hx
  exact h.ids id row hrow

theorem Indexed.isSome_row (h : t.Indexed uid) (hid : id ∈ t.uidIndex (hashWithString uid)) :
    (t.getDeviceById id).isSome := by
  obtain ⟨-, x, hx, -⟩ := h.rows id hid
  rw [hx]
  rfl

theorem select_eq (ids : List UInt64) (hrows : ∀ id ∈ ids, (t.getDeviceById id).isSome) (selected : Device) :
    t.select flag ids selected = foremost (fun d : Device => d.tokenVersion.toNat)
      ((ids.filterMap t.getDeviceById).filter fun d => d.deviceFlag = flag)
        (if isEmptyDevice selected then none else some selected) := by
  induction ids generalizing selected with
  | nil => rfl
  | cons id ids ih =>
    obtain ⟨d, hd⟩ := Option.isSome_iff_exists.mp (hrows id (.head ids))
    have hne : isEmptyDevice d = false := by simpa [isEmptyDevice] using (getDeviceById_eq_some.mp hd).1
    rw [select, hd, filterMap_cons_some hd]
    dsimp only
    rw [ih fun id hid => hrows id (mem_cons_of_mem _ hid)]
    by_cases hflag : d.deviceFlag = flag
    · rw [filter_cons_of_pos (by simpa using hflag)]
      by_cases hempty : isEmptyDevice selected
      · simp [hflag, hempty, hne, foremost]
      · by_cases hlt : selected.tokenVersion < d.tokenVersion
        · simp [hflag, hempty, hne, hlt, UInt64.lt_iff_toNat_lt.mp hlt, foremost]
        · simp [hempty, hlt, mt UInt64.lt_iff_toNat_lt.mpr hlt, foremost]
    · simp [hflag]

def candidates (t : DeviceShard) (uid : Bytes) (flag : UInt64) : List Device :=
  (((t.uidIndex (hashWithString uid)).filter fun id => id ≠ maxUint64).filterMap t.getDeviceById).filter
    fun d => d.deviceFlag = flag

theorem mem_candidates : x ∈ t.candidates uid flag ↔ t.Candidate uid flag x := by
  simp only [candidates, mem_filter, mem_filterMap, decide_eq_true_eq]
  constructor
  · rintro ⟨⟨id, ⟨hid, hmax⟩, hx⟩, hflag⟩
    exact ⟨id, hid, hmax, hx, hflag⟩
  · rintro ⟨id, hid, hmax, hx, hflag⟩
    exact ⟨⟨id, ⟨hid, hmax⟩, hx⟩, hflag⟩

theorem Indexed.ascending_candidates (h : t.Indexed uid) (flag : UInt64) :
    Ascending (fun d : Device => d.id.toNat) (t.candidates uid flag) := by
  apply Pairwise.filter
  apply pairwise_filterMap.mpr
  apply (h.ascending.filter _).imp
  intro id id' hlt d hd d' hd'
  dsimp only
  rw [h.id_eq hd, h.id_eq hd']
  exact hlt

theorem Indexed.candidate_inj (h : t.Indexed uid) (x y : Device) (hx : t.Candidate uid flag x)
    (hy : t.Candidate uid flag y) (hid : x.id.toNat = y.id.toNat) : x = y := by
  obtain ⟨id, -, -, hx, -⟩ := hx
  obtain ⟨id', -, -, hy, -⟩ := hy
  have : id = id' := by rw [← h.id_eq hx, ← h.id_eq hy, UInt64.toNat_inj.mp hid]
  subst this
  exact Option.some.inj (hx.symm.trans hy)

/-- The order in which a device is chosen: by version, then by identifier. -/
abbrev Chosen (t : DeviceShard) (uid : Bytes) (flag : UInt64) (x : Device) : Prop :=
  Foremost (fun d : Device => d.tokenVersion.toNat) (fun d => d.id.toNat) (t.Candidate uid flag) x

theorem Indexed.getDevice_spec (h : t.Indexed uid) (flag : UInt64) :
    (t.getDevice uid flag = none ∧ t.getDeviceId uid flag = 0 ∧ ∀ x, ¬ t.Candidate uid flag x) ∨
      ∃ x, t.getDevice uid flag = some x ∧ t.getDeviceId uid flag = x.id ∧ t.Chosen uid flag x := by
  have hselect : t.select flag ((t.uidIndex (hashWithString uid)).filter fun id => id ≠ maxUint64) {} =
      foremost (fun d : Device => d.tokenVersion.toNat) (t.candidates uid flag) none :=
    select_eq _ (fun id hid => h.isSome_row (mem_filter.mp hid).1) {}
  rw [getDevice, getDeviceId, hselect]
  rcases foremost_none (h.ascending_candidates flag) with ⟨hnil, hnone⟩ | ⟨b, hb, hbest⟩
  · refine .inl ⟨by rw [hnone]; rfl, by rw [hnone], fun x hx => ?_⟩
    have := mem_candidates.mpr hx
    rw [hnil] at this
    cases this
  · have hchosen : t.Chosen uid flag b := hbest.congr fun y => mem_candidates.symm
    obtain ⟨id, hid, -, hrow, -⟩ := hchosen.mem
    have hbid := h.id_eq hrow
    have hne : b.id ≠ 0 := hbid ▸ (h.rows id hid).1
    refine .inr ⟨b, ?_, by rw [hb], hchosen⟩
    rw [hb]
    dsimp only
    rw [if_neg hne, hbid, hrow]

/-- What the database hands out is the foremost of the candidates. -/
theorem Indexed.getDevice_eq_some (h : t.Indexed uid) : t.getDevice uid flag = some x ↔ t.Chosen uid flag x := by
  rcases h.getDevice_spec flag with ⟨hnone, -, hempty⟩ | ⟨b, hb, -, hbest⟩
  · rw [hnone]
    exact ⟨nofun, fun hx => absurd hx.mem (hempty x)⟩
  rw [hb]
  constructor
  · rintro ⟨⟩
    exact hbest
  · intro hx
    rw [hx.unique hbest h.candidate_inj]

theorem Chosen.row (h : t.Chosen uid flag x) (hi : t.Indexed uid) : t.getDeviceById x.id = some x ∧
    x.id ≠ 0 ∧ x.id ≠ maxUint64 := by
  obtain ⟨id, hid, hmax, hrow, -⟩ := h.mem
  rw [hi.id_eq hrow]
  exact ⟨hrow, (hi.rows id hid).1, hmax⟩

/-- A device has been written to its row, and the user's index knows it. -/
structure Wrote (uid : Bytes) (d : Device) (t t' : DeviceShard) : Prop where
  index : ∀ id, id ∈ t'.uidIndex (hashWithString uid) ↔ id = d.id ∨ id ∈ t.uidIndex (hashWithString uid)
  ascending : Ascending UInt64.toNat (t'.uidIndex (hashWithString uid))
  row : ∃ times : Option UInt64 × Option UInt64, t'.rows d.id = some { d with createdAt := times.1, updatedAt := times.2 }
  others : ∀ id, id ≠ d.id → t'.rows id = t.rows id

theorem toNat_injective : Function.Injective UInt64.toNat := fun _ _ h => UInt64.toNat_inj.mp h

theorem wrote_of_filter (h : t.Indexed d.uid) {t₁ : DeviceShard} (p : UInt64 → Bool) (hp : ∀ id, id ≠ d.id → p id)
    (hrows : t₁.rows = t.rows) (hindex : t₁.uidIndex (hashWithString d.uid) = (t.uidIndex (hashWithString d.uid)).filter p) :
    Wrote d.uid d t (t₁.writeDevice d) := by
  refine ⟨fun id => ?_, ?_, ?_, fun id hid => ?_⟩
  · rw [writeDevice]
    dsimp only
    rw [update_self, mem_put_of_injective toNat_injective, hindex]
    by_cases hne : id = d.id
    · simp [hne]
    · simp [hp id hne]
  · rw [writeDevice]
    dsimp only
    rw [update_self, hindex]
    exact Ascending.put (h.ascending.filter p) d.id
  · exact ⟨(d.createdAt <|> (t₁.rows d.id).bind (·.createdAt), d.updatedAt <|> (t₁.rows d.id).bind (·.updatedAt)),
      update_self ..⟩
  · rw [← hrows]
    exact update_of_ne hid ..

theorem wrote_writeDevice (h : t.Indexed d.uid) : Wrote d.uid d t (t.writeDevice d) :=
  wrote_of_filter h (fun _ => true) (fun _ _ => rfl) rfl (filter_true _).symm

theorem wrote_deleteDeviceIndex (h : t.Indexed d.uid) {old : Device} (hid : old.id = d.id) :
    Wrote d.uid d t ((t.deleteDeviceIndex old).writeDevice d) := by
  by_cases hhash : hashWithString d.uid = hashWithString old.uid
  · refine wrote_of_filter h (fun id => id ≠ old.id) (fun id hne => by simpa [hid] using hne) rfl ?_
    rw [hhash]
    exact update_self ..
  · refine wrote_of_filter h (fun _ => true) (fun _ _ => rfl) rfl ?_
    rw [filter_true]
    exact update_of_ne hhash ..

variable (hw : Wrote uid d t t')
include hw

theorem Wrote.getDeviceById_self (hd : d.uid ≠ []) : ∃ times : Option UInt64 × Option UInt64,
    t'.getDeviceById d.id = some { d with createdAt := times.1, updatedAt := times.2 } := by
  obtain ⟨times, hrow⟩ := hw.row
  exact ⟨(readTime times.1, readTime times.2), getDeviceById_eq_some.mpr ⟨hd, _, hrow, rfl⟩⟩

theorem Wrote.getDeviceById_of_ne (hid : id ≠ d.id) : t'.getDeviceById id = t.getDeviceById id := by
  rw [getDeviceById, getDeviceById, hw.others id hid]

theorem Wrote.indexed (h : t.Indexed uid) (hd : d.uid ≠ [])
    (hhash : hashWithString d.uid = hashWithString uid) (h0 : d.id ≠ 0) :
    t'.Indexed uid := by
  refine ⟨hw.ascending, fun id hid => ?_, fun id x hx => ?_, fun id x hx hhash => ?_⟩
  · by_cases hne : id = d.id
    · subst hne
      obtain ⟨times, hrow⟩ := hw.getDeviceById_self hd
      exact ⟨h0, _, hrow, hhash⟩
    · rw [hw.getDeviceById_of_ne hne]
      exact h.rows id (((hw.index id).mp hid).resolve_left hne)
  · by_cases hne : id = d.id
    · subst hne
      obtain ⟨times, hrow⟩ := hw.row
      cases hrow.symm.trans hx
      rfl
    · exact h.ids id x (hw.others id hne ▸ hx)
  · by_cases hne : id = d.id
    · exact (hw.index id).mpr (.inl hne)
    · rw [hw.getDeviceById_of_ne hne] at hx
      exact (hw.index id).mpr (.inr (h.entries id x hx hhash))

theorem Wrote.candidate_iff (h : t.Indexed uid) (hd : d.uid ≠ []) (hflag : d.deviceFlag = flag) (hmax : d.id ≠ maxUint64) :
    ∃ x, (x.id = d.id ∧ x.uid = d.uid ∧ x.token = d.token ∧ x.tokenVersion = d.tokenVersion ∧ x.deviceLevel = d.deviceLevel) ∧
      t'.getDeviceById d.id = some x ∧ ∀ y, t'.Candidate uid flag y ↔
        y = x ∨ t.Candidate uid flag y ∧ y.id.toNat ≠ x.id.toNat := by
  obtain ⟨times, hx⟩ := hw.getDeviceById_self hd
  refine ⟨{ d with createdAt := times.1, updatedAt := times.2 }, ⟨rfl, rfl, rfl, rfl, rfl⟩, hx, fun y => ?_⟩
  constructor
  · rintro ⟨id, hid, hne, hy, hyflag⟩
    by_cases hidd : id = d.id
    · subst hidd
      exact .inl (Option.some.inj (hy.symm.trans hx))
    · rw [hw.getDeviceById_of_ne hidd] at hy
      refine .inr ⟨⟨id, ((hw.index id).mp hid).resolve_left hidd, hne, hy, hyflag⟩, ?_⟩
      rw [h.id_eq hy]
      exact fun heq => hidd (UInt64.toNat_inj.mp heq)
  · rintro (hy | ⟨⟨id, hid, hne, hy, hyflag⟩, hyid⟩)
    · rw [hy]
      exact ⟨d.id, (hw.index d.id).mpr (.inl rfl), hmax, hx, hflag⟩
    · have hidd : id ≠ d.id := by
        rintro rfl
        exact hyid (by rw [h.id_eq hy])
      exact ⟨id, (hw.index id).mpr (.inr hid), hne, (hw.getDeviceById_of_ne hidd).trans hy, hyflag⟩

theorem Wrote.candidate_of_max (hmax : d.id = maxUint64) (y : Device) : t'.Candidate uid flag y ↔ t.Candidate uid flag y := by
  constructor
  · rintro ⟨id, hid, hne, hy, hyflag⟩
    have hidd : id ≠ d.id := hmax ▸ hne
    exact ⟨id, ((hw.index id).mp hid).resolve_left hidd, hne, hw.getDeviceById_of_ne hidd ▸ hy, hyflag⟩
  · rintro ⟨id, hid, hne, hy, hyflag⟩
    have hidd : id ≠ d.id := hmax ▸ hne
    exact ⟨id, (hw.index id).mpr (.inr hid), hne, (hw.getDeviceById_of_ne hidd).trans hy, hyflag⟩

end DeviceShard
end WuKongIM.WKDB

import WuKongIM.WKDB.DeviceSessions

/-! In every run of queries and updates of one device, what a query hears is not older than what had returned when it
began. -/
namespace WuKongIM.WKDB
open Lib List Option Function DeviceDB Register DeviceMove Update

variable {t : DeviceShard} {cache : Bytes × UInt64 → Option DeviceItem}

section

def Held (flag : UInt64) (cache : Bytes × UInt64 → Option DeviceItem)
    (values : List (Option Credentials)) (u : Bytes) : Prop :=
  ∀ item, cache (u, flag) = some item → some item.device.credentials ∈ values

/-- A database in which no index entry is gone, and the cache in front of it. A user of the same
hash whose device is handed out has had it from the start. -/
structure Serves (uid : Bytes) (flag : UInt64) (t : DeviceShard) (cache : Bytes × UInt64 → Option DeviceItem)
    (h : Register (Option Credentials) Nat Nat) : Prop where
  indexed : t.Indexed uid
  current : (t.getDevice uid flag).map Device.credentials = h.current
  own : Held flag cache h.values uid
  foreign : ∀ x, t.Chosen uid flag x → x.uid ≠ uid → (∀ c ∈ h.values, c = some x.credentials) ∧ Held flag cache h.values x.uid

/-- No item of the new cache has credentials that may not be heard, unless they were there. -/
def Fills (flag : UInt64) (values : List (Option Credentials)) (cache cache' : Bytes × UInt64 → Option DeviceItem) : Prop :=
  ∀ u item, cache' (u, flag) = some item → some item.device.credentials ∈ values ∨
    ∃ item', cache (u, flag) = some item' ∧ item'.device = item.device

variable {uid u : Bytes} {flag : UInt64} {db : DeviceDB} {cache' : Bytes × UInt64 → Option DeviceItem}
  {values values' : List (Option Credentials)} {h : Register (Option Credentials) Nat Nat} {x d : Device}

theorem Held.mono (hh : Held flag cache values u) (hv : values ⊆ values') : Held flag cache values' u :=
  fun item hitem => hv (hh item hitem)

theorem Held.fill (hh : Held flag cache values u) (hf : Fills flag values cache cache') : Held flag cache' values u := by
  intro item hitem
  rcases hf u item hitem with hmem | ⟨item', hitem', heq⟩
  · exact hmem
  · rw [← heq]
    exact hh item' hitem'

theorem fills_shrinks (hs : DeviceDB.Shrinks cache cache') : Fills flag values cache cache' :=
  fun u item hitem => .inr (hs (u, flag) item hitem)

theorem fills_setDevice (hd : some d.credentials ∈ values) : Fills flag values db.cache (db.setDeviceLocked d).2.cache := by
  intro u item hitem
  rcases setDevice_cases db d with ⟨-, h2⟩ | ⟨-, -, -, -, h2⟩
  · rw [h2] at hitem
    dsimp only at hitem
    by_cases hk : (u, flag) = (d.uid, d.deviceFlag)
    · rw [hk, update_self] at hitem
      cases hitem
      exact .inl hd
    · rw [update_of_ne hk] at hitem
      exact .inr ⟨item, hitem, rfl⟩
  · rw [h2] at hitem
    exact .inr ⟨item, hitem, rfl⟩

namespace Serves

section
variable (hs : Serves uid flag t cache h)
include hs

theorem fill (hf : Fills flag h.values cache cache') : Serves uid flag t cache' h :=
  ⟨hs.indexed, hs.current, hs.own.fill hf, fun x hx hne => ⟨(hs.foreign x hx hne).1, (hs.foreign x hx hne).2.fill hf⟩⟩

theorem held (hx : t.Chosen uid flag x) : Held flag cache h.values x.uid := by
  by_cases hne : x.uid = uid
  · rw [hne]
    exact hs.own
  · exact (hs.foreign x hx hne).2

theorem mem_values (hx : t.Chosen uid flag x) : some x.credentials ∈ h.values := by
  have hcurrent := hs.current
  rw [hs.indexed.getDevice_eq_some.mpr hx] at hcurrent
  rw [show some x.credentials = h.current from hcurrent]
  exact current_mem

end

theorem setDeviceLocked_mem (hflag : x.deviceFlag = flag) (hx : some x.credentials ∈ values)
    (hh : Held flag db.cache values x.uid) : some (db.setDeviceLocked x).1.credentials ∈ values := by
  rcases setDevice_cases db x with ⟨h1, -⟩ | ⟨item, hitem, -, h1, -⟩
  · rw [h1]
    exact hx
  · rw [h1]
    rw [hflag] at hitem
    exact hh item hitem

theorem getDevice_mem (hs : Serves uid flag db.shard db.cache h) :
    (db.getDevice uid flag).1.map Device.credentials ∈ h.values := by
  rw [getDevice]
  rcases getDevice_cases db uid flag with ⟨item, hc, heq⟩ | ⟨cache, hshrinks, -, heq⟩
  · rw [heq]
    exact hs.own item hc
  rw [heq]
  have hs' : Serves uid flag db.shard cache h := hs.fill (fills_shrinks hshrinks)
  have hcurrent := hs'.current
  dsimp only
  rcases hs'.indexed.getDevice_spec flag with ⟨hnone, -, -⟩ | ⟨y, hy, -, hchosen⟩
  · rw [hnone] at hcurrent ⊢
    exact hcurrent ▸ current_mem
  · rw [hy]
    obtain ⟨-, -, -, -, hflag⟩ := hchosen.mem
    exact setDeviceLocked_mem hflag (hs'.mem_values hchosen) (hs'.held hchosen)

theorem commit (hs : Serves uid flag t cache h) {t' : DeviceShard} (hw : DeviceShard.Wrote uid d t t') (huid : uid ≠ [])
    (hu : d.uid = uid) (hflag : d.deviceFlag = flag) (h0 : d.id ≠ 0) (hleads : t.Leads uid flag d) (w : Nat) :
    Serves uid flag t' cache (h.commit w (some d.credentials)) ∧ Supersedes h.current (some d.credentials) := by
  have hd : d.uid ≠ [] := hu ▸ huid
  have hindexed := hw.indexed hs.indexed hd (by rw [hu]) h0
  have hsub : h.values ⊆ (h.commit w (some d.credentials)).values := by
    rw [values_commit]
    exact subset_append_left ..
  obtain ⟨z, hz, hsame, hfrom⟩ := hw.chosen hs.indexed hd hflag hleads
  refine ⟨⟨hindexed, ?_, hs.own.mono hsub, fun x hx hne => ?_⟩, ?_⟩
  · rw [current_commit, hindexed.getDevice_eq_some.mpr hz, map_some, hsame]
  · cases hx.unique hz hindexed.candidate_inj
    obtain ⟨hall, hheld⟩ := hs.foreign z (hfrom.resolve_left fun heq => hne (heq.trans hu)) hne
    refine ⟨fun c hc => ?_, hheld.mono hsub⟩
    rw [values_commit, mem_append, mem_singleton] at hc
    rcases hc with hc | rfl
    · exact hall c hc
    · rw [hsame]
  · rw [← hs.current]
    rcases hs.indexed.getDevice_spec flag with ⟨hnone, -, -⟩ | ⟨x, hx, -, hchosen⟩
    · rw [hnone]
      trivial
    · rw [hx]
      exact allowed_iff_allows.mp (hleads.1 x hchosen).1

/-- The first one to have committed tells the cache: what it supersedes is heard no more. -/
theorem settle (hs : Serves uid flag t db.cache h) (hl : h.Linked Supersedes) {w : Nat}
    {rest : List (Nat × Option Credentials)} (hp : h.pending = (w, some d.credentials) :: rest) (hu : d.uid = uid)
    (hflag : d.deviceFlag = flag) : Serves uid flag t (db.setDevice d).cache (h.settle w) := by
  have hvalues := values_settle hp
  have hd : some d.credentials ∈ (h.settle w).values := by
    rw [settle_first hp]
    exact .head _
  have hallows := (hl.settle hp).1
  refine ⟨hs.indexed, hs.current.trans (current_settle hp).symm, fun item hitem => ?_, fun x hx hne => ?_⟩
  · rw [setDevice] at hitem
    rcases setDevice_cases db d with ⟨-, h2⟩ | ⟨item', hitem', hnot, -, h2⟩
    · rw [h2] at hitem
      dsimp only at hitem
      rw [hu, hflag, update_self] at hitem
      cases hitem
      exact hd
    · rw [h2, ← hu, ← hflag] at hitem
      cases hitem'.symm.trans hitem
      have hmem := hs.own item (by rwa [hu, hflag] at hitem)
      rw [hvalues] at hmem
      refine (mem_cons.mp hmem).resolve_left fun heq => ?_
      rw [← heq] at hallows
      rw [allowed_iff_allows.mpr hallows] at hnot
      cases hnot
  · obtain ⟨hall, hheld⟩ := hs.foreign x hx hne
    have hsub : (h.settle w).values ⊆ h.values := hvalues ▸ subset_cons_self ..
    refine ⟨fun c hc => hall c (hsub hc), fun item hitem => ?_⟩
    have hcached : db.cache (x.uid, flag) = some item := by
      rw [setDevice] at hitem
      rcases setDevice_cases db d with ⟨-, h2⟩ | ⟨-, -, -, -, h2⟩
      · rw [h2] at hitem
        dsimp only at hitem
        rwa [update_of_ne fun hk => hne ((Prod.mk.inj hk).1.trans hu)] at hitem
      · rwa [h2] at hitem
    rw [hall _ (hheld item hcached), ← hall _ (hsub hd)]
    exact hd

end Serves
end

namespace DeviceSession
variable {uid : Bytes} {flag : UInt64} {s s' : DeviceSession} {d x old : Device} {m : DeviceMove} {tokenHash : Bytes → Bytes}

structure Served (flag : UInt64) (s : DeviceSession) (x : Device) : Prop where
  deviceFlag : x.deviceFlag = flag
  mem : some x.credentials ∈ s.history.values
  held : Held flag s.db.cache s.history.values x.uid

/-- What a query has found is worth an answer as long as the version stays. -/
def Tracks (flag : UInt64) (s : DeviceSession) (q : Nat) : Query → Prop
  | .idle => True
  | .looking => s.history.Covers q
  | .missed version => s.history.Covers q ∧ version ≤ s.loadVersion
  | .found version id => s.history.Covers q ∧ version ≤ s.loadVersion ∧
      (version = s.loadVersion → ∃ x, s.db.shard.getDeviceById id = some x ∧ Served flag s x)
  | .loaded version device => s.history.Covers q ∧ version ≤ s.loadVersion ∧
      (version = s.loadVersion → match device with
        | none => none ∈ s.history.values
        | some x => Served flag s x)

structure Advances (flag : UInt64) (s s' : DeviceSession) : Prop where
  covers : ∀ q, s.history.Covers q → s'.history.Covers q
  version : s.loadVersion ≤ s'.loadVersion
  missing : s'.loadVersion = s.loadVersion → none ∈ s.history.values → none ∈ s'.history.values
  served : s'.loadVersion = s.loadVersion → ∀ x, Served flag s x → Served flag s' x
  rows : s'.loadVersion = s.loadVersion → ∀ id x, s.db.shard.getDeviceById id = some x →
    Served flag s x → ∃ x', s'.db.shard.getDeviceById id = some x' ∧ Served flag s' x'

theorem Advances.tracks (h : Advances flag s s') {q : Nat} {phase : Query}
    (ht : Tracks flag s q phase) : Tracks flag s' q phase := by
  have hsame {version : Nat} (hle : version ≤ s.loadVersion) (heq : version = s'.loadVersion) :
      version = s.loadVersion ∧ s'.loadVersion = s.loadVersion := by
    have := h.version
    omega
  cases phase with
  | idle => trivial
  | looking => exact h.covers q ht
  | missed version => exact ⟨h.covers q ht.1, le_trans ht.2 h.version⟩
  | found version id =>
    obtain ⟨hcovers, hle, hfound⟩ := ht
    refine ⟨h.covers q hcovers, le_trans hle h.version, fun heq => ?_⟩
    obtain ⟨hnow, hstill⟩ := hsame hle heq
    obtain ⟨x, hx, hserved⟩ := hfound hnow
    exact h.rows hstill id x hx hserved
  | loaded version device =>
    obtain ⟨hcovers, hle, hloaded⟩ := ht
    refine ⟨h.covers q hcovers, le_trans hle h.version, fun heq => ?_⟩
    obtain ⟨hnow, hstill⟩ := hsame hle heq
    have hloaded := hloaded hnow
    cases device with
    | none => exact h.missing hstill hloaded
    | some x => exact h.served hstill x hloaded

theorem advances_fill
    (hrows : ∀ id, s'.db.shard.getDeviceById id = s.db.shard.getDeviceById id ∨
      ∃ x, s'.db.shard.getDeviceById id = some x ∧ Served flag s' x)
    (hf : Fills flag s.history.values s.db.cache s'.db.cache) (hv : s.loadVersion ≤ s'.loadVersion)
    (hvalues : s.history.values ⊆ s'.history.values)
    (hcovers : ∀ q, s.history.Covers q → s'.history.Covers q) : Advances flag s s' := by
  have hserved (x : Device) (hx : Served flag s x) : Served flag s' x :=
    ⟨hx.deviceFlag, hvalues hx.mem, (hx.held.fill hf).mono hvalues⟩
  refine ⟨hcovers, hv, fun _ hnone => hvalues hnone, fun _ => hserved, fun _ id x hx hs => ?_⟩
  rcases hrows id with hrow | hrow
  · exact ⟨x, hrow.trans hx, hserved x hs⟩
  · exact hrow

theorem fills_refl (flag : UInt64) (values : List (Option Credentials)) (cache : Bytes × UInt64 → Option DeviceItem) :
    Fills flag values cache cache := fun _ item hitem => .inr ⟨item, hitem, rfl⟩

section

structure Fitting (uid : Bytes) (flag : UInt64) (d old : Device) : Prop where
  uid : d.uid = uid
  deviceFlag : d.deviceFlag = flag
  id : d.id ≠ 0
  old : isEmptyDevice old = false → old.id = d.id

/-- The database as it is but for the index entry that an update has deleted. -/
structure Based (uid : Bytes) (flag : UInt64) (t : DeviceShard) (s : DeviceSession) : Prop where
  serves : Serves uid flag t s.db.cache s.history
  still : (∀ w, (s.update w).gap = none) → s.db.shard = t
  gone : ∀ w d old, (s.update w).gap = some (d, old) → s.db.shard = t.unindex old ∧
    t.Leads uid flag d ∧ ∀ w', w' ≠ w → (s.update w').gap = none

structure Coherent (uid : Bytes) (flag : UInt64) (s : DeviceSession) : Prop where
  based : ∃ t, Based uid flag t s
  linked : s.history.Linked Supersedes
  planned : ∀ w d old, (s.update w).planned = some (d, old) → Fitting uid flag d old
  pending : ∀ e ∈ s.history.pending, ∃ d, (s.update e.1).stored = some d ∧
    e.2 = some d.credentials ∧ d.uid = uid ∧ d.deviceFlag = flag
  nodup : (s.history.pending.map Prod.fst).Nodup
  queries : ∀ q, Tracks flag s q (s.query q)

theorem Based.cases (h : Based uid flag t s) :
    s.db.shard = t ∨ ∃ w d old, (s.update w).gap = some (d, old) ∧ s.db.shard = t.unindex old := by
  by_cases hstill : ∀ w, (s.update w).gap = none
  · exact .inl (h.still hstill)
  · obtain ⟨w, hw⟩ := not_forall.mp hstill
    obtain ⟨⟨d, old⟩, hgap⟩ := ne_none_iff_exists'.mp hw
    exact .inr ⟨w, d, old, hgap, (h.gone w d old hgap).1⟩

theorem Based.getDeviceById (h : Based uid flag t s) (id : UInt64) : s.db.shard.getDeviceById id = t.getDeviceById id := by
  rcases h.cases with hshard | ⟨w, d, old, -, hshard⟩
  · rw [hshard]
  · rw [hshard, DeviceShard.getDeviceById_unindex]

namespace Coherent

section
variable (h : Coherent uid flag s) {q w version : Nat} {phase : Update}
include h

theorem fill {db : DeviceDB} (hshard : db.shard = s.db.shard)
    (hf : Fills flag s.history.values s.db.cache db.cache) (hv : s.loadVersion ≤ version) :
    Coherent uid flag { s with db := db, loadVersion := version } := by
  obtain ⟨t, hserves, hstill, hgone⟩ := h.based
  have hadvances : Advances flag s { s with db := db, loadVersion := version } :=
    advances_fill (fun id => .inl (by rw [← hshard])) hf hv (Subset.refl _) fun _ => id
  refine { h with based := ⟨t, hserves.fill hf, fun hs => hshard.trans (hstill hs), fun w d old hw => ?_⟩, queries := fun q => hadvances.tracks (h.queries q) }
  obtain ⟨heq, hrest⟩ := hgone w d old hw
  exact ⟨hshard.trans heq, hrest⟩

theorem proceed (q : Nat) {phase : Query} (hp : Tracks flag s q phase) : Coherent uid flag (s.proceed q phase) := by
  obtain ⟨t, hbased⟩ := h.based
  refine { h with based := ⟨t, hbased.serves, hbased.still, hbased.gone⟩, queries := ?_ }
  apply (forall_update_iff s.query fun q' => Tracks flag (s.proceed q phase) q').mpr
  have hsame : Advances flag s (s.proceed q phase) :=
    advances_fill (fun _ => .inl rfl) (fills_refl flag _ _) (le_refl _) (Subset.refl _) fun _ => id
  exact ⟨hsame.tracks hp, fun q' _ => hsame.tracks (h.queries q')⟩

theorem enter (q : Nat) : Coherent uid flag { s.proceed q .looking with history := s.history.enter q } := by
  obtain ⟨t, hserves, hstill, hgone⟩ := h.based
  have hentered : Coherent uid flag { s with history := s.history.enter q } := by
    refine ⟨⟨t, { hserves with }, hstill, hgone⟩, h.linked, h.planned, h.pending,
      h.nodup, fun q' => Advances.tracks ?_ (h.queries q')⟩
    exact advances_fill (fun _ => .inl rfl) (fills_refl flag _ _) (le_refl _) (Subset.refl _) fun _ hc => hc.enter q
  exact hentered.proceed q covers_enter

/-- What a query selects is worth an answer, if the row in front can be seen. -/
theorem scan (hsees : ∀ w d old, (s.update w).gap = some (d, old) → isEmptyDevice old = false →
    ¬ s.db.shard.Hides uid flag old) :
    (s.db.shard.getDeviceId uid flag = 0 ∧ none ∈ s.history.values) ∨
      s.db.shard.getDeviceId uid flag ≠ 0 ∧
        ∃ x, s.db.shard.getDeviceById (s.db.shard.getDeviceId uid flag) = some x ∧ Served flag s x := by
  obtain ⟨t, hbased⟩ := h.based
  have hid : s.db.shard.getDeviceId uid flag = t.getDeviceId uid flag := by
    rcases hbased.cases with hshard | ⟨w, d, old, hgap, hshard⟩
    · rw [hshard]
    · rw [hshard]
      exact DeviceShard.getDeviceId_unindex hbased.serves.indexed (hshard ▸ hsees w d old hgap)
  have hcurrent := hbased.serves.current
  rcases hbased.serves.indexed.getDevice_spec flag with ⟨hnone, hzero, -⟩ | ⟨x, -, hxid, hchosen⟩
  · rw [hnone, map_none] at hcurrent
    exact .inl ⟨hid.trans hzero, hcurrent ▸ current_mem⟩
  · obtain ⟨hrow, hne, -⟩ := hchosen.row hbased.serves.indexed
    obtain ⟨-, -, -, -, hflag⟩ := hchosen.mem
    rw [hid, hxid, hbased.getDeviceById]
    exact .inr ⟨hne, x, hrow, hflag, hbased.serves.mem_values hchosen, hbased.serves.held hchosen⟩

theorem planned_update (hplan : ∀ d old, phase.planned = some (d, old) → Fitting uid flag d old) :
    ∀ w' d old, (Function.update s.update w phase w').planned = some (d, old) → Fitting uid flag d old :=
  (forall_update_iff s.update fun _ p => ∀ d old, p.planned = some (d, old) → Fitting uid flag d old).mpr
    ⟨hplan, fun w' _ => h.planned w'⟩

theorem ne_of_stored (hw : (s.update w).stored = none) {e : Nat × Option Credentials}
    (he : e ∈ s.history.pending) : e.1 ≠ w := by
  rintro rfl
  obtain ⟨d, hd, -⟩ := h.pending e he
  cases hw.symm.trans hd

theorem stored_advance {e : Nat × Option Credentials} (he : e ∈ s.history.pending) (hne : e.1 ≠ w) :
    ∃ d, (Function.update s.update w phase e.1).stored = some d ∧ e.2 = some d.credentials ∧
      d.uid = uid ∧ d.deviceFlag = flag := by
  rw [update_of_ne hne]
  exact h.pending e he

theorem advance (hgap : phase.gap = (s.update w).gap) (hstored : phase.stored = (s.update w).stored)
    (hplan : ∀ d old, phase.planned = some (d, old) → Fitting uid flag d old) :
    Coherent uid flag (s.advance w phase) := by
  obtain ⟨t, hserves, hstill, hgone⟩ := h.based
  have hgaps (w' : Nat) : ((s.advance w phase).update w').gap = (s.update w').gap := by
    apply (forall_update_iff s.update fun w' p => p.gap = (s.update w').gap).mpr ⟨hgap, fun _ _ => rfl⟩
  have hstoreds (w' : Nat) : ((s.advance w phase).update w').stored = (s.update w').stored := by
    apply (forall_update_iff s.update fun w' p => p.stored = (s.update w').stored).mpr ⟨hstored, fun _ _ => rfl⟩
  have hadvances : Advances flag s (s.advance w phase) :=
    advances_fill (fun _ => .inl rfl) (fills_refl flag _ _) (le_refl _) (Subset.refl _) fun _ => id
  refine ⟨⟨t, hserves, fun hs => hstill fun w' => hgaps w' ▸ hs w', fun w' d old hw' => ?_⟩,
    h.linked, ?_, fun e he => ?_, h.nodup,
    fun q => hadvances.tracks (h.queries q)⟩
  · obtain ⟨hshard, hleads, hothers⟩ := hgone w' d old (hgaps w' ▸ hw')
    exact ⟨hshard, hleads, fun w'' hne => (hgaps w'').trans (hothers w'' hne)⟩
  · exact h.planned_update hplan
  · obtain ⟨d, hd, hrest⟩ := h.pending e he
    exact ⟨d, (hstoreds e.1).trans hd, hrest⟩

theorem unindex (hw : s.update w = .checked d old) (halone : ∀ w', (s.update w').gap = none)
    (hleads : s.db.shard.Leads uid flag d) :
    Coherent uid flag { s.advance w (.unindexed d old) with db := { s.db with shard := s.db.shard.unindex old } } := by
  obtain ⟨t, hserves, hstill, -⟩ := h.based
  obtain rfl := hstill halone
  have hadvances : Advances flag s { s.advance w (.unindexed d old) with db := { s.db with shard := s.db.shard.unindex old } } :=
    advances_fill (fun id => .inl (DeviceShard.getDeviceById_unindex s.db.shard old id))
      (fills_refl flag _ _) (le_refl _) (Subset.refl _) fun _ => id
  have hothers (w' : Nat) (hne : w' ≠ w) : (Function.update s.update w (.unindexed d old) w').gap = none := by
    rw [update_of_ne hne]
    exact halone w'
  refine ⟨⟨s.db.shard, hserves, fun hs => ?_, fun w' d' old' hw' => ?_⟩, h.linked, ?_,
    fun e he => ?_, h.nodup, fun q => hadvances.tracks (h.queries q)⟩
  · have hgap : (Function.update s.update w (.unindexed d old) w).gap = none := hs w
    rw [update_self] at hgap
    cases hgap
  · have hgap : (Function.update s.update w (.unindexed d old) w').gap = some (d', old') := hw'
    by_cases hne : w' = w
    · rw [hne, update_self] at hgap
      cases hgap
      exact ⟨rfl, hleads, fun w'' hne' => hothers w'' (hne ▸ hne')⟩
    · rw [hothers w' hne] at hgap
      cases hgap
  · refine h.planned_update fun d' old' hplan => ?_
    cases hplan
    exact h.planned w d old (by rw [hw]; rfl)
  · exact h.stored_advance he (h.ne_of_stored (by rw [hw]; rfl) he)

/-- What a query has found before the commit may still be heard, and so may what it finds now. -/
theorem commit (huid : uid ≠ []) (hw : s.update w = .unindexed d old) :
    Coherent uid flag { s.advance w (.committed d old) with
      db := { s.db with shard := s.db.shard.writeDevice d }
      history := s.history.commit w (some d.credentials) } := by
  obtain ⟨t, hbased⟩ := h.based
  obtain ⟨hshard, hleads, hothers⟩ := hbased.gone w d old (by rw [hw]; rfl)
  obtain ⟨hu, hflag, h0, hold⟩ := h.planned w d old (by rw [hw]; rfl)
  have hwrote : DeviceShard.Wrote uid d t (s.db.shard.writeDevice d) := by
    rw [hshard]
    subst hu
    exact DeviceShard.wrote_unindex hbased.serves.indexed hold
  obtain ⟨hserves, hsupersedes⟩ := hbased.serves.commit hwrote huid hu hflag h0 hleads w
  have hvalues := values_commit (h := s.history) (w := w) (v := some d.credentials)
  have hadvances : Advances flag s { s.advance w (.committed d old) with
      db := { s.db with shard := s.db.shard.writeDevice d }, history := s.history.commit w (some d.credentials) } := by
    refine advances_fill (fun id => ?_) (fills_refl flag _ _) (le_refl _)
      (hvalues ▸ subset_append_left ..) fun q hc => hc.commit w _
    by_cases hid : id = d.id
    · obtain ⟨times, hrow⟩ := hwrote.getDeviceById_self (hu ▸ huid)
      rw [hid]
      exact .inr ⟨_, hrow, hflag, hvalues ▸ mem_append_right _ (.head []), fun item hitem => hserves.own item (hu ▸ hitem)⟩
    · rw [hbased.getDeviceById]
      exact .inl (hwrote.getDeviceById_of_ne hid)
  have hupdate {w' : Nat} (hne : w' ≠ w) : Function.update s.update w (.committed d old) w' =
    s.update w' := update_of_ne hne ..
  refine ⟨⟨s.db.shard.writeDevice d, hserves, fun _ => rfl, fun w' d' old' hw' => ?_⟩,
    h.linked.commit hsupersedes, ?_, fun e he => ?_, ?_, fun q => hadvances.tracks (h.queries q)⟩
  · have hgap : (Function.update s.update w (.committed d old) w').gap = none := by
      by_cases hne : w' = w
      · rw [hne, update_self]
        rfl
      · rw [hupdate hne]
        exact hothers w' hne
    cases hgap.symm.trans hw'
  · exact h.planned_update nofun
  · rcases mem_append.mp he with he | he
    · exact h.stored_advance he (h.ne_of_stored (by rw [hw]; rfl) he)
    · obtain rfl := mem_singleton.mp he
      have hself : Function.update s.update w (.committed d old) w = .committed d old := update_self ..
      exact ⟨d, congrArg stored hself, rfl, hu, hflag⟩
  · have hfresh : w ∉ s.history.pending.map Prod.fst := by
      intro hmem
      obtain ⟨e, he, heq⟩ := mem_map.mp hmem
      exact h.ne_of_stored (by rw [hw]; rfl) he heq
    have hmap : (s.history.commit w (some d.credentials)).pending.map Prod.fst = s.history.pending.map Prod.fst ++ [w] :=
      map_append
    rw [hmap, ← concat_eq_append]
    exact h.nodup.concat hfresh

/-- The version goes up, so that what is under way looks again. -/
theorem set (hw : s.update w = .invalidated d) (hfirst : s.history.pending.head?.map Prod.fst = some w) :
    Coherent uid flag { ((s.recache (s.db.setDevice d)).bumped).advance w .idle with history := s.history.settle w } := by
  obtain ⟨⟨w', v⟩, hhead, rfl⟩ := map_eq_some_iff.mp hfirst
  obtain ⟨rest, hp⟩ := head?_eq_some_iff.mp hhead
  obtain ⟨d', hd', rfl, hu, hflag⟩ := h.pending (w', v) (hp ▸ .head rest)
  rw [hw] at hd'
  cases hd'
  obtain ⟨t, hbased⟩ := h.based
  have hserves := hbased.serves.settle h.linked hp hu hflag
  have hsettle := settle_first hp
  have hshard : (s.db.setDevice d).shard = s.db.shard := shard_setDevice s.db d
  have hnodup := h.nodup
  rw [hp, map_cons, nodup_cons] at hnodup
  have hupdate {w : Nat} (hne : w ≠ w') : Function.update s.update w' .idle w = s.update w := update_of_ne hne ..
  have hgaps (w : Nat) : (Function.update s.update w' .idle w).gap = (s.update w).gap := by
    by_cases hne : w = w'
    · rw [hne, update_self, hw]
      rfl
    · rw [hupdate hne]
  have hadvances : Advances flag s
      { ((s.recache (s.db.setDevice d)).bumped).advance w' .idle with history := s.history.settle w' } := by
    have hraised : s.loadVersion + 1 ≠ s.loadVersion := Nat.succ_ne_self _
    exact ⟨fun q hc => hc.settle w', Nat.le_succ _, fun heq => absurd heq hraised,
      fun heq => absurd heq hraised, fun heq => absurd heq hraised⟩
  refine ⟨⟨t, hserves, fun hs => ?_, fun w d old hgap => ?_⟩, (h.linked.settle hp).2, ?_,
    fun e he => ?_, ?_, fun q => hadvances.tracks (h.queries q)⟩
  · exact hshard.trans (hbased.still fun w => (hgaps w).symm.trans (hs w))
  · obtain ⟨heq, hleads, hothers⟩ := hbased.gone w d old ((hgaps w).symm.trans hgap)
    exact ⟨hshard.trans heq, hleads, fun w'' hne => (hgaps w'').trans (hothers w'' hne)⟩
  · exact h.planned_update nofun
  · rw [hsettle] at he
    have hmem : e.1 ∈ rest.map Prod.fst := mem_map_of_mem he
    exact h.stored_advance (hp ▸ mem_cons_of_mem _ he) fun heq => hnodup.1 (heq ▸ hmem)
  · rw [hsettle]
    exact hnodup.2

theorem ids (id : UInt64) (x : Device) (hx : s.db.shard.getDeviceById id = some x) : x.id = id := by
  obtain ⟨t, hbased⟩ := h.based
  rw [hbased.getDeviceById] at hx
  exact hbased.serves.indexed.id_eq hx

theorem sweep (hs : DeviceDB.Shrinks s.db.cache cache)
    (hv : s.loadVersion ≤ version) :
    Coherent uid flag { s with db := { s.db with cache }, loadVersion := version } := by
  have hf : Fills flag s.history.values s.db.cache { s.db with cache }.cache := fills_shrinks hs
  exact h.fill (by rfl) hf hv

theorem invalidated (key : Bytes × UInt64) : Coherent uid flag (s.invalidated key) :=
  h.sweep (shrinks_update_none s.db.cache key) (Nat.le_succ _)

private theorem step_lookup (hs : s.step tokenHash uid flag (.lookup q) = some s') : Coherent uid flag s' := by
  simp only [DeviceSession.step] at hs
  have htracks := h.queries q
  split at hs <;> try cases hs
  next hq =>
  rw [hq] at htracks
  rcases getDevice_cases s.db uid flag with ⟨item, -, heq⟩ | ⟨cache, hshrinks, -, heq⟩
  · rw [heq] at hs
    cases hs
    exact h.proceed q trivial
  · rw [heq] at hs
    cases hs
    exact (h.sweep hshrinks (le_refl _)).proceed q ⟨htracks, le_refl _⟩

private theorem step_scan (hm : s.Careful uid flag (.scan q))
    (hs : s.step tokenHash uid flag (.scan q) = some s') : Coherent uid flag s' := by
  simp only [DeviceSession.step] at hs
  have htracks := h.queries q
  split at hs <;> cases hs
  next version hq =>
  rw [hq] at htracks
  rcases h.scan hm with ⟨hzero, hnone⟩ | ⟨hne, hfound⟩
  · rw [if_pos hzero]
    exact h.proceed q ⟨htracks.1, htracks.2, fun _ => hnone⟩
  · rw [if_neg hne]
    exact h.proceed q ⟨htracks.1, htracks.2, fun _ => hfound⟩

private theorem step_read (hs : s.step tokenHash uid flag (.read q) = some s') : Coherent uid flag s' := by
  simp only [DeviceSession.step] at hs
  have htracks := h.queries q
  split at hs <;> cases hs
  next version id hq =>
  rw [hq] at htracks
  obtain ⟨hcovers, hle, hfound⟩ := htracks
  refine h.proceed q ⟨hcovers, hle, fun heq => ?_⟩
  obtain ⟨x, hx, hserved⟩ := hfound heq
  rw [hx]
  exact hserved

private theorem step_publish (hs : s.step tokenHash uid flag (.publish q) = some s') : Coherent uid flag s' := by
  simp only [DeviceSession.step] at hs
  have htracks := h.queries q
  split at hs <;> try cases hs
  next version device hq =>
  rw [hq] at htracks
  obtain ⟨hcovers, hle, hloaded⟩ := htracks
  split at hs
  · cases hs
    exact h.proceed q hcovers
  · next hsame =>
    have hloaded := hloaded (not_not.mp hsame)
    cases device with
    | none =>
      cases hs
      exact h.proceed q trivial
    | some x =>
      cases hs
      exact (h.fill (shard_setDevice s.db x) (fills_setDevice hloaded.mem) (le_refl _)).proceed q trivial

private theorem step_check {expected : Option DeviceTokenCondition}
    (hs : s.step tokenHash uid flag (.check w d expected) = some s') : Coherent uid flag s' := by
  simp only [DeviceSession.step] at hs
  split at hs <;> try cases hs
  next hw =>
  split at hs <;> try cases hs
  next hown =>
  split at hs <;> cases hs
  · exact h
  · next hgo =>
    obtain ⟨hne, hrow⟩ := DeviceShard.updateTarget_row h.ids d (not_or.mp hgo).1
    refine h.advance ?_ ?_ fun d' old' hplan => ?_
    · rw [hw]
      rfl
    · rw [hw]
      rfl
    · cases hplan
      exact ⟨hown.1, hown.2, hne, hrow⟩

private theorem step_invalidate (hs : s.step tokenHash uid flag (.invalidate w) = some s') : Coherent uid flag s' := by
  simp only [DeviceSession.step] at hs
  split at hs <;> cases hs
  next d old hw =>
  split
  · refine (h.invalidated (old.uid, old.deviceFlag)).advance ?_ ?_ nofun
    · exact (congrArg gap hw).symm
    · exact (congrArg stored hw).symm
  · refine h.advance ?_ ?_ nofun
    · exact (congrArg gap hw).symm
    · exact (congrArg stored hw).symm

end

theorem step (h : Coherent uid flag s) (huid : uid ≠ []) (hm : s.Careful uid flag m)
    (hs : s.step tokenHash uid flag m = some s') : Coherent uid flag s' := by
  cases m with
  | enter q =>
    simp only [step] at hs
    split at hs <;> cases hs
    exact h.enter q
  | lookup q => exact h.step_lookup hs
  | scan q => exact h.step_scan hm hs
  | read q => exact h.step_read hs
  | publish q => exact h.step_publish hs
  | check w d expected => exact h.step_check hs
  | unindex w =>
    simp only [step] at hs
    split at hs <;> cases hs
    next d old hw => exact h.unindex hw hm.1 (hm.2 d old hw)
  | commit w =>
    simp only [step] at hs
    split at hs <;> cases hs
    next d old hw => exact h.commit huid hw
  | invalidate w => exact h.step_invalidate hs
  | set w =>
    simp only [step] at hs
    split at hs <;> cases hs
    next d hw => exact h.set hw hm
  | invalidateDevice key =>
    cases hs
    exact h.invalidated key
  | evict key =>
    cases hs
    exact h.sweep (shrinks_update_none s.db.cache key) (le_refl _)
  | expire key =>
    cases hs
    exact h.sweep (shrinks_expire s.db.cache key) (le_refl _)
  | bump =>
    cases hs
    exact h.fill rfl (fills_refl flag _ _) (Nat.le_succ _)

end Coherent
end
theorem Start.coherent (h : Start uid flag s) : Coherent uid flag s := by
  have hvalues : s.history.values = [s.history.settled] := by rw [values, h.pending]; rfl
  have hcurrent : s.history.current = s.history.settled := by simp only [current, hvalues, getLast_singleton]
  have hheld (u : Bytes) (hu : hashWithString u = hashWithString uid) : Held flag s.db.cache s.history.values u := by
    intro item hitem
    rw [h.cached u item hu hitem, hvalues]
    exact .head []
  refine ⟨⟨s.db.shard, ⟨h.indexed, h.settled.symm.trans hcurrent.symm, hheld uid rfl, fun x hx _ => ?_⟩, fun _ => rfl,
    fun w d old hw => ?_⟩, ?_, fun w d old hw => ?_, ?_, ?_, fun q => ?_⟩
  · obtain ⟨id, hmem, -, hrow, -⟩ := hx.mem
    obtain ⟨-, x', hrow', hhash⟩ := h.indexed.rows id hmem
    cases hrow.symm.trans hrow'
    refine ⟨fun c hc => ?_, hheld x.uid hhash⟩
    rw [hvalues, mem_singleton] at hc
    rw [hc, h.settled, h.indexed.getDevice_eq_some.mpr hx]
    rfl
  · rw [h.update] at hw
    cases hw
  · rw [Linked, hvalues]
    exact .singleton _
  · rw [h.update] at hw
    cases hw
  · rw [h.pending]
    exact forall_mem_nil _
  · rw [h.pending]
    exact .nil
  · rw [h.query]
    trivial

theorem Coherent.answer_mem (h : Coherent uid flag s) {heard : List (Option Credentials)}
    {c : Option Credentials} (ha : s.answer uid flag m = some (heard, c)) : c ∈ heard := by
  obtain ⟨t, hbased⟩ := h.based
  cases m with
  | lookup q =>
    have htracks := h.queries q
    simp only [answer] at ha
    split at ha
    · next hq =>
      rw [hq] at htracks
      rcases getDevice_cases s.db uid flag with ⟨item, hitem, heq⟩ | ⟨cache, -, -, heq⟩
      · rw [heq] at ha
        cases ha
        exact htracks (hbased.serves.own item hitem)
      · rw [heq] at ha
        cases ha
    · cases ha
  | publish q =>
    have htracks := h.queries q
    simp only [answer] at ha
    split at ha
    · next version device hq =>
      rw [hq] at htracks
      obtain ⟨hcovers, -, hloaded⟩ := htracks
      split at ha
      · cases ha
      rename_i hsame
      have hloaded := hloaded (not_not.mp hsame)
      cases ha
      cases device with
      | none => exact hcovers hloaded
      | some x => exact hcovers (Serves.setDeviceLocked_mem hloaded.deviceFlag hloaded.mem hloaded.held)
    · cases ha
  | enter q | scan q | read q | check w d expected | unindex w | commit w | invalidate w | set w | invalidateDevice key | evict key
  | expire key | bump => cases ha

/-- When no update is under way a query alone hears what the last one returned with. -/
theorem Coherent.getDevice_eq (h : Coherent uid flag s) (hidle : ∀ w, s.update w = .idle)
    (hs : DeviceDB.Shrinks s.db.cache cache) :
    ({ s.db with cache }.getDevice uid flag).1.map Device.credentials = s.history.settled := by
  obtain ⟨t, hbased⟩ := h.based
  have hshard : s.db.shard = t := hbased.still fun w => by rw [hidle]; rfl
  have hpending : s.history.pending = [] := by
    apply eq_nil_iff_forall_not_mem.mpr
    intro e he
    obtain ⟨d, hd, -⟩ := h.pending e he
    rw [hidle] at hd
    cases hd
  have hserves : Serves uid flag { s.db with cache }.shard { s.db with cache }.cache s.history := by
    rw [hshard]
    exact hbased.serves.fill (fills_shrinks hs)
  have hmem := hserves.getDevice_mem
  rw [values, hpending] at hmem
  exact mem_singleton.mp hmem

/-- A query hears what the last update to return before it began has stored, or what was committed
and not returned with by then, or later; and while no update is under way it makes no difference
whether the cache has an entry. -/
theorem device_queries_right (huid : uid ≠ [])
    (h : Reach (Start uid flag) (DeviceSession.step tokenHash uid flag) (DeviceSession.Careful uid flag) s) :
    (∀ m heard c, s.answer uid flag m = some (heard, c) → c ∈ heard) ∧
    ((∀ w, s.update w = .idle) →
      (s.db.getDevice uid flag).1.map Device.credentials = s.history.settled ∧
      ((s.db.invalidateDevice uid flag).getDevice uid flag).1.map Device.credentials = s.history.settled) := by
  have hcoherent : Coherent uid flag s :=
    h.invariant (Coherent uid flag) (fun _ => Start.coherent) fun s m s' hs hm hstep => hs.step huid hm hstep
  refine ⟨fun m heard c ha => hcoherent.answer_mem ha, fun hidle => ⟨?_, ?_⟩⟩
  · exact hcoherent.getDevice_eq hidle fun k item hitem => ⟨item, hitem, rfl⟩
  · exact hcoherent.getDevice_eq hidle (shrinks_update_none s.db.cache (uid, flag))

private theorem start_empty : Start [117] 1 {} :=
  ⟨⟨.nil, nofun, nofun, nofun⟩, rfl, nofun, fun _ => rfl, fun _ => rfl, rfl⟩

private def handset (id : UInt64) (c : Credentials) : Device :=
  { id, uid := [117], token := c.token, tokenVersion := c.tokenVersion, deviceFlag := 1, deviceLevel := c.deviceLevel }

private def updating (w : Nat) (d : Device) : List DeviceMove :=
  [.check w d none, .unindex w, .commit w, .invalidate w, .set w]

/-- A query that begins after the first update has returned. -/
theorem device_queries_right_after : ∃ s heard c,
    Reach (Start [117] 1) (DeviceSession.step (fun b => b) [117] 1) (DeviceSession.Careful [117] 1) s ∧
    s.answer [117] 1 (.lookup 0) = some (heard, c) ∧ c = some ⟨[65], 1, 0⟩ ∧ c ∈ heard := by
  have hstart : Reach (Start [117] 1) (DeviceSession.step (fun b => b) [117] 1) (DeviceSession.Careful [117] 1) {} := .init start_empty
  have hchecked := hstart.step
    (a := check 0 (handset 1 ⟨[65], 1, 0⟩) none) trivial rfl
  have hunindexed := hchecked.step (a := unindex 0)
    ⟨fun w => by cases w <;> rfl, fun d old hd => by
      cases hd
      exact ⟨fun x hx => absurd hx.mem nofun, nofun⟩⟩ rfl
  have hcommitted := hunindexed.step (a := commit 0) trivial rfl
  have hset := (hcommitted.step (a := invalidate 0) trivial rfl).step (a := set 0) rfl rfl
  have hentered := hset.step (a := enter 0) trivial rfl
  exact ⟨_, _, _, hentered, rfl, rfl, (device_queries_right (by decide) hentered).1 (.lookup 0) _ _ rfl⟩

/-- Without any of the conditions: a second row of version 0 hides behind the first; a query selects
while the entry of the row is gone; an update writes on a check that no longer holds; and an update
that was overtaken returns last. -/
theorem device_queries_right_fails :
    let Runs (s : DeviceSession) := Reach (Start [117] 1) (DeviceSession.step (fun b => b) [117] 1) (fun _ _ => True) s
    (∃ s, Runs s ∧ s.answer [117] 1 (.publish 0) = some ([some ⟨[66], 0, 0⟩], some ⟨[65], 0, 0⟩)) ∧
    (∃ s, Runs s ∧ s.answer [117] 1 (.publish 0) = some ([some ⟨[65], 1, 0⟩], none)) ∧
    (∃ s, Runs s ∧ s.answer [117] 1 (.lookup 0) = some ([some ⟨[65], 5, 0⟩], some ⟨[66], 6, 0⟩)) ∧
    ∃ s, Runs s ∧ (s.update 0 = .idle ∧ s.update 1 = .idle) ∧
      (s.db.getDevice [117] 1).1.map Device.credentials = some ⟨[65], 5, 0⟩ ∧
      ((s.db.invalidateDevice [117] 1).getDevice [117] 1).1.map Device.credentials = some ⟨[66], 6, 0⟩ := by
  have hstart : Reach (Start [117] 1) (DeviceSession.step (fun b => b) [117] 1) (fun _ _ => True) {} := .init start_empty
  refine ⟨hstart.exists_of_run (updating 0 (handset 1 ⟨[65], 0, 0⟩) ++ updating 1 (handset 2 ⟨[66], 0, 0⟩) ++
      [.evict ([117], 1), .enter 0, .lookup 0, .scan 0, .read 0]) _ (by decide +kernel),
    hstart.exists_of_run (updating 0 (handset 1 ⟨[65], 1, 0⟩) ++ [.evict ([117], 1), .check 1 (handset 1 ⟨[66], 2, 0⟩) none, .unindex 1, .enter 0,
      .lookup 0, .scan 0]) _ (by decide +kernel),
    hstart.exists_of_run ([.check 0 (handset 1 ⟨[66], 6, 0⟩) none, .check 1 (handset 1 ⟨[65], 5, 0⟩) none, .unindex 0, .commit 0, .invalidate 0, .set 0,
      .unindex 1, .commit 1, .invalidate 1, .set 1, .enter 0]) _ (by decide +kernel),
    hstart.exists_of_run ([.check 0 (handset 1 ⟨[65], 5, 0⟩) none, .unindex 0, .commit 0] ++ updating 1 (handset 1 ⟨[66], 6, 0⟩) ++
      [.invalidate 0, .evict ([117], 1), .set 0]) _ (by decide +kernel)⟩

end DeviceSession
end WuKongIM.WKDB

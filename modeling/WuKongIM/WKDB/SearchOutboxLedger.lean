import WuKongIM.Lib.Outcome
import WuKongIM.Lib.Run
import WuKongIM.WKDB.SearchOutbox

/-! The ledger of the search outbox. -/
namespace WuKongIM.WKDB
open Lib Function Table

/-- A task of the outbox. What its rows could say besides cannot be said here: a record is queued in
an active task only, and the epoch of a quarantined task is that of its row. -/
inductive Task where
  | active (epoch : UInt64) (queued : Option Bytes)
  | quarantined (record : SearchOutboxQuarantineRecord)
  | acknowledged (epoch : UInt64)

namespace Task

def state : Task → SearchOutboxState
  | active epoch _ => ⟨epoch, .active⟩
  | quarantined record => ⟨record.epoch, .quarantined⟩
  | acknowledged epoch => ⟨epoch, .acknowledged⟩

def queued : Task → Option Bytes
  | active _ queued => queued
  | quarantined _ => none
  | acknowledged _ => none

def record : Task → Option SearchOutboxQuarantineRecord
  | active _ _ => none
  | quarantined record => some record
  | acknowledged _ => none

/-- One step of a task. Only a restoration opens a new epoch. -/
inductive Step (restoring : Prop) : Task → Task → Prop
  | keep (t : Task) : Step restoring t t
  | enqueue (epoch : UInt64) (old : Option Bytes) (value : Bytes) :
      Step restoring (active epoch old) (active epoch (some value))
  | drop (epoch : UInt64) (old : Option Bytes) : Step restoring (active epoch old) (active epoch none)
  | acknowledge (epoch : UInt64) (value : Bytes) : Step restoring (active epoch (some value)) (acknowledged epoch)
  | quarantine (record : SearchOutboxQuarantineRecord) :
      Step restoring (active record.epoch (some record.rawValue)) (quarantined record)
  | restore (record : SearchOutboxQuarantineRecord) (h : restoring) (hmax : record.epoch ≠ maxUint64) :
      Step restoring (quarantined record) (active (record.epoch + 1) (some record.rawValue))

variable {restoring : Prop} {t t' : Task}

theorem toNat_add_one {epoch : UInt64} (h : epoch ≠ maxUint64) : (epoch + 1).toNat = epoch.toNat + 1 := by
  have hlt := epoch.toNat_lt
  have hne : epoch.toNat ≠ maxUint64.toNat := fun heq => h (UInt64.toNat_inj.mp heq)
  have hmax : maxUint64.toNat = 2 ^ 64 - 1 := rfl
  change (epoch.toNat + 1) % 2 ^ 64 = _
  omega

section
variable (h : Step restoring t t')
include h

theorem Step.state_of_acknowledged (ht : t.state.status = .acknowledged) : t'.state = t.state := by
  cases h <;> first | rfl | cases ht

theorem Step.epoch : t'.state.epoch = t.state.epoch ∨
    restoring ∧ t'.state.epoch.toNat = t.state.epoch.toNat + 1 ∧ t.state.status = .quarantined ∧
      t'.state.status = .active := by
  cases h with
  | restore record h hmax => exact .inr ⟨h, toNat_add_one hmax, rfl, rfl⟩
  | _ => exact .inl rfl

theorem Step.epoch_le : t.state.epoch ≤ t'.state.epoch := by
  rcases h.epoch with h | ⟨-, h, -⟩
  · rw [h]
    exact UInt64.le_refl _
  · rw [UInt64.le_iff_toNat_le, h]
    exact Nat.le_succ _

end

theorem Step.mono {restoring' : Prop} (hr : restoring → restoring') (h : Step restoring t t') : Step restoring' t t' := by
  cases h with
  | keep => exact .keep t
  | enqueue => exact .enqueue ..
  | drop => exact .drop ..
  | acknowledge => exact .acknowledge ..
  | quarantine => exact .quarantine _
  | restore record h hmax => exact .restore record (hr h) hmax

end Task

variable {state : SearchOutboxState}

theorem SearchOutboxState.unmarshal_marshal (h : state.epoch ≠ 0) :
    unmarshal state.marshal = some state := by
  rw [marshal, unmarshal, ofBigEndian_uint64, if_neg (by simpa using h)]
  obtain ⟨epoch, status⟩ := state
  cases status <;> rfl

variable {value : Bytes} {c : Channel} {seq : UInt64} {msgs : List Message} {p : Bytes → Prop} {i : Nat} {frames : Frames}

theorem SearchOutboxState.epoch_of_unmarshal (h : unmarshal value = some state) :
    state.epoch ≠ 0 := by
  cases value with
  | nil => cases h
  | cons version rest =>
    cases rest with
    | nil => cases h
    | cons status epoch =>
      rw [unmarshal] at h
      split at h
      · cases h
      rename_i hne
      obtain ⟨_, -, rfl⟩ := Option.map_eq_some_iff.mp h
      exact fun h0 => hne (.inr (.inr h0))

namespace OutboxShard
variable {s s' batch : OutboxShard} {k k' : Bytes} {state : SearchOutboxState} {found : Bool}

theorem epoch_of_load (h : s.loadSearchOutboxState k = .ok (state, found)) : state.epoch ≠ 0 := by
  rw [loadSearchOutboxState] at h
  split at h
  · cases h
    exact ne_of_beq_false rfl
  split at h
  · cases h
  rename_i hload
  cases h
  exact SearchOutboxState.epoch_of_unmarshal hload

theorem load_congr (h : s'.states k = s.states k) : s'.loadSearchOutboxState k = s.loadSearchOutboxState k := by
  rw [loadSearchOutboxState, loadSearchOutboxState, h]

theorem load_of_unmarshal (hvalue : s.states k = some value)
    (hstate : SearchOutboxState.unmarshal value = some state) : s.loadSearchOutboxState k = .ok (state, true) := by
  rw [loadSearchOutboxState, hvalue]
  dsimp only
  rw [hstate]

theorem load_setState_self (h : state.epoch ≠ 0) : (s.setState k state).loadSearchOutboxState k = .ok (state, true) :=
  load_of_unmarshal (update_self ..) (SearchOutboxState.unmarshal_marshal h)

structure Shows (s : OutboxShard) (k : Bytes) (t : Task) : Prop where
  state : ∃ found, s.loadSearchOutboxState k = .ok (t.state, found)
  queued : s.queued.get k = t.queued
  quarantine : s.quarantine.get k = t.record

/-- Each task takes one step, or stays. Those restored are among the ones named. -/
def Moves (restoring : Bytes → Prop) (s s' : OutboxShard) : Prop :=
  ∀ k t, s.Shows k t → ∃ t', s'.Shows k t' ∧ Task.Step (restoring k) t t'

variable {t : Task}

structure SameRows (s s' : OutboxShard) (k : Bytes) : Prop where
  states : s'.states k = s.states k
  queued : s'.queued.get k = s.queued.get k
  quarantine : s'.quarantine.get k = s.quarantine.get k

theorem Shows.congr (h : s.Shows k t) (hs : SameRows s s' k) : s'.Shows k t where
  state := by
    rw [load_congr hs.states]
    exact h.state
  queued := hs.queued.trans h.queued
  quarantine := hs.quarantine.trans h.quarantine

theorem Moves.refl (p : Bytes → Prop) (s : OutboxShard) : Moves p s s := fun _ t h => ⟨t, h, .keep t⟩

theorem Moves.write (h : Moves p s batch) (hk : ∀ t, s.Shows k t → ∃ t', s'.Shows k t' ∧ Task.Step (p k) t t')
    (hother : ∀ k', k' ≠ k → SameRows batch s' k') : Moves p s s' := by
  intro k' t ht
  by_cases heq : k' = k
  · subst heq
    exact hk t ht
  · obtain ⟨t', ht', hstep⟩ := h k' t ht
    exact ⟨t', ht'.congr (hother k' heq), hstep⟩

section
variable (h : s.Shows k t) (hload : s.loadSearchOutboxState k = .ok (state, found))
include h hload

theorem Shows.state_eq : t.state = state := by
  obtain ⟨found', hstate⟩ := h.state
  rw [hload] at hstate
  cases hstate
  rfl

theorem Shows.eq_active (hstatus : state.status = .active) : t = .active state.epoch (s.queued.get k) := by
  have hstate := h.state_eq hload
  subst hstate
  cases t with
  | active epoch queued => rw [h.queued]; rfl
  | quarantined record | acknowledged epoch => cases hstatus

theorem Shows.eq_quarantined (hstatus : state.status = .quarantined) :
    ∃ record, t = .quarantined record ∧ record.epoch = state.epoch := by
  have hstate := h.state_eq hload
  subst hstate
  cases t with
  | active epoch queued | acknowledged epoch => cases hstatus
  | quarantined record => exact ⟨record, rfl, rfl⟩

end

variable {now : Int64} {task : SearchOutboxTask} {reason : QuarantineReason} {expected : Bytes}

theorem quarantineRaw_moves
    (hload : s.loadSearchOutboxState k = .ok (state, found)) (hqueued : s.queued.get k = some value)
    (h : s.quarantineSearchOutboxRawLocked i k value state reason now = .ok s') : Moves p s s' := by
  rw [quarantineSearchOutboxRawLocked] at h
  split at h
  · cases h
  rename_i hactive
  rw [not_not] at hactive
  cases h
  refine (Moves.refl _ s).write (k := k) ?_ ?_
  · intro t ht
    obtain rfl := ht.eq_active hload hactive
    rw [hqueued]
    let row : SearchOutboxQuarantineRecord := ⟨i, (parseSearchOutboxKey k).toOption, k, value, state.epoch, some reason, now⟩
    refine ⟨.quarantined row, ⟨⟨true, ?_⟩, ?_, ?_⟩, Task.Step.quarantine row⟩
    · have hepoch := epoch_of_load hload
      exact @load_setState_self s k { state with status := .quarantined } hepoch
    · exact (get_erase ..).trans (if_pos rfl)
    · exact (get_set ..).trans (if_pos rfl)
  · intro k' hne
    exact ⟨update_of_ne hne .., (get_erase ..).trans (if_neg hne), (get_set ..).trans (if_neg hne)⟩

theorem quarantine_moves {reason : Option QuarantineReason}
    (h : s.quarantineSearchOutbox i task reason now = .ok s') : Moves p s s' := by
  cases reason with
  | none => cases h
  | some reason =>
  obtain ⟨k, -, h⟩ := bind_eq_ok.mp h
  obtain ⟨⟨state, found⟩, hload, h⟩ := bind_eq_ok.mp h
  dsimp only at h
  split at h
  · cases h
  split at h
  · obtain ⟨-, -, h⟩ := bind_eq_ok.mp h
    cases h
    exact .refl p s
  split at h
  · cases h
  split at h
  · cases h
  · rename_i hqueued
    exact quarantineRaw_moves hload hqueued h

theorem candidate_moves {removed : Bool}
    (h : s.quarantineSearchOutboxCandidate i k expected reason now = .ok (removed, s')) : Moves p s s' := by
  rw [quarantineSearchOutboxCandidate] at h
  split at h
  · cases h
    exact .refl p s
  split at h
  · cases h
    exact .refl p s
  rename_i hqueued _
  obtain ⟨⟨state, found⟩, hload, h⟩ := bind_eq_ok.mp h
  obtain ⟨s₁, hraw, h⟩ := bind_eq_ok.mp h
  cases h
  exact quarantineRaw_moves hload hqueued hraw

theorem pin_moves {epoch : Option UInt64}
    (h : s.pinSearchOutboxRecord k expected = .ok (epoch, s')) : Moves p s s' := by
  rw [pinSearchOutboxRecord] at h
  split at h
  · cases h
    exact .refl p s
  split at h
  · cases h
    exact .refl p s
  obtain ⟨⟨state, found⟩, hload, h⟩ := bind_eq_ok.mp h
  dsimp only at h
  split at h
  · cases h
  cases found with
  | true =>
    cases h
    exact .refl p s
  | false =>
    cases h
    refine (Moves.refl _ s).write (k := k) ?_ ?_
    · intro t ht
      obtain rfl := ht.state_eq hload
      exact ⟨t, ⟨⟨true, load_setState_self (epoch_of_load hload)⟩, ht.queued, ht.quarantine⟩, .keep t⟩
    · intro k' hne
      exact ⟨update_of_ne hne .., rfl, rfl⟩

theorem restore_moves {loadMsg : Except DBError Message} {epoch : UInt64}
    (h : s.restoreSearchOutbox frames i loadMsg task = .ok (epoch, s')) : Moves (fun k => task.key = .ok k) s s' := by
  obtain ⟨k, hkey, h⟩ := bind_eq_ok.mp h
  obtain ⟨⟨state, found⟩, hload, h⟩ := bind_eq_ok.mp h
  dsimp only at h
  split at h
  · cases h
    exact .refl _ s
  split at h
  · cases h
  split at h
  · cases h
  rename_i hstate
  obtain ⟨-, hquarantined, hmax⟩ := not_or.mp hstate |>.imp_right not_or.mp
  rw [not_not] at hquarantined
  obtain ⟨record, hrecord, h⟩ := bind_eq_ok.mp h
  split at h
  · cases h
  split at h
  · cases h
  obtain ⟨current, -, h⟩ := bind_eq_ok.mp h
  split at h
  · cases h
  split at h
  · cases h
  cases h
  refine (Moves.refl _ s).write (k := k) ?_ ?_
  · intro t ht
    obtain ⟨row, rfl, hepoch⟩ := ht.eq_quarantined hload hquarantined
    have hrow : s.quarantine.get k = some row := ht.quarantine
    rw [loadSearchOutboxQuarantine, hrow] at hrecord
    dsimp only at hrecord
    split at hrecord
    · cases hrecord
    cases hrecord
    rw [← hepoch] at hmax
    refine ⟨.active (record.epoch + 1) (some record.rawValue), ⟨⟨true, ?_⟩, ?_, ?_⟩, .restore record hkey hmax⟩
    · have hne : record.epoch + 1 ≠ 0 := by
        intro h0
        have := Task.toNat_add_one hmax
        rw [h0] at this
        cases this
      rw [← hepoch]
      exact @load_setState_self s k ⟨record.epoch + 1, .active⟩ hne
    · exact (get_set ..).trans (if_pos rfl)
    · exact (get_erase ..).trans (if_pos rfl)
  · intro k' hne
    exact ⟨update_of_ne hne .., (get_set ..).trans (if_neg hne), (get_erase ..).trans (if_neg hne)⟩

/-- An acknowledgement leaves the quarantine alone, so a task that it has touched before can be
acknowledged once more. -/
theorem ackTask_cases (h : ackTask frames s batch task = .ok s') :
    ∃ k state found, task.key = .ok k ∧ s.loadSearchOutboxState k = .ok (state, found) ∧ state.epoch = task.epoch ∧
      (state.status = .acknowledged ∧ s' = batch ∨ state.status = .active ∧ ∃ value, s.queued.get k = some value ∧
        s' = { batch.setState k { state with status := .acknowledged } with queued := batch.queued.erase k }) := by
  obtain ⟨k, hkey, h⟩ := bind_eq_ok.mp h
  obtain ⟨⟨state, found⟩, hload, h⟩ := bind_eq_ok.mp h
  dsimp only at h
  split at h
  · cases h
  rename_i hepoch
  refine ⟨k, state, found, hkey, hload, not_not.mp hepoch, ?_⟩
  split at h
  · cases h
    exact .inl ⟨‹_›, rfl⟩
  split at h
  · cases h
  rename_i hactive
  split at h
  · cases h
  rename_i value hqueued
  obtain ⟨-, -, h⟩ := bind_eq_ok.mp h
  cases h
  exact .inr ⟨not_not.mp hactive, value, hqueued, rfl⟩

theorem ackTask_moves (hq : batch.quarantine = s.quarantine) (hm : Moves p s batch)
    (h : ackTask frames s batch task = .ok s') : s'.quarantine = s.quarantine ∧ Moves p s s' := by
  obtain ⟨k, state, found, -, hload, -, ⟨-, rfl⟩ | ⟨hactive, value, hqueued, rfl⟩⟩ := ackTask_cases h
  · exact ⟨hq, hm⟩
  refine ⟨hq, hm.write (k := k) ?_ ?_⟩
  · intro t ht
    obtain rfl := ht.eq_active hload hactive
    rw [hqueued]
    refine ⟨.acknowledged state.epoch, ⟨⟨true, ?_⟩, ?_, ?_⟩, .acknowledge ..⟩
    · have hepoch := epoch_of_load hload
      exact @load_setState_self batch k { state with status := .acknowledged } hepoch
    · exact (get_erase ..).trans (if_pos rfl)
    · exact (congrArg (·.get k) hq).trans ht.quarantine
  · intro k' hne
    exact ⟨update_of_ne hne .., (get_erase ..).trans (if_neg hne), rfl⟩

theorem ack_moves {tasks : List SearchOutboxTask} (h : s.ackSearchOutboxShard frames tasks = .ok s') : Moves p s s' :=
  (foldlM_ok (fun batch => batch.quarantine = s.quarantine ∧
    Moves p s batch) (fun _ _ _ _ hinv => ackTask_moves hinv.1 hinv.2)
    ⟨rfl, .refl p s⟩ h).2

/-- The batch of an append shows the states that the database shows. -/
structure Appending (p : Bytes → Prop) (s batch : OutboxShard) : Prop where
  quarantine : batch.quarantine = s.quarantine
  states : ∀ k state found, s.loadSearchOutboxState k = .ok (state, found) →
    ∃ found', batch.loadSearchOutboxState k = .ok (state, found')
  moves : Moves p s batch

theorem Appending.of_floors {floors : Bytes → Option Bytes} : Appending p s { s with floors } where
  quarantine := rfl
  states _ _ found h := ⟨found, h⟩
  moves _ t h := ⟨t, h.congr ⟨rfl, rfl, rfl⟩, .keep t⟩

theorem writeOutbox_appending {m : Message} (ha : Appending p s batch)
    (h : writeSearchOutbox frames s batch m = .ok s') : Appending p s s' := by
  obtain ⟨-, -, h⟩ := bind_eq_ok.mp h
  obtain ⟨k, -, h⟩ := bind_eq_ok.mp h
  obtain ⟨⟨state, found⟩, hload, h⟩ := bind_eq_ok.mp h
  dsimp only at h
  split at h
  · cases h
    exact ha
  rename_i hactive
  rw [not_not] at hactive
  split at h
  · cases h
  rename_i value _
  cases h
  -- whether or not the state is written first, it is the one that was read
  have hstate : ∃ found', (if found then batch else batch.setState k state).loadSearchOutboxState k = .ok (state, found') := by
    cases found with
    | true => exact ha.states k state true hload
    | false => exact ⟨true, load_setState_self (epoch_of_load hload)⟩
  have hsame : ∀ k', k' ≠ k → SameRows batch (if found then batch else batch.setState k state) k' := by
    intro k' hne
    cases found with
    | true => exact ⟨rfl, rfl, rfl⟩
    | false => exact ⟨update_of_ne hne .., rfl, rfl⟩
  have hq : (if found then batch else batch.setState k state).quarantine = s.quarantine := by
    cases found <;> exact ha.quarantine
  refine ⟨hq, ?_, ha.moves.write (k := k) ?_ ?_⟩
  · intro k' state' found' hload'
    by_cases heq : k' = k
    · subst heq
      rw [hload] at hload'
      cases hload'
      exact hstate
    · obtain ⟨found'', hbatch⟩ := ha.states k' state' found' hload'
      exact ⟨found'', (load_congr (hsame k' heq).states).trans hbatch⟩
  · intro t ht
    obtain rfl := ht.eq_active hload hactive
    obtain ⟨found', hstate⟩ := hstate
    obtain ⟨epoch, status⟩ := state
    cases hactive
    exact ⟨.active epoch (some value), ⟨⟨found', hstate⟩, (get_set ..).trans (if_pos rfl),
      (congrArg (·.get k) hq).trans ht.quarantine⟩, .enqueue ..⟩
  · intro k' hne
    exact ⟨(hsame k' hne).states, ((get_set ..).trans (if_neg hne)).trans (hsame k' hne).queued, (hsame k' hne).quarantine⟩

theorem ensureFloor_appending (h : s.ensureSearchOutboxFloor c seq = .ok s') : Appending p s s' := by
  rw [ensureSearchOutboxFloor] at h
  split at h
  · cases h
  obtain ⟨floor, -, h⟩ := bind_eq_ok.mp h
  cases floor with
  | some _ =>
    cases h
    exact .of_floors
  | none =>
    obtain ⟨key, -, h⟩ := bind_eq_ok.mp h
    cases h
    exact .of_floors

theorem append_moves (h : s.appendMessages frames c msgs = .ok s') : Moves p s s' := by
  obtain ⟨batch, hfloor, h⟩ := bind_eq_ok.mp h
  have hbatch : Appending p s batch := by
    rw [firstFloor] at hfloor
    split at hfloor
    · cases hfloor
      exact .of_floors
    · exact ensureFloor_appending hfloor
  exact (foldlM_ok (Appending p s) (fun _ _ _ _ => writeOutbox_appending) hbatch h).moves

theorem truncate_moves (h : s.truncateLogTo c seq = .ok s') : Moves p s s' := by
  have hrows : s'.states = s.states ∧ s'.quarantine = s.quarantine ∧
      ∀ k, s'.queued.get k = s.queued.get k ∨ s'.queued.get k = none := by
    obtain ⟨floors, -, h⟩ := bind_eq_ok.mp h
    obtain ⟨queued, hqueued, h⟩ := bind_eq_ok.mp h
    cases h
    refine ⟨rfl, rfl, ?_⟩
    intro k
    rw [truncateQueued] at hqueued
    split at hqueued
    · obtain ⟨⟨lower, upper⟩, -, hqueued⟩ := bind_eq_ok.mp hqueued
      cases hqueued
      rw [get_remove]
      split
      · exact .inr rfl
      · exact .inl rfl
    · cases hqueued
      exact .inl rfl
  obtain ⟨hstates, hquarantine, hqueued⟩ := hrows
  intro k t ht
  have hload := load_congr (congrFun hstates k)
  have hq : s'.quarantine.get k = t.record := (congrArg (·.get k) hquarantine).trans ht.quarantine
  rcases hqueued k with hk | hk
  · exact ⟨t, ht.congr ⟨congrFun hstates k, hk, congrArg (·.get k) hquarantine⟩, .keep t⟩
  cases t with
  | active epoch queued => exact ⟨.active epoch none, ⟨hload ▸ ht.state, hk, hq⟩, .drop ..⟩
  | quarantined record => exact ⟨.quarantined record, ⟨hload ▸ ht.state, hk, hq⟩, .keep _⟩
  | acknowledged epoch => exact ⟨.acknowledged epoch, ⟨hload ▸ ht.state, hk, hq⟩, .keep _⟩

/-- What the rows under a key say together with the state of the task. -/
structure Ledger (s : OutboxShard) (k : Bytes) (state : SearchOutboxState) : Prop where
  queued : s.queued.get k ≠ none → state.status = .active
  acknowledged : state.status = .acknowledged → s.queued.get k = none ∧ s.quarantine.get k = none
  quarantined : state.status = .quarantined ↔ s.quarantine.get k ≠ none
  row : ∀ record, s.quarantine.get k = some record → record.epoch = state.epoch ∧ s.queued.get k = none

theorem Shows.ledger (h : s.Shows k t) : s.Ledger k t.state := by
  have hqueued := h.queued
  have hquarantine := h.quarantine
  cases t with
  | active epoch queued =>
    refine ⟨fun _ => rfl, nofun, ⟨nofun, fun hne => absurd hquarantine hne⟩, ?_⟩
    intro record hrecord
    cases hrecord.symm.trans hquarantine
  | quarantined row =>
    refine ⟨fun hne => absurd hqueued hne, nofun, ⟨?_, fun _ => rfl⟩, ?_⟩
    · rintro - hnone
      cases hnone.symm.trans hquarantine
    · intro record hrecord
      cases hrecord.symm.trans hquarantine
      exact ⟨rfl, hqueued⟩
  | acknowledged epoch =>
    refine ⟨fun hne => absurd hqueued hne, fun _ => ⟨hqueued, hquarantine⟩, ⟨nofun, fun hne => absurd hquarantine hne⟩, ?_⟩
    intro record hrecord
    cases hrecord.symm.trans hquarantine

end OutboxShard

namespace OutboxDB
open OutboxShard
variable {db : OutboxDB} {k : Bytes}

/-- The call restores the task under a key of a database. -/
def Restoring (db : OutboxDB) (call : OutboxCall) (i : Nat) (k : Bytes) : Prop :=
  ∃ task, call = .restore task ∧ db.getChannelShardIndex task.identity.channel = i ∧ task.key = .ok k

variable {j : Nat}

theorem setShard_moves {s : OutboxShard} (h : j = i → Moves p (db.outbox j) s) :
    Moves p (db.outbox i) ((db.setShard j s).outbox i) := by
  change Moves p (db.outbox i) (update db.outbox j s i)
  by_cases hij : i = j
  · subst hij
    rw [update_self]
    exact h rfl
  · rw [update_of_ne hij]
    exact .refl p _

theorem onShard_moves {call : OutboxShard → Except OutboxError OutboxShard}
    (h : ∀ s, call (db.outbox j) = .ok s → j = i → Moves p (db.outbox j) s) :
    Moves p (db.outbox i) ((db.onShard j call).outbox i) := by
  rw [onShard]
  split
  · rename_i s hs
    exact setShard_moves (h s hs)
  · exact .refl p _

theorem appendMessages_moves {db' : OutboxDB}
    (h : db.appendMessages frames c msgs = .ok db') : Moves p (db.outbox i) (db'.outbox i) := by
  obtain ⟨chat, -, h⟩ := bind_eq_ok.mp h
  obtain ⟨s, hs, h⟩ := bind_eq_ok.mp h
  cases h
  exact setShard_moves fun _ => append_moves hs

theorem truncateLogTo_moves : Moves p (db.outbox i) ((db.truncateLogTo c seq).1.outbox i) := by
  rw [truncateLogTo]
  split
  · exact .refl p _
  dsimp only
  split
  · exact .refl p _
  split
  · exact .refl p _
  rename_i s hs
  split
  · exact .refl p _
  · exact setShard_moves fun _ => truncate_moves hs

/-- Whatever the section, each task of each database moves by one step at most. -/
theorem perform_moves (frames : Frames) (db : OutboxDB) (call : OutboxCall) (i : Nat) :
    Moves (db.Restoring call i) (db.outbox i) ((db.perform frames call).outbox i) := by
  cases call with
  | appendMessages c msgs =>
    rw [perform]
    split
    · rename_i db' h
      exact appendMessages_moves h
    · exact .refl _ _
  | truncateLogTo c seq => exact truncateLogTo_moves
  | pin j rawKey expected =>
    refine onShard_moves fun s hs _ => ?_
    obtain ⟨⟨epoch, s⟩, hcall, rfl⟩ := map_eq_ok.mp hs
    exact pin_moves hcall
  | candidate j rawKey expected reason now =>
    refine onShard_moves fun s hs _ => ?_
    obtain ⟨⟨removed, s⟩, hcall, rfl⟩ := map_eq_ok.mp hs
    exact candidate_moves hcall
  | ack j tasks => exact onShard_moves fun s hs _ => ack_moves hs
  | quarantine task reason now => exact onShard_moves fun s hs _ => quarantine_moves hs
  | restore task =>
    refine onShard_moves fun s hs hi => ?_
    obtain ⟨⟨epoch, s⟩, hcall, rfl⟩ := map_eq_ok.mp hs
    intro k t ht
    obtain ⟨t', ht', hstep⟩ := restore_moves hcall k t ht
    exact ⟨t', ht', hstep.mono fun hkey => ⟨task, rfl, hi, hkey⟩⟩

def Empty (db : OutboxDB) : Prop :=
  ∀ i, (db.outbox i).queued = .empty ∧ (db.outbox i).states = (fun _ => none) ∧ (db.outbox i).quarantine = .empty

theorem Empty.shows (h : db.Empty) (i : Nat) (k : Bytes) : (db.outbox i).Shows k (.active 1 none) := by
  obtain ⟨hqueued, hstates, hquarantine⟩ := h i
  refine ⟨⟨false, ?_⟩, ?_, ?_⟩
  · rw [loadSearchOutboxState, hstates]
    rfl
  · rw [hqueued]
    rfl
  · rw [hquarantine]
    rfl

/-- Over a run a task that is acknowledged stays what it is, and no epoch falls. -/
theorem run_shows {t : Task} (h : (db.outbox i).Shows k t) (calls : List OutboxCall) :
    ∃ t', ((db.run frames calls).outbox i).Shows k t' ∧
      (t.state.status = .acknowledged → t'.state = t.state) ∧ t.state.epoch ≤ t'.state.epoch := by
  induction calls generalizing db t with
  | nil => exact ⟨t, h, fun _ => rfl, UInt64.le_refl _⟩
  | cons call calls ih =>
    obtain ⟨t₁, ht₁, hstep⟩ := perform_moves frames db call i k t h
    obtain ⟨t', ht', hdone, hle⟩ := ih ht₁
    refine ⟨t', ht', ?_, UInt64.le_trans hstep.epoch_le hle⟩
    intro ht
    have hkeep := hstep.state_of_acknowledged ht
    rw [← hkeep] at ht ⊢
    exact hdone ht

/-- From an empty outbox, in every interleaving of sections: the rows of every task fit its state;
the next section leaves an acknowledged task as it is, and raises an epoch by one where it restores
the quarantined task, and nowhere else; and over any number of further sections an acknowledged task
stays as it is and no epoch falls. -/
theorem search_outbox_ledger (frames : Frames) {db : OutboxDB} (hempty : db.Empty)
    (calls : List OutboxCall) (i : Nat) (k : Bytes) :
    ∃ state found, ((db.run frames calls).outbox i).loadSearchOutboxState k = .ok (state, found) ∧
      ((db.run frames calls).outbox i).Ledger k state ∧
      (∀ call, ∃ state' found',
        (((db.run frames calls).perform frames call).outbox i).loadSearchOutboxState k = .ok
        (state', found') ∧ (state.status = .acknowledged → state' = state) ∧
        (state'.epoch = state.epoch ∨ (db.run frames calls).Restoring call i k ∧
          state'.epoch.toNat = state.epoch.toNat + 1 ∧ state.status = .quarantined ∧ state'.status = .active)) ∧
      ∀ more, ∃ state' found',
        (((db.run frames calls).run frames more).outbox i).loadSearchOutboxState k = .ok (state', found') ∧
        (state.status = .acknowledged → state' = state) ∧ state.epoch ≤ state'.epoch := by
  obtain ⟨t, ht, -, -⟩ := run_shows (hempty.shows i k) calls
  obtain ⟨found, hload⟩ := ht.state
  refine ⟨t.state, found, hload, ht.ledger, ?_, ?_⟩
  · intro call
    obtain ⟨t', ht', hstep⟩ := perform_moves frames (db.run frames calls) call i k t ht
    obtain ⟨found', hload'⟩ := ht'.state
    exact ⟨t'.state, found', hload', hstep.state_of_acknowledged, hstep.epoch⟩
  · intro more
    obtain ⟨t', ht', hdone, hle⟩ := run_shows ht more
    obtain ⟨found', hload'⟩ := ht'.state
    exact ⟨t'.state, found', hload', hdone, hle⟩

private def marked : Message :=
  { messageID := 7, messageSeq := 1, channelID := [103], channelType := 2, timestamp := 1, searchOutbox := true }

private def markedTask : SearchOutboxTask := ⟨searchOutboxIdentityFromMessage marked, 1⟩

private def markedKey : Bytes := [0x1B, 1, 1, 0, 2, 0, 1, 103, 0, 0, 0, 0, 0, 0, 0, 1, 0, 0, 0, 0, 0, 0, 0, 7]

private def markedFrames : Frames where
  latestVersion := 4
  encodeFrame _ := some []
  decodeFrame _ _ := some marked
  binary := takeBytes 0

private def vacant : OutboxDB where
  chat := { shardNum := 1, pos := Nat.one_pos }

private def returnedCalls : List OutboxCall :=
  [.appendMessages ⟨[103], 2⟩ [marked], .quarantine markedTask (some .bulkItemRejected) 9, .restore markedTask]

theorem search_outbox_ledger_restored :
    ((vacant.run markedFrames returnedCalls).outbox 0).loadSearchOutboxState markedKey = .ok (⟨2, .active⟩, true) ∧
      ((vacant.run markedFrames returnedCalls).outbox 0).Ledger markedKey ⟨2, .active⟩ := by
  have hload : ((vacant.run markedFrames returnedCalls).outbox 0).loadSearchOutboxState markedKey =
      .ok (⟨2, .active⟩, true) := by
    decide +kernel
  obtain ⟨state, found, h, hledger, -⟩ :=
    @search_outbox_ledger markedFrames vacant (fun _ => ⟨rfl, rfl, rfl⟩) returnedCalls 0 markedKey
  rw [hload] at h
  cases h
  exact ⟨hload, hledger⟩

end OutboxDB
end WuKongIM.WKDB

import WuKongIM.WKDB.SearchOutboxLedger

/-! What an acknowledgement of tasks in several databases leaves, accepted or refused. -/
namespace WuKongIM.WKDB
open Lib Function

namespace OutboxShard
variable {frames : Frames} {s s' batch : OutboxShard} {task : SearchOutboxTask} {tasks done : List SearchOutboxTask}

/-- The task was active or acknowledged in the epoch that it names. Now it is acknowledged in this
epoch and waits no more. -/
def Acknowledges (s s' : OutboxShard) (task : SearchOutboxTask) : Prop :=
  ∃ k state found found', task.key = .ok k ∧ s.loadSearchOutboxState k = .ok (state, found) ∧ state.epoch = task.epoch ∧
    (state.status = .active ∧ s'.queued.get k = none ∨ state.status = .acknowledged) ∧
    s'.loadSearchOutboxState k = .ok ({ state with status := .acknowledged }, found')

/-- Just the tasks are acknowledged: the rows of no other task change. -/
structure AcknowledgesAll (tasks : List SearchOutboxTask) (s s' : OutboxShard) : Prop where
  each : ∀ task ∈ tasks, Acknowledges s s' task
  others : ∀ k, (∀ task ∈ tasks, task.key ≠ .ok k) → SameRows s s' k

theorem AcknowledgesAll.congr (h : AcknowledgesAll done s s')
    (hmem : ∀ task, task ∈ tasks ↔ task ∈ done) : AcknowledgesAll tasks s s' where
  each task ht := h.each task ((hmem task).mp ht)
  others k hk := h.others k fun task ht => hk task ((hmem task).mpr ht)

/-- The state of a task after those before it: a task named again has been acknowledged already. -/
private theorem AcknowledgesAll.load {k : Bytes} {state : SearchOutboxState} {found : Bool}
    (h : AcknowledgesAll done s batch) (hload : s.loadSearchOutboxState k = .ok (state, found))
    (hdone : state.status = .acknowledged) : ∃ found', batch.loadSearchOutboxState k =
    .ok ({ state with status := .acknowledged }, found') := by
  by_cases hk : ∀ task ∈ done, task.key ≠ .ok k
  · refine ⟨found, (load_congr (h.others k hk).states).trans (hload.trans ?_)⟩
    rw [← hdone]
  · simp only [not_forall, not_not] at hk
    obtain ⟨task, ht, hkey⟩ := hk
    obtain ⟨k', state', _, found', hkey', hload', -, -, hbatch⟩ := h.each task ht
    cases hkey.symm.trans hkey'
    cases hload.symm.trans hload'
    exact ⟨found', hbatch⟩

private theorem AcknowledgesAll.ackTask (h : AcknowledgesAll done s batch)
    (hack : ackTask frames s batch task = .ok s') : AcknowledgesAll (done ++ [task]) s s' := by
  obtain ⟨k, state, found, hkey, hload, hepoch, ⟨hstatus, rfl⟩ | ⟨hactive, value, -, rfl⟩⟩ := ackTask_cases hack
  · obtain ⟨found', hbatch⟩ := h.load hload hstatus
    refine ⟨fun t ht => ?_, fun k' hk' => h.others k' fun t ht => hk' t (List.mem_append_left _ ht)⟩
    rcases List.mem_append.mp ht with ht | ht
    · exact h.each t ht
    · obtain rfl := List.mem_singleton.mp ht
      exact ⟨k, state, found, found', hkey, hload, hepoch, .inr hstatus, hbatch⟩
  have hnonzero := epoch_of_load hload
  have hself := @load_setState_self batch k { state with status := .acknowledged } hnonzero
  have hgone : (batch.queued.erase k).get k = none := (Table.get_erase ..).trans (if_pos rfl)
  refine ⟨fun t ht => ?_, fun k' hk' => ?_⟩
  · rcases List.mem_append.mp ht with ht | ht
    · obtain ⟨k', state', found', found'', hkey', hload', hepoch', hstatus, hbatch⟩ := h.each t ht
      by_cases heq : k' = k
      · subst heq
        cases hload.symm.trans hload'
        exact ⟨k', state, found, true, hkey', hload, hepoch', .inl ⟨hactive, hgone⟩, hself⟩
      · refine ⟨k', state', found', found'', hkey', hload', hepoch', ?_, (load_congr (update_of_ne heq ..)).trans hbatch⟩
        exact hstatus.imp_left fun hq => ⟨hq.1, ((Table.get_erase ..).trans (if_neg heq)).trans hq.2⟩
    · obtain rfl := List.mem_singleton.mp ht
      exact ⟨k, state, found, true, hkey, hload, hepoch, .inl ⟨hactive, hgone⟩, hself⟩
  · have hne : k' ≠ k := by
      rintro rfl
      exact hk' task (List.mem_append_right _ (List.mem_singleton_self _)) hkey
    have hsame := h.others k' fun t ht => hk' t (List.mem_append_left _ ht)
    exact ⟨(update_of_ne hne ..).trans hsame.states,
      ((Table.get_erase ..).trans (if_neg hne)).trans hsame.queued, hsame.quarantine⟩

theorem ackShard_acknowledges (h : s.ackSearchOutboxShard frames tasks = .ok s') : AcknowledgesAll tasks s s' := by
  suffices hrest : ∀ rest done batch, AcknowledgesAll done s batch →
      rest.foldlM (ackTask frames s) batch = .ok s' → AcknowledgesAll (done ++ rest) s s' from
    hrest tasks [] s ⟨List.forall_mem_nil _, fun _ _ => ⟨rfl, rfl, rfl⟩⟩ h
  intro rest
  induction rest with
  | nil =>
    intro done batch hdone h
    cases h
    rwa [List.append_nil]
  | cons task rest ih =>
    intro done batch hdone h
    rw [List.foldlM_cons] at h
    obtain ⟨batch', hack, h⟩ := bind_eq_ok.mp h
    rw [List.append_cons]
    exact ih _ batch' (hdone.ackTask hack) h

end OutboxShard

namespace OutboxDB
open OutboxShard
variable {frames : Frames} {db : OutboxDB} {kept tasks : List SearchOutboxTask}

/-- The tasks of a list that one database holds. -/
def tasksOf (db : OutboxDB) (i : Nat) (tasks : List SearchOutboxTask) : List SearchOutboxTask :=
  tasks.filter fun task => db.getChannelShardIndex task.identity.channel = i

private theorem mem_of_preflight {done : List SearchOutboxTask} (h : tasks.foldlM ackPreflight done = .ok kept) :
    ∀ task, task ∈ kept ↔ task ∈ done ∨ task ∈ tasks := by
  induction tasks generalizing done with
  | nil =>
    cases h
    simp
  | cons first tasks ih =>
    rw [List.foldlM_cons] at h
    obtain ⟨next, hnext, h⟩ := bind_eq_ok.mp h
    have hmem : ∀ task, task ∈ next ↔ task ∈ done ∨ task = first := by
      obtain ⟨-, -, hnext⟩ := bind_eq_ok.mp hnext
      split at hnext
      · next same hfind =>
        split at hnext
        · cases hnext
        · next hepoch =>
          cases hnext
          -- a task with the identity and the epoch of another one is that one
          have hsame : same = first := by
            have hid : same.identity = first.identity := by simpa using List.find?_some hfind
            cases same
            cases first
            simp_all
          intro task
          refine (or_iff_left_of_imp ?_).symm
          rintro rfl
          exact hsame ▸ List.mem_of_find?_eq_some hfind
      · cases hnext
        simp
    intro task
    rw [ih h, hmem, List.mem_cons, or_assoc]

/-- Each database is left as it was or has all its tasks acknowledged, and all are if nothing is
refused. -/
private theorem ackShards_acknowledges (frames : Frames) (kept : List SearchOutboxTask)
    {shards : List Nat} (hnodup : shards.Nodup) (db : OutboxDB) :
    let r := ackShards frames kept db shards
    r.1.chat = db.chat ∧ (∀ i, r.1.outbox i = db.outbox i ∨
        i ∈ shards ∧ AcknowledgesAll (db.tasksOf i kept) (db.outbox i) (r.1.outbox i)) ∧
      (r.2 = .ok () → ∀ i ∈ shards, AcknowledgesAll (db.tasksOf i kept) (db.outbox i) (r.1.outbox i)) := by
  induction shards generalizing db with
  | nil => exact ⟨rfl, fun _ => .inl rfl, fun _ => List.forall_mem_nil _⟩
  | cons j shards ih =>
    obtain ⟨hj, hnodup⟩ := List.nodup_cons.mp hnodup
    rw [ackShards]
    split
    · next hnone =>
      obtain ⟨hchat, heach, hall⟩ := ih hnodup db
      refine ⟨hchat, fun i => (heach i).imp_right fun h => ⟨List.mem_cons_of_mem _ h.1, h.2⟩, fun hok i hi => ?_⟩
      rcases List.mem_cons.mp hi with rfl | hi
      · have hsame := (heach i).resolve_right fun h => hj h.1
        rw [hsame, tasksOf, hnone]
        exact ⟨List.forall_mem_nil _, fun _ _ => ⟨rfl, rfl, rfl⟩⟩
      · exact hall hok i hi
    split
    · next herror =>
      refine ⟨rfl, fun _ => .inl rfl, ?_⟩
      rintro ⟨⟩
    next s hs =>
    have hacked := ackShard_acknowledges hs
    obtain ⟨hchat, heach, hall⟩ := ih hnodup (db.setShard j s)
    have hother {i : Nat} (hi : i ≠ j) : (db.setShard j s).outbox i = db.outbox i := update_of_ne hi ..
    have hself : (db.setShard j s).outbox j = s := update_self ..
    have hfirst : (ackShards frames kept (db.setShard j s) shards).1.outbox j = s :=
      ((heach j).resolve_right fun h => hj h.1).trans hself
    refine ⟨hchat, fun i => ?_, fun hok i hi => ?_⟩
    · by_cases hi : i = j
      · subst hi
        rw [hfirst]
        exact .inr ⟨List.mem_cons_self, hacked⟩
      · have := heach i
        rw [hother hi] at this
        exact this.imp_right fun h => ⟨List.mem_cons_of_mem _ h.1, h.2⟩
    · by_cases hij : i = j
      · subst hij
        rw [hfirst]
        exact hacked
      · have := hall hok i ((List.mem_cons.mp hi).resolve_left hij)
        rwa [hother hij] at this

/-- An acknowledgement leaves each database as it was or acknowledges just its tasks there, all in
the epochs that they name, and the messages stay. One that is not refused acknowledges all tasks. -/
theorem ackSearchOutboxTasks_acknowledges (frames : Frames) (db : OutboxDB) (tasks : List SearchOutboxTask) :
    let r := db.ackSearchOutboxTasks frames tasks
    r.1.chat = db.chat ∧ (∀ i, r.1.outbox i = db.outbox i ∨
      AcknowledgesAll (db.tasksOf i tasks) (db.outbox i) (r.1.outbox i)) ∧
      (r.2 = .ok () → ∀ i, AcknowledgesAll (db.tasksOf i tasks) (db.outbox i) (r.1.outbox i)) := by
  rw [ackSearchOutboxTasks]
  split
  · next hnone =>
    subst hnone
    exact ⟨rfl, fun _ => .inl rfl, fun _ i => ⟨List.forall_mem_nil _, fun _ _ => ⟨rfl, rfl, rfl⟩⟩⟩
  split
  · refine ⟨rfl, fun _ => .inl rfl, ?_⟩
    rintro ⟨⟩
  split
  · refine ⟨rfl, fun _ => .inl rfl, ?_⟩
    rintro ⟨⟩
  next kept hkept =>
  obtain ⟨hchat, heach, hall⟩ := ackShards_acknowledges frames kept (List.nodup_range (n := db.chat.shardNum)) db
  have hmem (i : Nat) (task : SearchOutboxTask) : task ∈ db.tasksOf i tasks ↔ task ∈ db.tasksOf i kept := by
    simp [tasksOf, mem_of_preflight hkept]
  refine ⟨hchat, fun i => (heach i).imp_right fun h => h.2.congr (hmem i), fun hok i => ?_⟩
  by_cases hi : i < db.chat.shardNum
  · exact (hall hok i (List.mem_range.mpr hi)).congr (hmem i)
  · have hnone : db.tasksOf i tasks = [] := by
      refine List.filter_eq_nil_iff.mpr fun task _ h => hi ?_
      rw [← of_decide_eq_true h]
      exact Nat.mod_lt _ db.chat.pos
    rw [(heach i).resolve_right fun h => hi (List.mem_range.mp h.1), hnone]
    exact ⟨List.forall_mem_nil _, fun _ _ => ⟨rfl, rfl, rfl⟩⟩

end OutboxDB
end WuKongIM.WKDB

import WuKongIM.WKDB.SearchOutboxPull

/-! What a pull of the search outbox hands out, counts and puts aside, for every content of the
outbox. -/
namespace WuKongIM.WKDB
open Lib List Function OutboxShard

namespace OutboxShard
variable {s s' : OutboxShard} {k value : Bytes}

def putAside (i : Nat) (k value : Bytes) (state : SearchOutboxState) (reason : QuarantineReason)
    (now : Int64) (s : OutboxShard) :
    OutboxShard :=
  { s with
    queued := s.queued.erase k
    states := update s.states k (some (SearchOutboxState.marshal ⟨state.epoch, .quarantined⟩))
    quarantine := s.quarantine.set k ⟨i, (parseSearchOutboxKey k).toOption, k, value, state.epoch, some reason, now⟩ }

variable (hq : s.queued.get k = some value)
include hq

variable {reason : QuarantineReason}

theorem candidate_eq_ok {i : Nat} {now : Int64} {removed : Bool} :
    s.quarantineSearchOutboxCandidate i k value reason now = .ok (removed, s') ↔
      ∃ state found, s.loadSearchOutboxState k = .ok (state, found) ∧ state.status = .active ∧
        removed ∧ s' = s.putAside i k value state reason now := by
  rw [quarantineSearchOutboxCandidate, hq]
  dsimp only
  rw [if_neg (not_not.mpr rfl), bind_eq_ok, Prod.exists]
  refine exists_congr fun state => exists_congr fun found => and_congr_right fun _ => ?_
  rw [bind_eq_ok, quarantineSearchOutboxRawLocked]
  by_cases hactive : state.status = .active
  · simp only [hactive, true_and]
    constructor
    · rintro ⟨_, h, h'⟩
      cases h
      cases h'
      exact ⟨rfl, rfl⟩
    · rintro ⟨rfl, rfl⟩
      exact ⟨_, rfl, rfl⟩
  · simp [hactive]

theorem pin_eq_ok {epoch : Option UInt64} : s.pinSearchOutboxRecord k value = .ok (epoch, s') ↔
      ∃ state found, s.loadSearchOutboxState k = .ok (state, found) ∧ state.status = .active ∧
        epoch = some state.epoch ∧ s' = if found then s else s.setState k state := by
  rw [pinSearchOutboxRecord, hq]
  dsimp only
  rw [if_neg (not_not.mpr rfl), bind_eq_ok, Prod.exists]
  refine exists_congr fun state => exists_congr fun found => and_congr_right fun _ => ?_
  by_cases hactive : state.status = .active
  · simp [hactive, eq_comm]
  · simp [hactive]

end OutboxShard

variable {frames : Frames} {r : Queued} {identity : SearchOutboxIdentity} {message : Message}

def Queued.usable (frames : Frames) (r : Queued) : Bool := (r.decode frames).isOk

theorem Queued.messageSeq_of_parse {raw : Bytes} (h : parseSearchOutboxKey raw = .ok identity) :
    identity.messageSeq ≠ 0 := by
  rw [parseSearchOutboxKey] at h
  split at h
  · cases h
  split at h
  · cases h
  split at h
  · cases h
  split at h
  · cases h
  cases h
  intro h0
  have hnat := congrArg UInt64.toNat h0
  rw [UInt64.toNat_ofNat'] at hnat
  change _ = 0 at hnat
  omega

theorem Queued.messageSeq_of_decode (h : r.decode frames = .ok (identity, message)) : identity.messageSeq ≠ 0 := by
  rw [decode] at h
  split at h
  · cases h
  split at h
  · cases h
  rename_i hdecode
  split at h
  · cases h
  cases h
  obtain ⟨identity', hparse, hdecode⟩ := bind_eq_ok.mp hdecode
  split at hdecode
  · cases hdecode
  split at hdecode
  · cases hdecode
  · cases hdecode
    exact messageSeq_of_parse hparse

namespace OutboxDB
variable {db db' : OutboxDB} {i : Nat} {k : Bytes}

def recordsOf (db : OutboxDB) (i : Nat) : List Queued := (db.outbox i).queued.entries.map fun e => ⟨i, e.1, e.2⟩

def records (db : OutboxDB) : List Queued := (List.range db.chat.shardNum).flatMap db.recordsOf

variable {s : OutboxShard}

theorem mem_recordsOf : r ∈ db.recordsOf i ↔ r.shard = i ∧ (db.outbox i).queued.get r.key = some r.value := by
  rw [recordsOf, mem_map]
  constructor
  · rintro ⟨e, he, rfl⟩
    exact ⟨rfl, Table.mem_entries.mp he⟩
  · rintro ⟨rfl, h⟩
    exact ⟨(r.key, r.value), Table.mem_entries.mpr h, rfl⟩

theorem mem_records : r ∈ db.records ↔ r.shard < db.chat.shardNum ∧ (db.outbox r.shard).queued.get r.key = some r.value := by
  rw [records, mem_flatMap]
  constructor
  · rintro ⟨i, hi, hr⟩
    obtain ⟨rfl, hr⟩ := mem_recordsOf.mp hr
    exact ⟨mem_range.mp hi, hr⟩
  · rintro ⟨hi, hr⟩
    exact ⟨r.shard, mem_range.mpr hi, mem_recordsOf.mpr ⟨rfl, hr⟩⟩

theorem pairwise_records (db : OutboxDB) : db.records.Pairwise fun r r' => ¬(r.shard = r'.shard ∧ r.key = r'.key) := by
  rw [records, pairwise_flatMap]
  constructor
  · intro i _
    rw [recordsOf, pairwise_map]
    refine (db.outbox i).queued.sorted.imp ?_
    rintro e e' hlt ⟨-, hkey⟩
    dsimp only at hkey
    rw [hkey] at hlt
    exact Std.lt_irrefl hlt
  · refine nodup_range.imp ?_
    rintro i j hij r hr r' hr' ⟨hshard, -⟩
    exact hij ((mem_recordsOf.mp hr).1.symm.trans (hshard.trans (mem_recordsOf.mp hr').1))

theorem records_congr (hchat : db'.chat = db.chat)
    (h : ∀ i, (db'.outbox i).queued = (db.outbox i).queued) : db'.records = db.records := by
  have hof : db'.recordsOf = db.recordsOf := by
    funext i
    rw [recordsOf, recordsOf, h]
  rw [records, records, hchat, hof]

theorem records_erase (hchat : db'.chat = db.chat) (hi : (db'.outbox i).queued = (db.outbox i).queued.erase k)
    (hother : ∀ j, j ≠ i → (db'.outbox j).queued = (db.outbox j).queued) :
    db'.records = db.records.filter fun r => !(r.shard = i && r.key = k) := by
  rw [records, records, filter_flatMap, hchat]
  congr 1
  funext j
  rw [recordsOf, recordsOf, filter_map]
  by_cases hj : j = i
  · subst hj
    rw [hi]
    refine congrArg _ (filter_congr fun e _ => ?_)
    simp
  · rw [hother j hj, filter_eq_self.mpr]
    simp [hj]

/-- The rows of at most one key are written, and no applied index. -/
structure Touched (r : Queued) (db db' : OutboxDB) : Prop where
  chat : db'.chat = db.chat
  applied : ∀ i, (db'.outbox i).applied = (db.outbox i).applied
  rows : ∀ i k, ¬(r.shard = i ∧ r.key = k) → OutboxShard.SameRows (db.outbox i) (db'.outbox i) k
  other : ∀ i, i ≠ r.shard → db'.outbox i = db.outbox i

theorem Touched.refl (r : Queued) (db : OutboxDB) : Touched r db db where
  chat := rfl
  applied _ := rfl
  rows _ _ _ := ⟨rfl, rfl, rfl⟩
  other _ _ := rfl

theorem outbox_setShard_self : (db.setShard i s).outbox i = s := update_self ..

theorem outbox_setShard_of_ne {j : Nat} (h : j ≠ i) : (db.setShard i s).outbox j = db.outbox j :=
  update_of_ne h ..

theorem touched_setShard (happlied : s.applied = (db.outbox r.shard).applied)
    (hrows : ∀ k, k ≠ r.key → OutboxShard.SameRows (db.outbox r.shard) s k) : Touched r db (db.setShard r.shard s) where
  chat := rfl
  applied i := by
    by_cases hi : i = r.shard
    · subst hi
      rw [outbox_setShard_self, happlied]
    · rw [outbox_setShard_of_ne hi]
  rows i k hne := by
    by_cases hi : i = r.shard
    · subst hi
      rw [outbox_setShard_self]
      exact hrows k fun hk => hne ⟨rfl, hk.symm⟩
    · rw [outbox_setShard_of_ne hi]
      exact ⟨rfl, rfl, rfl⟩
  other i hi := outbox_setShard_of_ne hi

theorem touched_putAside (r : Queued) (state : SearchOutboxState) (reason : QuarantineReason) (now : Int64) :
    Touched r db (db.setShard r.shard ((db.outbox r.shard).putAside r.shard r.key r.value state reason now)) :=
  touched_setShard rfl fun _ hne => ⟨update_of_ne hne .., (Table.get_erase ..).trans (if_neg hne),
    (Table.get_set ..).trans (if_neg hne)⟩

theorem touched_pin (r : Queued) (state : SearchOutboxState) (found : Bool) :
    Touched r db (db.setShard r.shard (if found then db.outbox r.shard else (db.outbox r.shard).setState r.key state)) := by
  cases found with
  | true => exact touched_setShard rfl fun _ _ => ⟨rfl, rfl, rfl⟩
  | false => exact touched_setShard rfl fun _ hne => ⟨update_of_ne hne .., rfl, rfl⟩

theorem Touched.getChannelAppliedIndex (h : Touched r db db') (c : Channel) :
    db'.getChannelAppliedIndex c = db.getChannelAppliedIndex c := by
  rw [OutboxDB.getChannelAppliedIndex, OutboxDB.getChannelAppliedIndex, getChannelShardIndex,
    getChannelShardIndex, h.chat, h.applied]

def left {α : Type} (db : α → OutboxDB) : ScanOutcome α → OutboxDB
  | .ok a => db a
  | .error (_, db') => db'

end OutboxDB

namespace Scan
open OutboxDB
variable {now : Queued → Int64} {limit : Int} {maxBytes : UInt64} {scan scan' : Scan} {applied : UInt64}

theorem visit_of_unusable (hq : (scan.db.outbox r.shard).queued.get r.key = some r.value)
    (hd : r.decode frames = .error reason) : scan.visit frames now limit maxBytes r = .ok scan' ↔
      ∃ state found, (scan.db.outbox r.shard).loadSearchOutboxState r.key = .ok (state, found) ∧
        state.status = .active ∧ scan' = { scan with
          db := scan.db.setShard r.shard
            ((scan.db.outbox r.shard).putAside r.shard r.key r.value state reason (now r)) } := by
  rw [visit, hd]
  change scan.quarantine r reason (now r) = _ ↔ _
  rw [quarantine]
  constructor
  · intro h
    split at h
    · cases h
    rename_i removed s hs
    obtain ⟨state, found, hload, hactive, rfl, rfl⟩ := (candidate_eq_ok hq).mp hs
    cases h
    exact ⟨state, found, hload, hactive, rfl⟩
  · rintro ⟨state, found, hload, hactive, rfl⟩
    rw [(candidate_eq_ok hq).mpr ⟨state, found, hload, hactive, rfl, rfl⟩]
    rfl

/-- The applied index of a channel as the scan knows it or finds it. -/
def Knows (scan : Scan) (c : Channel) (applied : UInt64) : Prop :=
  scan.appliedByChannel c = some applied ∨ scan.appliedByChannel c = none ∧ scan.db.getChannelAppliedIndex c = .ok applied

/-- The scan once it knows the applied index of the channel and has counted the record. -/
def counted (scan : Scan) (c : Channel) (applied : UInt64) (message : Message) : Scan :=
  { scan with appliedByChannel := update scan.appliedByChannel c (some applied) }.countPending message

theorem loadApplied_eq_ok {c : Channel} : scan.loadApplied c = .ok (applied, scan') ↔ scan.Knows c applied ∧
      scan' = { scan with appliedByChannel := update scan.appliedByChannel c (some applied) } := by
  rw [loadApplied, Knows]
  cases hmemo : scan.appliedByChannel c with
  | some a =>
    have hself : update scan.appliedByChannel c (some a) = scan.appliedByChannel := by
      rw [← hmemo, update_eq_self]
    constructor
    · intro h
      cases h
      exact ⟨.inl rfl, by rw [hself]⟩
    · rintro ⟨h | ⟨h, -⟩, rfl⟩
      · cases h
        rw [hself]
      · cases h
  | none =>
    cases hread : scan.db.getChannelAppliedIndex c with
    | error e => simp
    | ok a =>
      constructor
      · intro h
        cases h
        exact ⟨.inr ⟨rfl, rfl⟩, rfl⟩
      · rintro ⟨h | ⟨-, h⟩, rfl⟩
        · cases h
        · cases h
          rfl

/-- A decoded record has a number, so an applied index of zero is below it like any other. -/
theorem visit_of_usable (hd : r.decode frames = .ok (identity, message)) :
    scan.visit frames now limit maxBytes r = .ok scan' ↔
      ∃ applied, scan.Knows identity.channel applied ∧
        (if applied < identity.messageSeq then scan' = (scan.counted identity.channel applied message).countBlocked
        else (scan.counted identity.channel applied message).handOut limit maxBytes r identity message applied = .ok scan') := by
  have hseq (applied) : (applied = 0 ∨ applied < identity.messageSeq) ↔ applied < identity.messageSeq := by
    refine or_iff_right_of_imp ?_
    rintro rfl
    exact UInt64.pos_iff_ne_zero.mpr (Queued.messageSeq_of_decode hd)
  rw [visit, hd]
  rw [bind_eq_ok, Prod.exists]
  refine exists_congr fun applied => ?_
  simp only [loadApplied_eq_ok, hseq]
  constructor
  · rintro ⟨scan₁, ⟨hknows, rfl⟩, h⟩
    refine ⟨hknows, ?_⟩
    split at h
    · cases h
      rw [if_pos ‹_›]
      rfl
    · rw [if_neg ‹_›]
      exact h
  · rintro ⟨hknows, h⟩
    refine ⟨_, ⟨hknows, rfl⟩, ?_⟩
    split at h
    · rw [if_pos ‹_›, h]
      rfl
    · rw [if_neg ‹_›]
      exact h

def handed (scan : Scan) (r : Queued) (identity : SearchOutboxIdentity) (message : Message)
    (applied : UInt64) (state : SearchOutboxState) (found : Bool) : Scan :=
  { scan with
    db := scan.db.setShard r.shard
      (if found then scan.db.outbox r.shard else (scan.db.outbox r.shard).setState r.key state)
    result := { scan.result with records := scan.result.records ++ [⟨state.epoch, identity, message, applied⟩] }
    usedBytes := scan.usedBytes + UInt64.ofNat r.recordBytes }

section
variable (hq : (scan.db.outbox r.shard).queued.get r.key = some r.value)
include hq

/-- A record is passed over, which may end the handing out, or it is handed out within the limit and
what is left of the budget. -/
theorem handOut_cases (h : scan.handOut limit maxBytes r identity message applied = .ok scan') :
    (∃ recordsStopped, scan' = { scan with recordsStopped }) ∨
    ∃ state found, (scan.db.outbox r.shard).loadSearchOutboxState r.key = .ok (state, found) ∧ state.status = .active ∧
      scan.result.records.length ≠ limit ∧ r.recordBytes ≤ (maxBytes - scan.usedBytes).toNat ∧
      scan' = scan.handed r identity message applied state found := by
  rw [handOut] at h
  split at h
  · cases h
    exact .inl ⟨_, rfl⟩
  split at h
  · cases h
    exact .inl ⟨_, rfl⟩
  split at h
  · cases h
    exact .inl ⟨_, rfl⟩
  rename_i hroom
  obtain ⟨hlimit, hbytes⟩ := not_or.mp hroom
  split at h
  · cases h
  · rename_i s hpin
    obtain ⟨_, _, -, -, hnone, -⟩ := (pin_eq_ok hq).mp hpin
    cases hnone
  · rename_i epoch s hpin
    obtain ⟨state, found, hload, hactive, hepoch, rfl⟩ := (pin_eq_ok hq).mp hpin
    cases hepoch
    cases h
    exact .inr ⟨state, found, hload, hactive, hlimit, Nat.le_of_not_lt hbytes, rfl⟩

theorem handOut_ok {state : SearchOutboxState} {found : Bool}
    (hload : (scan.db.outbox r.shard).loadSearchOutboxState r.key = .ok (state, found)) (hactive : state.status = .active) :
    ∃ scan', scan.handOut limit maxBytes r identity message applied = .ok scan' := by
  rw [handOut, (pin_eq_ok hq).mpr ⟨state, found, hload, hactive, rfl, rfl⟩]
  split
  · exact ⟨_, rfl⟩
  split
  · exact ⟨_, rfl⟩
  split
  all_goals exact ⟨_, rfl⟩

end

/-- The sections of a scan for one record. -/
inductive OnRecord (r : Queued) : OutboxCall → Prop
  | pin : OnRecord r (.pin r.shard r.key r.value)
  | candidate (reason : QuarantineReason) (now : Int64) : OnRecord r (.candidate r.shard r.key r.value reason now)

theorem OnRecord.perform {call : OutboxCall} (h : OnRecord r call) (db : OutboxDB) :
    (db.perform frames call).chat = db.chat ∧ ∀ i, i ≠ r.shard → (db.perform frames call).outbox i = db.outbox i := by
  have hshard (run) : (db.onShard r.shard run).chat = db.chat ∧
      ∀ i, i ≠ r.shard → (db.onShard r.shard run).outbox i = db.outbox i := by
    rw [onShard]
    split
    · exact ⟨rfl, fun i hi => outbox_setShard_of_ne hi⟩
    · exact ⟨rfl, fun _ _ => rfl⟩
  cases h with
  | pin | candidate reason now => exact hshard _

/-- What a scan leaves behind when it visits a record is what one section leaves, also when the scan
fails. -/
theorem visit_section (frames : Frames) (now : Queued → Int64) (limit : Int) (maxBytes : UInt64)
    (scan : Scan) (r : Queued) : left Scan.db (scan.visit frames now limit maxBytes r) = scan.db ∨
      ∃ call, OnRecord r call ∧ left Scan.db (scan.visit frames now limit maxBytes r) = scan.db.perform frames call := by
  generalize hv : scan.visit frames now limit maxBytes r = outcome
  rw [visit] at hv
  split at hv
  · rename_i reason _
    rw [quarantine] at hv
    split at hv
    · subst hv
      exact .inl rfl
    rename_i removed s hs
    refine .inr ⟨_, .candidate reason (now r), ?_⟩
    rw [perform, onShard, hs]
    split at hv
    all_goals
      subst hv
      rfl
  · cases hload : scan.loadApplied _ with
    | error e =>
      rw [hload] at hv
      subst hv
      rw [loadApplied] at hload
      split at hload
      · cases hload
      split at hload
      · cases hload
        exact .inl rfl
      · cases hload
    | ok loaded =>
      obtain ⟨applied, scan₁⟩ := loaded
      rw [hload] at hv
      obtain ⟨-, rfl⟩ := loadApplied_eq_ok.mp hload
      change (if _ then _ else _) = _ at hv
      split at hv
      · subst hv
        exact .inl rfl
      rw [handOut] at hv
      split at hv
      · subst hv
        exact .inl rfl
      split at hv
      · subst hv
        exact .inl rfl
      split at hv
      · subst hv
        exact .inl rfl
      have hpin : ∀ epoch s, (scan.db.outbox r.shard).pinSearchOutboxRecord r.key r.value = .ok (epoch, s) →
          scan.db.setShard r.shard s = scan.db.perform frames (.pin r.shard r.key r.value) := by
        intro epoch s hs
        rw [perform, onShard, hs]
        rfl
      split at hv
      · subst hv
        exact .inl rfl
      all_goals
        subst hv
        exact .inr ⟨_, .pin, hpin _ _ ‹_›⟩

theorem visit_other (h : scan.visit frames now limit maxBytes r = .ok scan') :
    scan'.db.chat = scan.db.chat ∧ ∀ i, i ≠ r.shard → scan'.db.outbox i = scan.db.outbox i := by
  have hleft := visit_section frames now limit maxBytes scan r
  rw [h] at hleft
  rcases hleft with heq | ⟨call, hcall, heq⟩
  · rw [show scan'.db = scan.db from heq]
    exact ⟨rfl, fun _ _ => rfl⟩
  · rw [show scan'.db = _ from heq]
    exact hcall.perform scan.db

end Scan
end WuKongIM.WKDB

import WuKongIM.WKDB.SearchOutboxScan

/-! The work that a pull of the search outbox hands out: what holds after each record of the scan,
and what follows for a whole pull. -/
namespace WuKongIM.WKDB
open Lib List Function Queued

/-- The keys of two records differ, or their databases do. -/
def Queued.Apart (r r' : Queued) : Prop := ¬(r.shard = r'.shard ∧ r.key = r'.key)

theorem Queued.filter_apart {done rest : List Queued} {r : Queued} (p : Queued → Bool)
    (hpair : (done ++ r :: rest).Pairwise Queued.Apart) :
    (done.filter p ++ r :: rest).filter (fun r' => !(r'.shard = r.shard && r'.key = r.key)) = done.filter p ++ rest := by
  obtain ⟨-, hrest, hdone⟩ := pairwise_append.mp hpair
  have hkeep : ∀ r' : Queued, r'.Apart r → (!(r'.shard = r.shard && r'.key = r.key)) := by
    intro r' hapart
    rw [Bool.not_eq_true', Bool.eq_false_iff]
    intro heq
    exact hapart (by simpa using heq)
  rw [filter_append, filter_cons_of_neg (by simp)]
  congr 1
  · exact filter_eq_self.mpr fun r' hr' => hkeep r' (hdone r' (mem_filter.mp hr').1 r mem_cons_self)
  · refine filter_eq_self.mpr fun r' hr' => hkeep r' ?_
    rintro ⟨hs, hk⟩
    exact (pairwise_cons.mp hrest).1 r' hr' ⟨hs.symm, hk.symm⟩

variable {frames : Frames} {r : Queued} {now : Queued → Int64} {limit : Int} {maxBytes : UInt64} {db₀ : OutboxDB}

namespace OutboxDB
variable {db db' : OutboxDB} {done rest : List Queued}

/-- The applied index of the record's channel is below the number of the record. -/
def beyond (frames : Frames) (db : OutboxDB) (r : Queued) : Bool :=
  match r.decode frames with
  | .error _ => false
  | .ok (identity, _) =>
    match db.getChannelAppliedIndex identity.channel with
    | .error _ => false
    | .ok applied => applied < identity.messageSeq

/-- What is handed out is the queued record of an active task, in its epoch, and the channel has
applied it. -/
structure HandedOut (frames : Frames) (db : OutboxDB) (r : Queued) (record : SearchOutboxRecord) : Prop where
  decode : r.decode frames = .ok (record.identity, record.message)
  state : (db.outbox r.shard).loadSearchOutboxState r.key = .ok (⟨record.epoch, .active⟩, true)
  applied : db.getChannelAppliedIndex record.identity.channel = .ok record.appliedIndex
  le : record.identity.messageSeq ≤ record.appliedIndex

theorem HandedOut.touch {record : SearchOutboxRecord} {r' : Queued}
    (h : db.HandedOut frames r' record) (ht : Touched r db db')
    (hapart : r'.Apart r) : db'.HandedOut frames r' record where
  decode := h.decode
  state := by
    have hrows := ht.rows r'.shard r'.key fun heq => hapart ⟨heq.1.symm, heq.2.symm⟩
    rw [OutboxShard.load_congr hrows.states]
    exact h.state
  applied := (ht.getChannelAppliedIndex _).trans h.applied
  le := h.le

def Moved (db : OutboxDB) (r : Queued) : Prop :=
  ∃ row, (db.outbox r.shard).quarantine.get r.key = some row ∧ row.rawKey = r.key ∧ row.rawValue = r.value

/-- The database after the scan has passed the records `done`. -/
structure Kept (frames : Frames) (db₀ : OutboxDB) (done rest : List Queued) (db : OutboxDB) : Prop where
  chat : db.chat = db₀.chat
  applied : ∀ c, db.getChannelAppliedIndex c = db₀.getChannelAppliedIndex c
  records : db.records = done.filter (Queued.usable frames) ++ rest
  moved : ∀ r ∈ done, r.usable frames = false → db.Moved r
  states : ∀ r ∈ rest, (db.outbox r.shard).states r.key = (db₀.outbox r.shard).states r.key

theorem Kept.queued (h : Kept frames db₀ done (r :: rest) db) : (db.outbox r.shard).queued.get r.key = some r.value := by
  have hmem : r ∈ db.records := by
    rw [h.records]
    exact mem_append_right _ mem_cons_self
  exact (mem_records.mp hmem).2

variable (h : Kept frames db₀ done (r :: rest) db) (hpair : (done ++ r :: rest).Pairwise Queued.Apart)
include h hpair

theorem Kept.touch (ht : Touched r db db') (hrecords : db'.records = (done ++ [r]).filter (usable frames) ++ rest)
    (hmoved : r.usable frames = false → db'.Moved r) : Kept frames db₀ (done ++ [r]) rest db' where
  chat := ht.chat.trans h.chat
  applied c := (ht.getChannelAppliedIndex c).trans (h.applied c)
  records := hrecords
  moved r' hr' hunusable := by
    rcases mem_append.mp hr' with hr' | hr'
    · obtain ⟨row, hrow, hbytes⟩ := h.moved r' hr' hunusable
      have hapart := (pairwise_append.mp hpair).2.2 r' hr' r mem_cons_self
      have hrows := ht.rows r'.shard r'.key fun heq => hapart ⟨heq.1.symm, heq.2.symm⟩
      exact ⟨row, hrows.quarantine.trans hrow, hbytes⟩
    · obtain rfl := mem_singleton.mp hr'
      exact hmoved hunusable
  states r' hr' := by
    have hapart := (pairwise_cons.mp (pairwise_append.mp hpair).2.1).1 r' hr'
    exact (ht.rows r'.shard r'.key hapart).states.trans (h.states r' (mem_cons_of_mem _ hr'))

theorem Kept.stay
    (ht : Touched r db db') (hqueued : ∀ i, (db'.outbox i).queued = (db.outbox i).queued)
    (husable : r.usable frames) : Kept frames db₀ (done ++ [r]) rest db' := by
  refine h.touch hpair ht ?_ ?_
  · rw [records_congr ht.chat hqueued, h.records, filter_append, filter_singleton, husable, append_assoc]
    rfl
  · rw [husable]
    nofun

theorem Kept.putAside
    (hunusable : r.usable frames = false) (state : SearchOutboxState) (reason : QuarantineReason)
    (now : Int64) : Kept frames db₀ (done ++ [r]) rest
      (db.setShard r.shard ((db.outbox r.shard).putAside r.shard r.key r.value state reason now)) := by
  have ht := @touched_putAside db r state reason now
  have hi : ((db.setShard r.shard ((db.outbox r.shard).putAside r.shard r.key r.value state reason now)).outbox r.shard).queued =
      (db.outbox r.shard).queued.erase r.key := by
    rw [outbox_setShard_self]
    rfl
  refine h.touch hpair ht ?_ ?_
  · rw [records_erase ht.chat hi fun j hj => congrArg OutboxShard.queued (ht.other j hj), h.records,
      filter_apart _ hpair, filter_append, filter_singleton, hunusable]
    exact congrArg (· ++ rest) (append_nil _).symm
  intro _
  let row : SearchOutboxQuarantineRecord :=
    ⟨r.shard, (parseSearchOutboxKey r.key).toOption, r.key, r.value, state.epoch, some reason, now⟩
  refine ⟨row, ?_, rfl, rfl⟩
  rw [outbox_setShard_self]
  exact (Table.get_set ..).trans (if_pos rfl)

end OutboxDB

namespace Scan
open OutboxDB
variable {done rest : List Queued} {scan scan' : Scan} {identity : SearchOutboxIdentity} {message : Message} {applied : UInt64}

/-- The counts after the scan has passed the records `done`. -/
structure Counted (frames : Frames) (db₀ : OutboxDB) (done : List Queued) (scan : Scan) : Prop where
  pending : scan.result.pending = (done.filter (Queued.usable frames)).length
  blocked : scan.result.appliedBlocked = (done.filter (db₀.beyond frames)).length
  memo : ∀ c applied, scan.appliedByChannel c = some applied → db₀.getChannelAppliedIndex c = .ok applied

/-- What has been handed out by then, each record with the queued one that it was made of. -/
structure Within (frames : Frames) (limit : Int) (maxBytes : UInt64) (done : List Queued) (scan : Scan) : Prop where
  handed : ∃ handed : List (Queued × SearchOutboxRecord), handed.map Prod.snd = scan.result.records ∧
    (handed.map Prod.fst).Sublist (done.filter (Queued.usable frames)) ∧
    (∀ e ∈ handed, scan.db.HandedOut frames e.1 e.2) ∧
    scan.usedBytes.toNat = (handed.map fun e => e.1.recordBytes).sum
  used : scan.usedBytes ≤ maxBytes
  count : scan.result.records.length ≤ limit

section
variable (h : Counted frames db₀ done scan)
include h

theorem Counted.knows (hk : Kept frames db₀ done rest scan.db) {c : Channel}
    (hknows : scan.Knows c applied) : db₀.getChannelAppliedIndex c = .ok applied := by
  rcases hknows with hmemo | ⟨-, hread⟩
  · exact h.memo c applied hmemo
  · rw [← hk.applied]
    exact hread

theorem Counted.count (hd : r.decode frames = .ok (identity, message))
    (hread : db₀.getChannelAppliedIndex identity.channel = .ok applied)
    (hpending : scan'.result.pending = scan.result.pending + 1)
    (hblocked : scan'.result.appliedBlocked = scan.result.appliedBlocked + if applied < identity.messageSeq then 1 else 0)
    (hmemo : scan'.appliedByChannel = Function.update scan.appliedByChannel identity.channel (some applied)) :
    Counted frames db₀ (done ++ [r]) scan' where
  pending := by
    rw [hpending, h.pending, filter_append, length_append, filter_singleton, usable, hd]
    rfl
  blocked := by
    rw [hblocked, h.blocked, filter_append, filter_singleton, beyond, hd]
    simp only [hread]
    by_cases hlt : applied < identity.messageSeq <;> simp [hlt]
  memo c applied' hc := by
    rw [hmemo] at hc
    by_cases heq : c = identity.channel
    · subst heq
      rw [update_self] at hc
      cases hc
      exact hread
    · rw [update_of_ne heq] at hc
      exact h.memo c applied' hc

theorem Counted.skip {reason : QuarantineReason} (hd : r.decode frames = .error reason)
    (hresult : scan'.result = scan.result) (hmemo : scan'.appliedByChannel = scan.appliedByChannel) :
    Counted frames db₀ (done ++ [r]) scan' where
  pending := by
    rw [hresult, h.pending, filter_append, filter_singleton, usable, hd]
    exact congrArg length (append_nil _).symm
  blocked := by
    rw [hresult, h.blocked, filter_append, filter_singleton, beyond, hd]
    exact congrArg length (append_nil _).symm
  memo := hmemo ▸ h.memo

end

theorem Within.skip (h : Within frames limit maxBytes done scan) (hapart : ∀ r' ∈ done, r'.Apart r)
    (ht : Touched r scan.db scan'.db) (hrecords : scan'.result.records = scan.result.records)
    (hused : scan'.usedBytes = scan.usedBytes) : Within frames limit maxBytes (done ++ [r]) scan' where
  handed := by
    obtain ⟨handed, hmap, hsub, hout, hsum⟩ := h.handed
    refine ⟨handed, hmap.trans hrecords.symm, hsub.trans ?_, ?_, hused ▸ hsum⟩
    · rw [filter_append]
      exact sublist_append_left ..
    · intro e he
      have hmem : e.1 ∈ done := (mem_filter.mp (hsub.subset (mem_map_of_mem he))).1
      exact (hout e he).touch ht (hapart e.1 hmem)
  used := hused ▸ h.used
  count := hrecords ▸ h.count

/-- The next record is handed out, within what is left of the budget: the budget less the bytes used
does not fall below zero. -/
theorem Within.hand {state : SearchOutboxState} {found : Bool} (h : Within frames limit maxBytes done scan)
    (hapart : ∀ r' ∈ done, r'.Apart r) (hd : r.decode frames = .ok (identity, message))
    (hload : (scan.db.outbox r.shard).loadSearchOutboxState r.key = .ok (state, found)) (hactive : state.status = .active)
    (hread : scan.db.getChannelAppliedIndex identity.channel = .ok applied) (hle : ¬applied < identity.messageSeq)
    (hlimit : scan.result.records.length ≠ limit) (hbytes : r.recordBytes ≤ (maxBytes - scan.usedBytes).toNat) :
    Within frames limit maxBytes (done ++ [r]) (scan.handed r identity message applied state found) := by
  have husable : r.usable frames := by
    rw [usable, hd]
    rfl
  have ht : Touched r scan.db (scan.handed r identity message applied state found).db := touched_pin r state found
  have hstate : ((scan.handed r identity message applied state found).db.outbox r.shard).loadSearchOutboxState r.key =
      .ok (⟨state.epoch, .active⟩, true) := by
    have hself : (scan.handed r identity message applied state found).db.outbox r.shard =
        if found then scan.db.outbox r.shard else (scan.db.outbox r.shard).setState r.key state := outbox_setShard_self
    have heq : ⟨state.epoch, .active⟩ = state := by
      rw [← hactive]
    rw [hself, heq]
    cases found with
    | true => exact hload
    | false => exact OutboxShard.load_setState_self (OutboxShard.epoch_of_load hload)
  have hsub : (maxBytes - scan.usedBytes).toNat = maxBytes.toNat - scan.usedBytes.toNat := UInt64.toNat_sub_of_le _ _ h.used
  have hmax := maxBytes.toNat_lt
  have hused := UInt64.le_iff_toNat_le.mp h.used
  have hadd : (scan.usedBytes + UInt64.ofNat r.recordBytes).toNat = scan.usedBytes.toNat + r.recordBytes := by
    rw [UInt64.toNat_add, UInt64.toNat_ofNat']
    omega
  obtain ⟨handed, hmap, hsublist, hout, hsum⟩ := h.handed
  refine ⟨⟨handed ++ [(r, ⟨state.epoch, identity, message, applied⟩)], ?_, ?_, ?_, ?_⟩, ?_, ?_⟩
  · rw [map_append, hmap]
    rfl
  · rw [map_append, filter_append, filter_singleton, husable]
    exact hsublist.append_right _
  · intro e he
    rcases mem_append.mp he with he | he
    · have hmem : e.1 ∈ done := (mem_filter.mp (hsublist.subset (mem_map_of_mem he))).1
      exact (hout e he).touch ht (hapart e.1 hmem)
    · obtain rfl := mem_singleton.mp he
      exact ⟨hd, hstate, (ht.getChannelAppliedIndex _).trans hread, UInt64.not_lt.mp hle⟩
  · rw [map_append, sum_append, ← hsum]
    exact hadd
  · change (scan.usedBytes + UInt64.ofNat r.recordBytes).toNat ≤ maxBytes.toNat
    omega
  · have hcount := h.count
    change (scan.result.records ++ [_]).length ≤ limit
    rw [length_append, length_singleton]
    omega

/-- The scan after the records `done`, with `rest` still to come. -/
structure Progress (frames : Frames) (limit : Int) (maxBytes : UInt64) (db₀ : OutboxDB)
    (done rest : List Queued) (scan : Scan) :
    Prop where
  kept : Kept frames db₀ done rest scan.db
  counted : Counted frames db₀ done scan
  within : Within frames limit maxBytes done scan

theorem Progress.visit (h : Progress frames limit maxBytes db₀ done (r :: rest) scan)
    (hpair : (done ++ r :: rest).Pairwise Queued.Apart) (hv : scan.visit frames now limit maxBytes r = .ok scan') :
    Progress frames limit maxBytes db₀ (done ++ [r]) rest scan' := by
  have hapart : ∀ r' ∈ done, r'.Apart r := fun r' hr' => (pairwise_append.mp hpair).2.2 r' hr' r mem_cons_self
  cases hd : r.decode frames with
  | error reason =>
    obtain ⟨state, found, -, -, rfl⟩ := (visit_of_unusable h.kept.queued hd).mp hv
    have hunusable : r.usable frames = false := by
      rw [usable, hd]
      rfl
    exact ⟨h.kept.putAside hpair hunusable state reason (now r), h.counted.skip hd rfl rfl,
      h.within.skip hapart (touched_putAside r state reason (now r)) rfl rfl⟩
  | ok decoded =>
    obtain ⟨identity, message⟩ := decoded
    have husable : r.usable frames := by
      rw [usable, hd]
      rfl
    have hstay := h.kept.stay hpair (.refl r _) (fun _ => rfl) husable
    obtain ⟨applied, hknows, hv⟩ := (visit_of_usable hd).mp hv
    have hread := h.counted.knows h.kept hknows
    split at hv
    · rename_i hlt
      subst hv
      exact ⟨hstay, h.counted.count hd hread rfl (by rw [if_pos hlt]; rfl) rfl, h.within.skip hapart (.refl r _) rfl rfl⟩
    rename_i hlt
    have hnone : scan.result.appliedBlocked =
        scan.result.appliedBlocked + if applied < identity.messageSeq then 1 else 0 := by
      rw [if_neg hlt]
      rfl
    have hqueued : ((scan.counted identity.channel applied message).db.outbox r.shard).queued.get r.key = some r.value :=
      h.kept.queued
    rcases handOut_cases hqueued hv with ⟨stopped, rfl⟩ | ⟨state, found, hload, hactive, hlimit, hbytes, rfl⟩
    · exact ⟨hstay, h.counted.count hd hread rfl hnone rfl, h.within.skip hapart (.refl r _) rfl rfl⟩
    have ht := @touched_pin scan.db r state found
    refine ⟨h.kept.stay hpair ht ?_ husable, h.counted.count hd hread rfl hnone rfl, ?_⟩
    · intro i
      by_cases hi : i = r.shard
      · subst hi
        refine (congrArg OutboxShard.queued outbox_setShard_self).trans ?_
        cases found <;> rfl
      · exact congrArg OutboxShard.queued (ht.other i hi)
    · have hwithin : Within frames limit maxBytes done (scan.counted identity.channel applied message) :=
        { h.within with }
      exact hwithin.hand hapart hd hload hactive ((h.kept.applied _).trans hread) hlt hlimit hbytes

theorem Progress.foldlM (h : Progress frames limit maxBytes db₀ done rest scan)
    (hpair : (done ++ rest).Pairwise Queued.Apart)
    (hv : rest.foldlM (Scan.visit frames now limit maxBytes) scan = .ok scan') :
    Progress frames limit maxBytes db₀ (done ++ rest) [] scan' := by
  induction rest generalizing done scan with
  | nil =>
    cases hv
    rw [append_nil]
    exact h
  | cons r rest ih =>
    obtain ⟨scan₁, hr, hv⟩ := bind_eq_ok.mp hv
    have hstep := h.visit hpair hr
    rw [append_cons] at hpair ⊢
    exact ih hstep hpair hv

/-- A record whose task is active, and whose channel's applied index can be read, does not stop the
scan. -/
def Passable (frames : Frames) (db : OutboxDB) (r : Queued) : Prop :=
  (∃ state found, (db.outbox r.shard).loadSearchOutboxState r.key = .ok (state, found) ∧ state.status = .active) ∧
  ∀ identity message, r.decode frames = .ok (identity, message) →
    ∃ applied, db.getChannelAppliedIndex identity.channel = .ok applied

theorem Progress.visit_ok (now : Queued → Int64)
    (h : Progress frames limit maxBytes db₀ done (r :: rest) scan) (hr : Passable frames db₀ r) :
    ∃ scan', scan.visit frames now limit maxBytes r = .ok scan' := by
  obtain ⟨⟨state, found, hload, hactive⟩, happlied⟩ := hr
  rw [← OutboxShard.load_congr (h.kept.states r mem_cons_self)] at hload
  cases hd : r.decode frames with
  | error reason => exact ⟨_, (visit_of_unusable h.kept.queued hd).mpr ⟨state, found, hload, hactive, rfl⟩⟩
  | ok decoded =>
    obtain ⟨identity, message⟩ := decoded
    obtain ⟨applied, hread⟩ := happlied identity message hd
    have hknows : ∃ applied, scan.Knows identity.channel applied := by
      cases hmemo : scan.appliedByChannel identity.channel with
      | some a => exact ⟨a, .inl hmemo⟩
      | none => exact ⟨applied, .inr ⟨hmemo, (h.kept.applied _).trans hread⟩⟩
    obtain ⟨applied, hknows⟩ := hknows
    by_cases hlt : applied < identity.messageSeq
    · refine ⟨(scan.counted identity.channel applied message).countBlocked, (visit_of_usable hd).mpr ⟨applied, hknows, ?_⟩⟩
      rw [if_pos hlt]
    obtain ⟨scan', hscan⟩ : ∃ scan', (scan.counted identity.channel applied message).handOut limit maxBytes r identity message applied =
        .ok scan' := handOut_ok h.kept.queued hload hactive
    refine ⟨scan', (visit_of_usable hd).mpr ⟨applied, hknows, ?_⟩⟩
    rw [if_neg hlt]
    exact hscan

theorem Progress.foldlM_ok (now : Queued → Int64)
    (h : Progress frames limit maxBytes db₀ done rest scan)
    (hpair : (done ++ rest).Pairwise Queued.Apart) (hrest : ∀ r ∈ rest, Passable frames db₀ r) :
      ∃ scan', rest.foldlM (Scan.visit frames now limit maxBytes) scan = .ok scan' := by
  induction rest generalizing done scan with
  | nil => exact ⟨scan, rfl⟩
  | cons r rest ih =>
    obtain ⟨scan₁, hr⟩ := h.visit_ok now (hrest r mem_cons_self)
    have hstep := h.visit hpair hr
    rw [append_cons] at hpair
    obtain ⟨scan', hscan⟩ := ih hstep hpair fun r' hr' => hrest r' (mem_cons_of_mem _ hr')
    exact ⟨scan', bind_eq_ok.mpr ⟨scan₁, hr, hscan⟩⟩

/-- The iterators are opened one after the other, but what one of them finds is what was queued at
the start: the records before it are those of other databases. -/
theorem visitShards_eq {shards : List Nat} (hnodup : shards.Nodup) (scan : Scan) :
    shards.foldlM (visitShard frames now limit maxBytes) scan =
      (shards.flatMap scan.db.recordsOf).foldlM (Scan.visit frames now limit maxBytes) scan := by
  induction shards generalizing scan with
  | nil => rfl
  | cons i shards ih =>
    obtain ⟨hi, hnodup⟩ := nodup_cons.mp hnodup
    rw [flatMap_cons, foldlM_append]
    change ((scan.db.recordsOf i).foldlM (visit frames now limit maxBytes) scan >>= _) = _
    cases hscan : (scan.db.recordsOf i).foldlM (visit frames now limit maxBytes) scan with
    | error e => rfl
    | ok scan₁ =>
      have hother : ∀ j, j ≠ i → scan₁.db.outbox j = scan.db.outbox j := by
        refine foldlM_ok (fun u : Scan => ∀ j, j ≠ i → u.db.outbox j = scan.db.outbox j) ?_ (fun _ _ => rfl) hscan
        intro u r hr v hu hv j hj
        rw [(visit_other hv).2 j ((mem_recordsOf.mp hr).1 ▸ hj), hu j hj]
      have hrecords : ∀ j ∈ shards, scan₁.db.recordsOf j = scan.db.recordsOf j := by
        intro j hj
        rw [recordsOf, recordsOf, hother j fun heq => hi (heq ▸ hj)]
      change shards.foldlM _ scan₁ = (shards.flatMap scan.db.recordsOf).foldlM _ scan₁
      rw [ih hnodup, flatMap_congr hrecords]

theorem progress_start (frames : Frames) (db : OutboxDB) (h : 1 ≤ limit) :
    Progress frames limit maxBytes db [] db.records { db } where
  kept := ⟨rfl, fun _ => rfl, rfl, nofun, fun _ _ => rfl⟩
  counted := ⟨rfl, rfl, nofun⟩
  within := ⟨⟨[], rfl, nil_sublist _, nofun, rfl⟩, UInt64.zero_le, by change 0 ≤ limit; omega⟩

end Scan

namespace OutboxDB
open Scan
variable {db db' : OutboxDB} {result : SearchOutboxPullResult}

/-- The result of a pull against the content before and after it. -/
structure Pulled (frames : Frames) (limit : Int) (maxBytes : UInt64) (db : OutboxDB) (result : SearchOutboxPullResult)
    (db' : OutboxDB) : Prop where
  count : result.records.length ≤ limit
  handed : ∃ handed : List (Queued × SearchOutboxRecord), handed.map Prod.snd = result.records ∧
    (handed.map Prod.fst).Sublist db'.records ∧ (∀ e ∈ handed, db'.HandedOut frames e.1 e.2) ∧
    (handed.map fun e => e.1.recordBytes).sum ≤ maxBytes.toNat
  pending : result.pending = db'.records.length
  blocked : result.appliedBlocked = (db'.records.filter (db'.beyond frames)).length
  quarantined : result.quarantined = db'.countSearchOutboxQuarantine
  queued : db'.records = db.records.filter (Queued.usable frames)
  moved : ∀ r ∈ db.records, r.usable frames = false → db'.Moved r

/-- Only usable records can be beyond an applied index. -/
theorem filter_beyond (h : ∀ c, db'.getChannelAppliedIndex c = db.getChannelAppliedIndex c) (rs : List Queued) :
    (rs.filter (usable frames)).filter (db'.beyond frames) = rs.filter (db.beyond frames) := by
  rw [filter_filter]
  refine filter_congr fun r _ => ?_
  rw [beyond, beyond, usable]
  cases r.decode frames with
  | error reason => rfl
  | ok decoded =>
    dsimp only
    rw [h]
    exact Bool.and_true _

theorem pulled_of_progress {scan : Scan} (h : Progress frames limit maxBytes db db.records [] scan)
    (oldestCreatedAt : Int64) : Pulled frames limit maxBytes db
      { scan.result with quarantined := scan.db.countSearchOutboxQuarantine, oldestCreatedAt } scan.db := by
  have hrecords : scan.db.records = db.records.filter (usable frames) := h.kept.records.trans (append_nil _)
  obtain ⟨handed, hmap, hsub, hout, hsum⟩ := h.within.handed
  refine ⟨h.within.count, ⟨handed, hmap, hrecords ▸ hsub, hout, ?_⟩, ?_, ?_, rfl, hrecords, h.kept.moved⟩
  · rw [← hsum]
    exact UInt64.le_iff_toNat_le.mp h.within.used
  · rw [hrecords]
    exact h.counted.pending
  · rw [hrecords, filter_beyond h.kept.applied]
    exact h.counted.blocked

/-- For every content of the outbox: a pull that returns a result has handed out applied work of
active tasks within its limit and its budget, has counted what is left, and has put aside what
cannot be handed out; and a pull with a limit and a budget that are allowed returns a result if the
task of every queued record is active and the applied indexes can be read. -/
theorem pull_search_outbox (frames : Frames) (now : Queued → Int64) (db : OutboxDB) (limit : Int) (maxBytes : UInt64) :
    (∀ result db', db.pullSearchOutbox frames now limit maxBytes = .ok (result, db') →
      Pulled frames limit maxBytes db result db') ∧
    (1 ≤ limit ∧ limit ≤ maxSearchOutboxPullLimit ∧ 0 < maxBytes → (∀ r ∈ db.records, Passable frames db r) →
      ∃ result db', db.pullSearchOutbox frames now limit maxBytes = .ok (result, db')) := by
  have hpair : ([] ++ db.records).Pairwise Queued.Apart := db.pairwise_records
  have hscan := @visitShards_eq frames now limit maxBytes _ (nodup_range (n := db.chat.shardNum)) { db }
  constructor
  · intro result db' h
    rw [pullSearchOutbox] at h
    split at h
    · cases h
    split at h
    · cases h
    obtain ⟨scan, hv, h⟩ := bind_eq_ok.mp h
    cases h
    rw [hscan] at hv
    have hstart := @progress_start limit maxBytes frames db (by omega)
    exact pulled_of_progress (hstart.foldlM hpair hv) _
  · rintro ⟨hone, hmax, hbytes⟩ hrecords
    have hstart := @progress_start limit maxBytes frames db hone
    obtain ⟨scan, hv⟩ := hstart.foldlM_ok now hpair hrecords
    rw [pullSearchOutbox, if_neg (by omega), if_neg (UInt64.pos_iff_ne_zero.mp hbytes), hscan]
    exact ⟨_, _, bind_eq_ok.mpr ⟨scan, hv, rfl⟩⟩

theorem foldlM_visit_run {all : List Queued} (rs : List Queued) (hrs : rs ⊆ all) (scan : Scan) :
    ∃ calls, (∀ call ∈ calls, ∃ r ∈ all, OnRecord r call) ∧
      left Scan.db (rs.foldlM (Scan.visit frames now limit maxBytes) scan) = scan.db.run frames calls := by
  induction rs generalizing scan with
  | nil => exact ⟨[], forall_mem_nil _, rfl⟩
  | cons r rs ih =>
    obtain ⟨hr, hrs⟩ := cons_subset.mp hrs
    rw [foldlM_cons]
    have hone := visit_section frames now limit maxBytes scan r
    cases hv : scan.visit frames now limit maxBytes r with
    | error e =>
      rw [hv] at hone
      rcases hone with heq | ⟨call, hon, heq⟩
      · exact ⟨[], forall_mem_nil _, heq⟩
      · exact ⟨[call], forall_mem_singleton.mpr ⟨r, hr, hon⟩, heq⟩
    | ok scan₁ =>
      rw [hv] at hone
      obtain ⟨calls, hcalls, hrun⟩ := ih hrs scan₁
      rcases hone with heq | ⟨call, hon, heq⟩
      · exact ⟨calls, hcalls, hrun.trans (congrArg (run frames · calls) heq)⟩
      · exact ⟨call :: calls, forall_mem_cons.mpr ⟨⟨r, hr, hon⟩, hcalls⟩, hrun.trans (congrArg (run frames · calls) heq)⟩

/-- A pull that runs alone is a run of sections for its records, so what every run keeps is kept by
it. -/
theorem pullSearchOutbox_run (frames : Frames) (now : Queued → Int64) (db : OutboxDB) (limit : Int)
    (maxBytes : UInt64) : ∃ calls, (∀ call ∈ calls, ∃ r ∈ db.records, OnRecord r call) ∧
      left Prod.snd (db.pullSearchOutbox frames now limit maxBytes) = db.run frames calls := by
  rw [pullSearchOutbox]
  iterate 2
    split
    · exact ⟨[], forall_mem_nil _, rfl⟩
  rw [visitShards_eq nodup_range]
  obtain ⟨calls, hcalls, hrun⟩ := @foldlM_visit_run frames now limit maxBytes _ db.records (Subset.refl _) { db }
  refine ⟨calls, hcalls, ?_⟩
  rw [← hrun]
  change left Prod.snd ((db.records.foldlM (visit frames now limit maxBytes) { db }) >>= _) = _
  cases db.records.foldlM (visit frames now limit maxBytes) { db } <;> rfl

private def fetched : Message :=
  { messageID := 7, messageSeq := 1, channelID := [103], channelType := 2, timestamp := 1, searchOutbox := true }

private def fetchedFrames : Frames where
  latestVersion := 4
  encodeFrame _ := some []
  decodeFrame _ _ := some fetched
  binary := takeBytes 0

private def fetchedRecord : Queued where
  shard := 0
  key := [0x1B, 1, 1, 0, 2, 0, 1, 103, 0, 0, 0, 0, 0, 0, 0, 1, 0, 0, 0, 0, 0, 0, 0, 7]
  value := [104, 1, 0, 0, 0, 0, 0, 0, 0, 0, 0, 0, 0, 0, 1]

private def waiting : OutboxDB where
  chat := { shardNum := 1, pos := Nat.one_pos }
  outbox _ :=
    { queued := Table.empty.set fetchedRecord.key fetchedRecord.value |>.set [0x1B, 1, 1, 0, 9] []
      applied := fun _ => some (bigEndian 8 1) }

theorem pull_search_outbox_waiting : ∃ result db', waiting.pullSearchOutbox fetchedFrames (fun _ =>
    5) 10 100 = .ok (result, db') ∧
    Pulled fetchedFrames 10 100 waiting result db' ∧
      (result.records.length, result.pending, result.quarantined) = (1, 1, 1) := by
  obtain ⟨hpulled, hok⟩ := pull_search_outbox fetchedFrames (fun _ => 5) waiting 10 100
  have hpass : ∀ r ∈ waiting.records, Passable fetchedFrames waiting r := fun r _ =>
    ⟨⟨⟨1, .active⟩, false, rfl, rfl⟩, fun _ _ _ => ⟨1, rfl⟩⟩
  obtain ⟨result, db', h⟩ := hok (by decide) hpass
  have hnumbers : ((waiting.pullSearchOutbox fetchedFrames (fun _ => 5) 10 100).toOption.map fun e =>
      (e.1.records.length, e.1.pending, e.1.quarantined)) = some (1, 1, 1) := by
    decide +kernel
  rw [h] at hnumbers
  exact ⟨result, db', h, hpulled result db' h, Option.some.inj hnumbers⟩

private def stuck : OutboxDB where
  chat := { shardNum := 1, pos := Nat.one_pos }
  outbox _ :=
    { queued := Table.empty.set fetchedRecord.key []
      states := fun _ => some (SearchOutboxState.marshal ⟨1, .acknowledged⟩) }

/-- A pull does not return where a record that cannot be handed out belongs to a task that is not
active: it fails, and the record stays in the queue. -/
theorem pull_search_outbox_fails : ∃ (db : OutboxDB) (r : Queued) (limit : Int) (maxBytes : UInt64),
    1 ≤ limit ∧ limit ≤ maxSearchOutboxPullLimit ∧ 0 < maxBytes ∧ r ∈ db.records ∧
      ∀ (frames : Frames) (now : Queued → Int64),
      r.usable frames = false ∧ db.pullSearchOutbox frames now limit maxBytes = .error (.state, db) := by
  refine ⟨stuck, { fetchedRecord with value := [] }, 1, 1, by decide, by decide, by decide, by decide, ?_⟩
  intro frames now
  exact ⟨rfl, rfl⟩

end OutboxDB
end WuKongIM.WKDB

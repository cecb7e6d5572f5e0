import WuKongIM.WKDB.MessageLog

/-! The range readers against the log of a channel. -/
namespace WuKongIM.WKDB
open Lib List
namespace Stored

variable {channels : Channel → Prop} {s t : Stored} {c : Channel} {limit : Nat}

theorem RowsSound.newIter (h : s.RowsSound channels) (hc : channels c) (a b : UInt64) :
    (s.db.channelDb c).newIter (primaryKey (channelToNum c) a) (primaryKey (channelToNum c) b) =
      layout (channelToNum c) ((s.of c).filter fun m => a ≤ m.messageSeq.toUInt64 && m.messageSeq.toUInt64 < b) := by
  rw [newIter_primaryKey, h.rows c hc, filter_layout (channelToNum c) fun q => a ≤ q && q < b]

/-- Looking up the last number changes nothing but its cache. -/
theorem lastSeq_same (db : WukongDB) (c : Channel) :
    (db.getChannelLastMessageSeq c).2.shardNum = db.shardNum ∧ (db.getChannelLastMessageSeq c).2.dbs = db.dbs ∧
      (db.getChannelLastMessageSeq c).2.userLastMsgSeqCache = db.userLastMsgSeqCache := by
  rw [WukongDB.getChannelLastMessageSeq]
  split
  · exact ⟨rfl, rfl, rfl⟩
  · split <;> exact ⟨rfl, rfl, rfl⟩

theorem RowsSound.loadRange (h : s.RowsSound channels) (hc : channels c) (minSeq maxSeq : UInt64) (limit : Nat) :
    (s.db.loadRange c minSeq maxSeq limit).1 = .ok (takeLimit limit (forgetFirstHeader
      ((s.of c).filter fun m => minSeq ≤ m.messageSeq.toUInt64 && m.messageSeq.toUInt64 < maxSeq))) := by
  have hlast := h.getChannelLastMessageSeq hc
  generalize hq : s.db.getChannelLastMessageSeq c = q at hlast
  have hdb : q.2.channelDb c = s.db.channelDb c := by
    obtain ⟨hn, hdbs, -⟩ := lastSeq_same s.db c
    rw [← hq, WukongDB.channelDb, WukongDB.channelDbIndex, hn, hdbs]
    rfl
  have hcut : ((s.of c).filter fun m => minSeq ≤ m.messageSeq.toUInt64 &&
      m.messageSeq.toUInt64 < if maxSeq > q.1 then q.1 + 1 else maxSeq) =
      (s.of c).filter fun m => minSeq ≤ m.messageSeq.toUInt64 && m.messageSeq.toUInt64 < maxSeq := by
    refine filter_congr fun m hm => ?_
    have hb := ((h.follow c hc).bounds m hm).2
    split
    · rename_i hgt
      have hlt : q.1.toNat < maxSeq.toNat := UInt64.lt_iff_toNat_lt.mp hgt
      have hmax := maxSeq.toNat_lt
      have h1 : m.messageSeq.toUInt64 < q.1 + 1 := by
        rw [UInt64.lt_iff_toNat_lt, UInt32.toNat_toUInt64, toNat_succ (by omega)]
        omega
      have h2 : m.messageSeq.toUInt64 < maxSeq := by
        rw [UInt64.lt_iff_toNat_lt, UInt32.toNat_toUInt64]
        omega
      rw [decide_eq_true h1, decide_eq_true h2]
    · rfl
  simp only [WukongDB.loadRange, hq, hdb, h.newIter hc, hcut]
  exact iterator_all limit _ _ ((h.follow c hc).ordered.filter _)

theorem map_takeLimit (hl : 1 ≤ limit) (msgs : List Message) :
    (takeLimit limit (forgetFirstHeader msgs)).map Message.withoutHeader = (msgs.take limit).map Message.withoutHeader := by
  rw [takeLimit, if_neg (by omega), map_take, map_forgetFirstHeader, map_take]

theorem RowsSound.loadPrevRangeMsgs (h : s.RowsSound channels) (hc : channels c) {start stop : UInt64}
    (hs : 1 ≤ start.toNat) (he : stop = 0 ∨ stop ≤ start) (hl : 1 ≤ limit) (ho : start.toNat + 1 < 2 ^ 64) :
    (s.db.loadPrevRangeMsgs c start stop limit).1 = .ok (takeLimit limit (forgetFirstHeader ((s.of c).filter fun m =>
      max (max (stop.toNat + 1) (start.toNat + 1 - limit)) 1 ≤ m.messageSeq.toNat && m.messageSeq.toNat ≤ start.toNat))) := by
  have hs0 : start ≠ 0 := by
    rintro rfl
    exact absurd hs (by decide)
  have he' : ¬ (stop ≠ 0 ∧ stop > start) := by
    rintro ⟨hne, hgt⟩
    rcases he with he | he
    · exact hne he
    · exact UInt64.not_lt.mpr he hgt
  rw [WukongDB.loadPrevRangeMsgs, if_neg hs0, if_neg he', h.loadRange hc]
  congr 3
  refine filter_congr fun m _ => ?_
  -- the lower bound as a number
  generalize hmin : (if stop = 0 then if start.toNat < limit then 1 else start - UInt64.ofNat limit + 1
    else if (start - stop).toNat > limit then start - UInt64.ofNat limit + 1 else stop + 1) = minSeq
  have hsub (hle : limit ≤ start.toNat) : (start - UInt64.ofNat limit + 1).toNat = start.toNat - limit + 1 := by
    have hof : (UInt64.ofNat limit).toNat = limit := UInt64.toNat_ofNat_of_lt (lt_of_le_of_lt hle start.toNat_lt)
    have hd : (start - UInt64.ofNat limit).toNat = start.toNat - limit := by
      rw [UInt64.toNat_sub_of_le _ _ (by rw [UInt64.le_iff_toNat_le, hof]; exact hle), hof]
    rw [toNat_succ (by omega), hd]
  have hbound : minSeq.toNat = max (max (stop.toNat + 1) (start.toNat + 1 - limit)) 1 := by
    rw [← hmin]
    by_cases hz : stop = 0
    · subst hz
      rw [if_pos rfl]
      change _ = max (max (0 + 1) _) 1
      split
      · change 1 = _
        omega
      · omega
    · rw [if_neg hz]
      have hle : stop ≤ start := he.resolve_left hz
      have hd := UInt64.toNat_sub_of_le _ _ hle
      have hle := UInt64.le_iff_toNat_le.mp hle
      split
      · omega
      · rw [toNat_succ (by omega)]
        omega
  rw [Bool.eq_iff_iff]
  simp only [Bool.and_eq_true, decide_eq_true_eq, UInt64.le_iff_toNat_le, UInt64.lt_iff_toNat_lt,
    UInt32.toNat_toUInt64, hbound, toNat_succ ho]
  omega

theorem next_window (start stop : UInt64) (m : Message) :
    (start ≤ m.messageSeq.toUInt64 && m.messageSeq.toUInt64 < if stop = 0 then maxUint64 else stop : Bool) =
      (start.toNat ≤ m.messageSeq.toNat && (stop = 0 || m.messageSeq.toNat < stop.toNat)) := by
  have hm := m.messageSeq.toNat_lt
  have hmax : maxUint64.toNat = 2 ^ 64 - 1 := rfl
  rw [Bool.eq_iff_iff]
  simp only [Bool.and_eq_true, Bool.or_eq_true, decide_eq_true_eq, UInt64.le_iff_toNat_le,
    UInt64.lt_iff_toNat_lt, UInt32.toNat_toUInt64]
  split
  · rename_i hz
    simp only [hz, true_or, and_true]
    omega
  · rename_i hz
    simp only [hz, false_or]

theorem RowsSound.loadNextRangeMsgs (h : s.RowsSound channels) (hc : channels c) (start stop : UInt64) (limit : Nat) :
    (s.db.loadNextRangeMsgs c start stop limit).1 = .ok (takeLimit limit (forgetFirstHeader ((s.of c).filter fun m =>
      start.toNat ≤ m.messageSeq.toNat && (stop = 0 || m.messageSeq.toNat < stop.toNat)))) := by
  rw [WukongDB.loadNextRangeMsgs, h.loadRange hc]
  congr 3
  exact filter_congr fun m _ => next_window start stop m

/-- After any appends and truncations the stored messages of a channel are numbered from one on, and
the range queries return the requested windows of them in that order. -/
theorem range_windows (ha : Apart channels) (h : Reached channels s) (hc : channels c) (start stop : UInt64) (limit : Nat)
    (hs : 1 ≤ start.toNat) (he : stop = 0 ∨ stop ≤ start) (hl : 1 ≤ limit)
    (ho : start.toNat + 1 < 2 ^ 64) : Follow 0 (s.of c) ∧
    (∃ msgs, (s.db.loadPrevRangeMsgs c start stop limit).1 = .ok msgs ∧ msgs.map Message.withoutHeader =
      ((s.of c).filter fun m => max (max (if stop = 0 then 1 else stop.toNat + 1) (start.toNat + 1 - limit)) 1 ≤
          m.messageSeq.toNat && m.messageSeq.toNat ≤ min start.toNat (s.of c).length).map Message.withoutHeader) ∧
    ∀ stop' : UInt64, ∃ msgs, (s.db.loadNextRangeMsgs c start stop' limit).1 = .ok msgs ∧ msgs.map Message.withoutHeader =
      (((s.of c).filter fun m => start.toNat ≤ m.messageSeq.toNat && m.messageSeq.toNat ≤ (s.of c).length &&
          (stop' = 0 || m.messageSeq.toNat < stop'.toNat)).take limit).map Message.withoutHeader := by
  have hsound := h.rowsSound ha
  have hfollow := hsound.follow c hc
  refine ⟨hfollow, ⟨_, hsound.loadPrevRangeMsgs hc hs he hl ho, ?_⟩, fun stop' =>
    ⟨_, hsound.loadNextRangeMsgs hc start stop' limit, ?_⟩⟩
  · have hstop : (if stop = 0 then 1 else stop.toNat + 1) = stop.toNat + 1 := by
      split
      · rename_i hz
        rw [hz]
        rfl
      · rfl
    rw [map_takeLimit hl, hstop, take_of_length_le]
    · congr 1
      refine filter_congr fun m hm => ?_
      have hb := (hfollow.bounds m hm).2
      have hmin : m.messageSeq.toNat ≤ start.toNat ↔ m.messageSeq.toNat ≤ min start.toNat (s.of c).length := by omega
      rw [decide_eq_decide.mpr hmin]
    · -- the window has no more numbers than the limit
      rw [← filter_filter, hfollow.filter_le, Consecutive.filter_ge (hfollow.take _), length_drop, length_take]
      omega
  · rw [map_takeLimit hl]
    congr 2
    refine filter_congr fun m hm => ?_
    have hb := (hfollow.bounds m hm).2
    rw [decide_eq_true (p := m.messageSeq.toNat ≤ (s.of c).length) (by omega), Bool.and_true]

private def cutRun : List Action :=
  let c : Channel := ⟨[103], 2⟩
  let m : Nat → Message := fun n =>
    { messageID := Int64.ofNat (n + 10), messageSeq := UInt32.ofNat n, channelID := c.id, channelType := c.type }
  [.append c [m 1, m 2, m 3], .truncate c 2, .getChannelLastMessageSeq c, .append c [m 3, m 4],
    .evictChannelSeq (channelToKey c)]

theorem range_windows_cut : ∃ s : Stored, (s.of ⟨[103], 2⟩).length = 4 ∧
    (∃ msgs, (s.db.loadPrevRangeMsgs ⟨[103], 2⟩ 3 1 5).1 = .ok msgs ∧ msgs.map Message.withoutHeader =
      ((s.of ⟨[103], 2⟩).filter fun m =>
        max (max (if (1 : UInt64) = 0 then 1 else (1 : UInt64).toNat + 1) ((3 : UInt64).toNat + 1 - 5)) 1 ≤
          m.messageSeq.toNat && m.messageSeq.toNat ≤ min (3 : UInt64).toNat
            (s.of ⟨[103], 2⟩).length).map Message.withoutHeader) := by
  obtain ⟨s0, h0⟩ : ∃ s : Stored, s = { db := { shardNum := 2, pos := by decide } } := ⟨_, rfl⟩
  have hr : Reached (· = ⟨[103], 2⟩) s0 := .init ⟨_, _, h0⟩
  obtain ⟨s, hs, hp⟩ := hr.exists_of_run cutRun (fun s => (s.of ⟨[103], 2⟩).length = 4) (by subst h0; decide +kernel)
  have hapart : Apart (· = ⟨[103], 2⟩) := fun c c' hc hc' _ => hc.trans hc'.symm
  exact ⟨s, hp, (range_windows hapart hs rfl 3 1 5 (by decide) (.inr (by decide)) (by decide) (by decide)).2.1⟩

end Stored
end WuKongIM.WKDB

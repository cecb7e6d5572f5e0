import WuKongIM.Lib.Joined
import WuKongIM.WKDB.ChannelInfos

/-! What the deletion of a channel does to the other channels: the range of index keys that it
deletes runs over all values and all numbers, so it takes the entries of every channel of the
database. -/
namespace WuKongIM.WKDB
open Lib List Function

theorem infoCacheKey_inj {c d : Channel} (h : infoCacheKey c = infoCacheKey d) : c = d := by
  rw [infoCacheKey, infoCacheKey, append_assoc, append_assoc] at h
  obtain ⟨hid, ht⟩ := joined_inj_right (notMem_itoa (.inr (by decide))) (notMem_itoa (.inr (by decide))) h
  cases c
  cases hid
  cases itoa_inj ht
  rfl

namespace ChannelDB
variable {s : ChannelDB} {c : Channel} {r : ChannelRecord} {req : ChannelSearchReq} {i : Nat}

section

theorem inDeletedRange_of_code {name : Nat} (h0 : 0 < name) (h1 : name < 0xffff) (num id value tail : UInt64) :
    s.inDeletedRange num id (secondIndexKey name value tail) = decide (s.shardOf id = s.shardOf num) := by
  have hn := num.toNat_lt
  have hv := value.toNat_lt
  have ht := tail.toNat_lt
  have hlower : secondIndexKey minColumnKey 0 num ≤ secondIndexKey name value tail := by
    simp only [secondIndexKey, minColumnKey, UInt64.toNat_zero]
    omega
  have hupper : secondIndexKey name value tail < secondIndexKey maxColumnKey maxUint64 num := by
    have hm : maxUint64.toNat = 2 ^ 64 - 1 := rfl
    simp only [secondIndexKey, maxColumnKey]
    omega
  rw [inDeletedRange, decide_eq_true hlower, decide_eq_true hupper, Bool.and_true, Bool.and_true]

variable (hc : channelToNum c ≠ 0)
include hc

/-- The range takes every entry of the database, whatever its channel. -/
theorem entries_deleteChannel : (s.deleteChannel c).entries =
    s.entries.filter fun e => s.shardOf e.id ≠ s.shardOf (channelToNum c) := by
  rw [deleteChannel, if_neg hc]
  refine filter_congr fun e _ => ?_
  have hcode : 0 < e.index.code ∧ e.index.code < 0xffff := by cases e.index <;> decide
  rw [InfoEntry.key, inDeletedRange_of_code hcode.1 hcode.2]
  simp

theorem mem_deleteChannel {e : InfoEntry} : e ∈ (s.deleteChannel c).entries ↔
    e ∈ s.entries ∧ s.shardOf e.id ≠ s.shardOf (channelToNum c) := by
  rw [entries_deleteChannel hc, mem_filter, decide_eq_true_eq]

theorem channelIndex_deleteChannel (k : UInt64) : (s.deleteChannel c).channelIndex k =
    if s.shardOf k = s.shardOf (channelToNum c) then none else s.channelIndex k := by
  rw [deleteChannel, if_neg hc]
  dsimp only
  rw [channelIndexKey, inDeletedRange_of_code (by decide) (by decide)]
  simp

end

section

theorem shardNum_deleteChannel : (s.deleteChannel c).shardNum = s.shardNum := by
  rw [deleteChannel]
  split <;> rfl

theorem shardOf_deleteChannel (id : UInt64) : (s.deleteChannel c).shardOf id = s.shardOf id := by
  rw [shardOf, shardOf, shardNum_deleteChannel]

variable (hc : channelToNum c ≠ 0)
include hc

theorem readInfo_deleteChannel (id : UInt64) :
    (s.deleteChannel c).readInfo id = if id = channelToNum c then none else s.readInfo id := by
  rw [deleteChannel, if_neg hc, readInfo, readInfo, ChannelTables.deleteChannel, if_neg hc]
  dsimp only
  by_cases hid : id = channelToNum c
  · rw [hid, update_self, if_pos rfl]
    rfl
  · rw [update_of_ne hid, if_neg hid]

theorem cache_deleteChannel (d : Channel) : (s.deleteChannel c).channelInfoCache (infoCacheKey d) =
    if d = c then none else s.channelInfoCache (infoCacheKey d) := by
  rw [deleteChannel, if_neg hc]
  by_cases hd : d = c
  · rw [hd, if_pos rfl]
    exact update_self ..
  · rw [if_neg hd]
    exact update_of_ne (fun h => hd (infoCacheKey_inj h)) ..

theorem getChannel_deleteChannel_self : ((s.deleteChannel c).getChannel c).1 = {} := by
  rw [getChannel, cache_deleteChannel hc, if_pos rfl]
  rw [if_neg hc, readInfo_deleteChannel hc, if_pos rfl]

theorem getChannel_deleteChannel {d : Channel} (hd : channelToNum d ≠ channelToNum c) :
    ((s.deleteChannel c).getChannel d).1 = (s.getChannel d).1 := by
  have hne : d ≠ c := fun h => hd (h ▸ rfl)
  rw [getChannel, getChannel, cache_deleteChannel hc, if_neg hne, readInfo_deleteChannel hc]
  cases s.channelInfoCache (infoCacheKey d) with
  | some r => rfl
  | none =>
    dsimp only
    split
    · rfl
    · cases s.readInfo (channelToNum d) <;> rfl

theorem total_deleteChannel : (s.deleteChannel c).getTotalChannelCount = s.getTotalChannelCount - 1 := by
  rw [deleteChannel, if_neg hc, getTotalChannelCount, getTotalChannelCount, ChannelTables.deleteChannel, if_neg hc]
  simp only [ChannelTables.incChannelCount, Option.getD_some]
  have hof : UInt64.ofInt (s.tables.channelCount.getD 0).toNat = s.tables.channelCount.getD 0 := by
    generalize s.tables.channelCount.getD 0 = n
    have hmod : ((n.toNat : Int) % 2 ^ 64).toNat = n.toNat := by
      have := n.toNat_lt
      omega
    rw [UInt64.ofInt, hmod, UInt64.ofNat_toNat]
  rw [UInt64.ofInt_add, hof, UInt64.ofInt_neg_one, UInt64.add_comm, UInt64.sub_eq_add_neg]

end

theorem mem_of_mem_take {rs : List ChannelRecord} {n : Int}
    (h : r ∈ req.take rs n) : r ∈ rs := by
  induction rs generalizing n with
  | nil => exact h
  | cons x rs ih =>
    rw [ChannelSearchReq.take] at h
    split at h
    · exact mem_cons_of_mem x (ih h)
    split at h
    · exact absurd h not_mem_nil
    rcases mem_cons.mp h with rfl | h
    · exact .head rs
    · exact mem_cons_of_mem x (ih h)

theorem exists_keys_of_searchShard (req : ChannelSearchReq) : ∃ (keys : Nat × Nat) (reverse : Bool), ∀ (s : ChannelDB) i,
    s.searchShard req i = req.take (if reverse then (s.recordsBetween i keys).reverse else s.recordsBetween i keys) 0 := by
  cases hk : req.indexKeys with
  | some keys => exact ⟨keys, true, fun s i => by simp [searchShard, hk]⟩
  | none =>
    refine ⟨req.createdAtKeys, !req.pre, fun s i => ?_⟩
    rw [searchShard, hk]
    cases req.pre <;> rfl

theorem searchShard_congr {s' : ChannelDB} (h : ∀ keys, s'.recordsBetween i keys = s.recordsBetween i keys)
    (req : ChannelSearchReq) : s'.searchShard req i = s.searchShard req i := by
  obtain ⟨keys, reverse, hsearch⟩ := exists_keys_of_searchShard req
  rw [hsearch, hsearch, h]

theorem mem_searchShard (h : r ∈ s.searchShard req i) :
    ∃ e ∈ s.entries, s.shardOf e.id = i ∧ r = (s.readInfo e.id).getD {} := by
  obtain ⟨keys, reverse, hsearch⟩ := exists_keys_of_searchShard req
  rw [hsearch] at h
  have hr : r ∈ s.recordsBetween i keys := by
    have := mem_of_mem_take h
    split at this
    · exact mem_reverse.mp this
    · exact this
  obtain ⟨e, he, rfl⟩ := mem_map.mp hr
  obtain ⟨hmem, hcond⟩ := mem_filter.mp he
  simp only [Bool.and_eq_true, decide_eq_true_eq] at hcond
  exact ⟨e, hmem, hcond.1.1, rfl⟩

theorem readInfo_id (id : UInt64) : ((s.readInfo id).getD {}).id = id ∨ ((s.readInfo id).getD {}).id = 0 := by
  rw [readInfo, ChannelInfoRow.read]
  split
  · exact .inr rfl
  · exact .inl rfl

theorem searchShard_of_other (hc : channelToNum c ≠ 0) (hi : i ≠ s.shardOf (channelToNum c))
    (req : ChannelSearchReq) : (s.deleteChannel c).searchShard req i = s.searchShard req i := by
  refine searchShard_congr (fun keys => ?_) req
  rw [recordsBetween, entries_deleteChannel hc, filter_filter]
  have hfilter : (s.entries.filter fun e => (decide ((s.deleteChannel c).shardOf e.id = i) && decide (keys.1 ≤ e.key) &&
      decide (e.key < keys.2)) && decide (s.shardOf e.id ≠ s.shardOf (channelToNum c))) =
      s.entries.filter fun e => decide (s.shardOf e.id = i) && decide (keys.1 ≤ e.key) && decide (e.key < keys.2) := by
    refine filter_congr fun e _ => ?_
    rw [shardOf_deleteChannel]
    by_cases hei : s.shardOf e.id = i
    · simp [hei, hi]
    · simp [hei]
  rw [hfilter]
  refine map_congr_left fun e he => ?_
  have hei : s.shardOf e.id = i := by
    have := (mem_filter.mp he).2
    simp only [Bool.and_eq_true, decide_eq_true_eq] at this
    exact this.1.1
  have hid : e.id ≠ channelToNum c := fun h => hi (h ▸ hei.symm)
  rw [readInfo_deleteChannel hc, if_neg hid]

theorem searchShard_of_own (hc : channelToNum c ≠ 0) (req : ChannelSearchReq) :
    (s.deleteChannel c).searchShard req (s.shardOf (channelToNum c)) = [] := by
  refine eq_nil_iff_forall_not_mem.mpr fun r hr => ?_
  obtain ⟨e, he, hei, -⟩ := mem_searchShard hr
  exact ((mem_deleteChannel hc).mp he).2 (shardOf_deleteChannel e.id ▸ hei)

/-- The records of a listing that are of other channels. An entry without a row is listed as an
empty record. -/
def othersListed (s : ChannelDB) (c : Channel) (req : ChannelSearchReq) : List ChannelRecord :=
  (s.searchChannels req).filter fun r => r.id ≠ channelToNum c ∧ r.id ≠ 0

/-- The deletion of a channel takes that channel away and nothing else. `counted` is what the
channel contributes to the total. -/
structure DeletesOnly (s : ChannelDB) (c : Channel) (counted : UInt64) : Prop where
  channels : ∀ d, channelToNum d ≠ channelToNum c → ((s.deleteChannel c).getChannel d).1 = (s.getChannel d).1
  entries : ∀ e : InfoEntry, e.id ≠ channelToNum c → (e ∈ (s.deleteChannel c).entries ↔ e ∈ s.entries)
  index : ∀ k, k ≠ channelToNum c → (s.deleteChannel c).channelIndex k = s.channelIndex k
  listings : ∀ req, (∀ d ∈ req.channel, channelToNum d ≠ channelToNum c) →
    (s.deleteChannel c).othersListed c req = s.othersListed c req
  total : (s.deleteChannel c).getTotalChannelCount = s.getTotalChannelCount - counted
  gone : ((s.deleteChannel c).getChannel c).1 = {} ∧ (∀ e ∈ (s.deleteChannel c).entries, e.id ≠ channelToNum c) ∧
    (s.deleteChannel c).channelIndex (channelToNum c) = none ∧
    ∀ req, req.channel = none → ∀ r ∈ (s.deleteChannel c).searchChannels req, r.id ≠ channelToNum c

/-- No other channel of the database has an entry in an index. -/
structure AloneInShard (s : ChannelDB) (c : Channel) : Prop where
  entries : ∀ e ∈ s.entries, s.shardOf e.id = s.shardOf (channelToNum c) → e.id = channelToNum c
  index : ∀ k, s.shardOf k = s.shardOf (channelToNum c) → k ≠ channelToNum c → s.channelIndex k = none

theorem AloneInShard.listings (h : s.AloneInShard c) (hc : channelToNum c ≠ 0)
    (req : ChannelSearchReq) (hreq : ∀ d ∈ req.channel, channelToNum d ≠ channelToNum c) :
    (s.deleteChannel c).othersListed c req = s.othersListed c req := by
  rw [othersListed, othersListed, searchChannels, searchChannels]
  split
  · next d hd => rw [getChannel_deleteChannel hc (hreq d hd)]
  rw [shardNum_deleteChannel, filter_flatMap, filter_flatMap]
  refine flatMap_congr fun i _ => ?_
  by_cases hi : i = s.shardOf (channelToNum c)
  · rw [hi, searchShard_of_own hc, filter_nil]
    refine (filter_eq_nil_iff.mpr fun r hr => ?_).symm
    obtain ⟨e, he, hei, rfl⟩ := mem_searchShard hr
    rcases readInfo_id (s := s) e.id with hid | hid
    · have hown := hid.trans (h.entries e he hei)
      simp [hown]
    · simp [hid]
  · rw [searchShard_of_other hc hi]

theorem not_listed_of_deleted (hc : channelToNum c ≠ 0) (hreq : req.channel = none)
    (hr : r ∈ (s.deleteChannel c).searchChannels req) : r.id ≠ channelToNum c := by
  rw [searchChannels, hreq] at hr
  obtain ⟨i, -, hr⟩ := mem_flatMap.mp hr
  obtain ⟨e, he, -, rfl⟩ := mem_searchShard hr
  have hother := ((mem_deleteChannel hc).mp he).2
  rcases readInfo_id (s := s.deleteChannel c) e.id with hid | hid
  · rw [hid]
    exact fun h => hother (h ▸ rfl)
  · rw [hid]
    exact hc.symm

/-- A channel whose number is not zero is deleted without a trace on others exactly when it is the
only one of its database with entries in the indexes, and was counted once in the total. -/
theorem deleteChannel_frame (hc : channelToNum c ≠ 0) (counted : UInt64) :
    s.DeletesOnly c counted ↔ s.AloneInShard c ∧ counted = 1 := by
  constructor
  · intro h
    refine ⟨⟨fun e he hsame => ?_, fun k hk hne => ?_⟩, ?_⟩
    · by_contra hid
      exact ((mem_deleteChannel hc).mp ((h.entries e hid).mpr he)).2 hsame
    · rw [← h.index k hne, channelIndex_deleteChannel hc, if_pos hk]
    · have htotal := h.total
      rw [total_deleteChannel hc, UInt64.sub_eq_add_neg, UInt64.sub_eq_add_neg] at htotal
      exact (UInt64.neg_inj.mp (UInt64.add_right_inj _ |>.mp htotal)).symm
  · rintro ⟨h, rfl⟩
    refine ⟨fun d hd => getChannel_deleteChannel hc hd, fun e hid => ?_, fun k hk => ?_, h.listings hc,
      total_deleteChannel hc, ?_, ?_, ?_, fun _ hreq _ hr => not_listed_of_deleted hc hreq hr⟩
    · rw [mem_deleteChannel hc]
      exact ⟨And.left, fun he => ⟨he, fun hsame => hid (h.entries e he hsame)⟩⟩
    · rw [channelIndex_deleteChannel hc]
      split
      · next hsame => exact (h.index k hsame hk).symm
      · rfl
    · exact getChannel_deleteChannel_self hc
    · exact fun e he hid => ((mem_deleteChannel hc).mp he).2 (hid ▸ rfl)
    · rw [channelIndex_deleteChannel hc, if_pos rfl]

private def lettered (name : UInt8) : ChannelRecord :=
  { base := ⟨⟨[name], 2⟩, false, false, false, false, false⟩, createdAt := some 1 }

/-- Two channels in two databases, both of them counted, one of which is deleted. -/
theorem deleteChannel_frame_apart :
    DeletesOnly ((addChannel { shardNum := 8, tables.channelCount := some 2 } (lettered 97)).addChannel (lettered 98))
      ⟨[97], 2⟩ 1 := by
  refine (deleteChannel_frame (by decide +kernel) 1).mpr ⟨⟨by decide +kernel, fun k hk hne => ?_⟩, rfl⟩
  have hother : k ≠ channelToNum ⟨[98], 2⟩ := fun h => by
    rw [h] at hk
    exact absurd hk (by decide +kernel)
  exact (update_of_ne hother ..).trans (update_of_ne hne ..)

/-- Two channels in one database: once one is deleted, the other is still there and in no listing,
and the total, which counted neither, has gone below zero. -/
theorem deleteChannel_frame_fails :
    let s := (addChannel { shardNum := 8 } (lettered 97)).addChannel (lettered 105)
    let listed (s : ChannelDB) := (s.searchChannels { limit := 10 }).map fun r => r.base.channel
    listed s = [⟨[97], 2⟩, ⟨[105], 2⟩] ∧ listed (s.deleteChannel ⟨[97], 2⟩) = [] ∧
      ((s.deleteChannel ⟨[97], 2⟩).getChannel ⟨[105], 2⟩).1.base.channel = ⟨[105], 2⟩ ∧
      s.getTotalChannelCount = 0 ∧ (s.deleteChannel ⟨[97], 2⟩).getTotalChannelCount = 18446744073709551615 := by
  decide +kernel

end ChannelDB
end WuKongIM.WKDB

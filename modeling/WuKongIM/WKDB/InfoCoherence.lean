import WuKongIM.Lib.Writes
import WuKongIM.WKDB.ChannelDeletion
import WuKongIM.WKDB.MemberCounts

/-! The information of the channels, its cache and its second indexes against each other. -/
namespace WuKongIM.WKDB
open Lib List Option Function
open InfoEntry (key key_injective)

/-- The value of a row in a family of the second index, if the column is there. -/
def InfoIndex.value (row : ChannelInfoRow) : InfoIndex → Option UInt64
  | .ban => row.base.map fun b => boolToUint64 b.ban
  | .disband => row.base.map fun b => boolToUint64 b.disband
  | .subscriberCount => none
  | .allowlistCount => row.allowlistCount.map UInt32.toUInt64
  | .denylistCount => row.denylistCount.map UInt32.toUInt64
  | .createdAt => row.createdAt
  | .updatedAt => row.updatedAt
  | .sendBan => row.base.map fun b => boolToUint64 b.sendBan
  | .allowStranger => row.base.map fun b => boolToUint64 b.allowStranger

/-- The value that `writeChannelInfoBaseIndex` writes for a record in a family. -/
def ChannelRecord.baseValue (r : ChannelRecord) : InfoIndex → Option UInt64
  | .ban => some (boolToUint64 r.base.ban)
  | .disband => some (boolToUint64 r.base.disband)
  | .subscriberCount => none
  | .allowlistCount => none
  | .denylistCount => none
  | .createdAt => r.createdAt
  | .updatedAt => r.updatedAt
  | .sendBan => some (boolToUint64 r.base.sendBan)
  | .allowStranger => some (boolToUint64 r.base.allowStranger)

variable {r : ChannelRecord} {e : InfoEntry}

theorem ChannelRecord.mem_baseEntries {id : UInt64} :
    e ∈ r.baseEntries id ↔ e.id = id ∧ r.baseValue e.index = some e.value := by
  obtain ⟨index, value, id'⟩ := e
  rw [baseEntries]
  cases index <;> simp [baseValue, eq_comm, and_comm]

def ChannelInfoRow.written (row : ChannelInfoRow) (r : ChannelRecord) : ChannelInfoRow :=
  { row with base := some r.base, createdAt := r.createdAt <|> row.createdAt, updatedAt := r.updatedAt <|> row.updatedAt }

theorem InfoIndex.value_written (row : ChannelInfoRow) (r : ChannelRecord) (index : InfoIndex) :
    index.value (row.written r) = (r.baseValue index).or (index.value row) := by
  cases index <;> first | rfl | simp [value, ChannelInfoRow.written, ChannelRecord.baseValue]

@[simp] theorem InfoIndex.value_empty (index : InfoIndex) : index.value {} = none := by cases index <;> rfl

def MemberList.counted (n : UInt32) (row : ChannelInfoRow) : MemberList → ChannelInfoRow
  | allowlist => { row with allowlistCount := some n }
  | denylist => { row with denylistCount := some n }

theorem InfoIndex.value_counted (row : ChannelInfoRow) (n : UInt32) (l : MemberList) (index : InfoIndex) :
    index.value (l.counted n row) = if index = l.index then some n.toUInt64 else index.value row := by
  cases l <;> cases index <;> rfl

namespace ChannelDB
variable {trimSpace : Bytes → Bytes} {s s' : ChannelDB}

inductive InfoAction
  | addChannel (r : ChannelRecord)
  | updateChannel (r : ChannelRecord)
  | deleteChannel (c : Channel)
  | addMembers (l : MemberList) (c : Channel) (members : List Member)
  | removeMembers (l : MemberList) (c : Channel) (uids : List Bytes)
  | removeAllMembers (l : MemberList) (c : Channel)
  | getChannel (c : Channel)
  | evict (key : Bytes)

def infoStep (trimSpace : Bytes → Bytes) (s : ChannelDB) : InfoAction → ChannelDB
  | .addChannel r => s.addChannel r
  | .updateChannel r => s.updateChannel trimSpace r
  | .deleteChannel c => s.deleteChannel c
  | .addMembers l c members => l.add s c members
  | .removeMembers l c uids => l.remove s c uids
  | .removeAllMembers l c => l.removeAll s c
  | .getChannel c => (s.getChannel c).2
  | .evict key => { s with channelInfoCache := update s.channelInfoCache key none }

/-- The channel is read alike with and without its entry in the cache, and each family of the second
index has one entry for each row with a value in it, which is the value of the row, and no other
entries. -/
def InfoAgrees (s : ChannelDB) : Prop :=
  (∀ c, (s.getChannel c).1 =
    (getChannel { s with channelInfoCache := update s.channelInfoCache (infoCacheKey c) none } c).1) ∧
  ∀ (index : InfoIndex) (id : UInt64), (s.entries.filter fun e => e.index = index ∧ e.id = id) =
    ((index.value (s.tables.infos id)).map (InfoEntry.mk index · id)).toList

def Dated (time : Option UInt64) : Prop := readTime time = time

theorem Dated.or {new old : Option UInt64} (hnew : Dated new) (hold : Dated old) : Dated (new <|> old) := by
  cases new with
  | none => exact hold
  | some _ => exact hnew

structure Coherent (s : ChannelDB) : Prop where
  named : ∀ id, s.tables.infos id = {} ∨ id ≠ 0 ∧ ∃ b, (s.tables.infos id).base = some b ∧ channelToNum b.channel = id
  dated : ∀ id, Dated (s.tables.infos id).createdAt ∧ Dated (s.tables.infos id).updatedAt
  cached : ∀ key r, s.channelInfoCache key = some r →
    key = infoCacheKey r.base.channel ∧ s.readInfo (channelToNum r.base.channel) = some r
  indexed : ∀ e, e ∈ s.entries ↔ e.index.value (s.tables.infos e.id) = some e.value
  ascending : Ascending key s.entries

/-- What keeps the three together. A channel is written again with the flags and the times of its
row, its counts being those of the row, and with nothing that is not stored; an update brings the
time of creation of the row, its counts, a time of change where the row has one, and nothing that is
not stored; a channel is deleted when no other one of its database has a row; and a list is counted
once, while the channel is out of the cache. No two channels meet in one number. -/
def InfoCareful (trimSpace : Bytes → Bytes) (s : ChannelDB) : InfoAction → Prop
  | .addChannel r =>
    let row := s.tables.infos (channelToNum r.base.channel)
    channelToNum r.base.channel ≠ 0 ∧ Dated r.createdAt ∧ Dated r.updatedAt ∧
    (∀ b, row.base = some b → b.channel = r.base.channel ∧ b.ban = r.base.ban ∧ b.disband = r.base.disband ∧
      b.sendBan = r.base.sendBan ∧ b.allowStranger = r.base.allowStranger) ∧
    (row.createdAt = none ∨ row.createdAt = r.createdAt) ∧ (row.updatedAt = none ∨ row.updatedAt = r.updatedAt) ∧
    r.allowlistCount = row.allowlistCount.getD 0 ∧ r.denylistCount = row.denylistCount.getD 0 ∧ r.unstored = {}
  | .updateChannel r =>
    let row := s.tables.infos (channelToNum r.base.channel)
    channelToNum r.base.channel ≠ 0 ∧ Dated r.updatedAt ∧
    ∀ b, row.base = some b → b.channel = r.base.channel ∧ trimSpace r.base.channel.id ≠ [] ∧
      r.createdAt = row.createdAt ∧ (r.updatedAt = none → row.updatedAt = none) ∧
      r.allowlistCount = row.allowlistCount.getD 0 ∧ r.denylistCount = row.denylistCount.getD 0 ∧ r.unstored = {}
  | .deleteChannel c => channelToNum c ≠ 0 →
    (∀ b, (s.tables.infos (channelToNum c)).base = some b → b.channel = c) ∧
    ∀ id, s.tables.infos id ≠ {} → s.shardOf id = s.shardOf (channelToNum c) → id = channelToNum c
  | .addMembers l c members =>
    members ≠ [] ∧ members.length < 2 ^ 32 ∧ s.channelInfoCache (infoCacheKey c) = none ∧
    (∃ b, (s.tables.infos (channelToNum c)).base = some b ∧ b.channel = c) ∧ l.column (s.tables.infos (channelToNum c)) = none
  | .removeMembers _ _ _ => False
  | .removeAllMembers _ _ => False
  | .getChannel _ => True
  | .evict _ => True

namespace Coherent
variable (h : s.Coherent)
include h

theorem base_of_cached {key : Bytes} (hr : s.channelInfoCache key = some r) :
    channelToNum r.base.channel ≠ 0 ∧ (s.tables.infos (channelToNum r.base.channel)).base = some r.base := by
  obtain ⟨-, hread⟩ := h.cached key r hr
  rcases h.named (channelToNum r.base.channel) with hrow | ⟨hne, b, hb, -⟩
  · rw [readInfo, hrow] at hread
    cases hread
  · rw [readInfo_of_base hb] at hread
    exact ⟨hne, hb.trans (congrArg (fun r => some r.base) (some.inj hread))⟩

variable {b : ChannelBase} {c : Channel} {old : ChannelRecord} {num : UInt64} {id : UInt64}

theorem num_ne_zero (hb : (s.tables.infos id).base = some b) : id ≠ 0 ∧ channelToNum b.channel = id := by
  rcases h.named id with hrow | ⟨hne, b', hb', hnum⟩
  · rw [hrow] at hb
    cases hb
  · cases hb.symm.trans hb'
    exact ⟨hne, hnum⟩

theorem row_of_none (hb : (s.tables.infos id).base = none) : s.tables.infos id = {} := by
  rcases h.named id with hrow | ⟨-, b, hb', -⟩
  · exact hrow
  · cases hb.symm.trans hb'

theorem cache_of_none (hb : (s.tables.infos (channelToNum c)).base = none) : s.channelInfoCache (infoCacheKey c) = none := by
  cases hc : s.channelInfoCache (infoCacheKey c) with
  | none => rfl
  | some r =>
    have hbase := (h.base_of_cached hc).2
    rw [← infoCacheKey_inj (h.cached _ r hc).1, hb] at hbase
    cases hbase

theorem agrees : s.InfoAgrees := by
  constructor
  · intro c
    cases hc : s.channelInfoCache (infoCacheKey c) with
    | none => rw [← hc, update_eq_self]
    | some r =>
      obtain ⟨hkey, hread⟩ := h.cached _ r hc
      have hnum := (h.base_of_cached hc).1
      rw [← infoCacheKey_inj hkey] at hread hnum
      rw [getChannel, hc, getChannel]
      dsimp only
      rw [update_self]
      rw [if_neg hnum]
      have hsame : readInfo { s with channelInfoCache := update s.channelInfoCache (infoCacheKey c) none } (channelToNum c) =
          some r := hread
      rw [hsame]
  · intro index id
    have hmem (e) : (e ∈ s.entries ∧ e.index = index ∧ e.id = id) ↔
        (index.value (s.tables.infos id)).map (InfoEntry.mk index · id) = some e := by
      rw [h.indexed, map_eq_some_iff]
      constructor
      · rintro ⟨hv, rfl, rfl⟩
        exact ⟨e.value, hv, rfl⟩
      · rintro ⟨v, hv, rfl⟩
        exact ⟨hv, rfl, rfl⟩
    have hnodup : (s.entries.filter fun e => e.index = index ∧ e.id = id).Nodup := h.ascending.nodup.filter _
    cases hv : (index.value (s.tables.infos id)).map (InfoEntry.mk index · id) with
    | none =>
      refine filter_eq_nil_iff.mpr fun e he hp => ?_
      have := (hmem e).mp ⟨he, of_decide_eq_true hp⟩
      rw [hv] at this
      cases this
    | some e =>
      refine perm_singleton.mp ((perm_ext_iff_of_nodup hnodup (nodup_singleton e)).mpr fun e' => ?_)
      rw [mem_filter, decide_eq_true_eq, hmem, hv, mem_singleton, some.injEq]
      exact eq_comm

/-- One row changes, and with it only entries of its number. -/
theorem changeRow {row : ChannelInfoRow} (hinfos : s'.tables.infos = update s.tables.infos num row)
    (hnamed : row = {} ∨ num ≠ 0 ∧ ∃ b, row.base = some b ∧ channelToNum b.channel = num)
    (hdated : Dated row.createdAt ∧ Dated row.updatedAt)
    (hcached : ∀ key r, s'.channelInfoCache key = some r → s.channelInfoCache key = some r ∧
      channelToNum r.base.channel ≠ num ∨
      key = infoCacheKey r.base.channel ∧ s'.readInfo (channelToNum r.base.channel) = some r)
    (hown : ∀ index value, ⟨index, value, num⟩ ∈ s'.entries ↔ index.value row = some value)
    (hother : ∀ e, e.id ≠ num → (e ∈ s'.entries ↔ e ∈ s.entries)) (hasc : Ascending key s'.entries) : s'.Coherent := by
  have hrow (id : UInt64) : s'.tables.infos id = if id = num then row else s.tables.infos id := by
    rw [hinfos, update_apply]
  refine ⟨fun id => ?_, fun id => ?_, fun key r hr => ?_, fun e => ?_, hasc⟩
  · rw [hrow]
    split
    · rename_i hid
      exact hid ▸ hnamed
    · exact h.named id
  · rw [hrow]
    split
    · exact hdated
    · exact h.dated id
  · rcases hcached key r hr with ⟨hold, hne⟩ | hnew
    · obtain ⟨hkey, hread⟩ := h.cached key r hold
      rw [readInfo, hrow, if_neg hne]
      exact ⟨hkey, hread⟩
    · exact hnew
  · by_cases hid : e.id = num
    · subst hid
      rw [hrow, if_pos rfl]
      exact hown e.index e.value
    · rw [hother e hid, h.indexed, hrow, if_neg hid]

/-- Where a row is named like the channel that is written, what the cache has under other names has
other numbers. -/
theorem num_ne_of_cached {key : Bytes}
    (hc : ∀ b, (s.tables.infos (channelToNum c)).base = some b → b.channel = c) (hr : s.channelInfoCache key = some r)
    (hkey : key ≠ infoCacheKey c) : channelToNum r.base.channel ≠ channelToNum c := by
  intro hnum
  have hbase := (h.base_of_cached hr).2
  rw [hnum] at hbase
  apply hkey
  rw [(h.cached key r hr).1, hc _ hbase]

omit h in
theorem readInfo_written {createdAt : Option UInt64}
    (hinfos : s'.tables.infos = update s.tables.infos (channelToNum r.base.channel)
      ((s.tables.infos (channelToNum r.base.channel)).written { r with createdAt }))
    (hcreated : readTime (createdAt <|> (s.tables.infos (channelToNum r.base.channel)).createdAt) = r.createdAt)
    (hupdated : readTime (r.updatedAt <|> (s.tables.infos (channelToNum r.base.channel)).updatedAt) = r.updatedAt)
    (hallow : r.allowlistCount = (s.tables.infos (channelToNum r.base.channel)).allowlistCount.getD 0)
    (hdeny : r.denylistCount = (s.tables.infos (channelToNum r.base.channel)).denylistCount.getD 0)
    (hunstored : r.unstored = {}) : s'.readInfo (channelToNum r.base.channel) = some
    { r with id := channelToNum r.base.channel } := by
  have hb : (s'.tables.infos (channelToNum r.base.channel)).base = some r.base := by
    rw [hinfos, update_self]
    rfl
  rw [readInfo_of_base hb, hinfos, update_self]
  change some (ChannelRecord.mk _ r.base ((s.tables.infos _).allowlistCount.getD 0) ((s.tables.infos _).denylistCount.getD 0)
    (readTime (createdAt <|> _)) (readTime (r.updatedAt <|> _)) {}) = _
  rw [hcreated, hupdated, ← hallow, ← hdeny, ← hunstored]

omit h in
theorem mem_putAll_baseEntries (hid : e.id ≠ num) {entries : List InfoEntry} :
    e ∈ putAll key (r.baseEntries num) entries ↔ e ∈ entries := by
  rw [mem_putAll_of_injective key_injective, ChannelRecord.mem_baseEntries]
  simp [hid]

theorem addChannel (hr : InfoCareful trimSpace s (.addChannel r)) : (s.addChannel r).Coherent := by
  obtain ⟨hnum, hcreated, hupdated, hbase, hold, hchanged, hallow, hdeny, hunstored⟩ := hr
  have htime : ∀ {old new : Option UInt64}, Dated new → old = none ∨ old = new → readTime (new <|> old) = new := by
    rintro old (_ | new) hnew (rfl | rfl) <;> exact hnew
  have hdated := h.dated (channelToNum r.base.channel)
  have hinfos : (s.addChannel r).tables.infos = update s.tables.infos (channelToNum r.base.channel)
    ((s.tables.infos (channelToNum r.base.channel)).written r) := rfl
  refine h.changeRow hinfos (.inr ⟨hnum, r.base, rfl, rfl⟩)
    ⟨hcreated.or hdated.1, hupdated.or hdated.2⟩ (fun key r' hr' => ?_)
    (fun index value => ?_) (fun e hid => ?_) (h.ascending.putAll _)
  · rcases update_eq_some hr' with ⟨rfl, heq⟩ | ⟨hkey, hr'⟩
    · cases heq
      exact .inr ⟨rfl, readInfo_written rfl (htime hcreated hold) (htime hupdated hchanged) hallow hdeny
        hunstored⟩
    · exact .inl ⟨hr', h.num_ne_of_cached (fun b hb => (hbase b hb).1) hr' hkey⟩
  · change _ ∈ putAll key (r.baseEntries (channelToNum r.base.channel)) s.entries ↔ _
    rw [mem_putAll_of_injective key_injective, ChannelRecord.mem_baseEntries, h.indexed,
      InfoIndex.value_written, or_eq_some_iff]
    -- a value that the row has already is written again
    have hagain : ∀ v, index.value (s.tables.infos (channelToNum r.base.channel)) = some v →
        r.baseValue index = none ∨ r.baseValue index = some v := by
      intro v hv
      have htimes : ∀ {old new : Option UInt64}, old = none ∨ old = new → old = some v → new = some v := by
        rintro old new (rfl | rfl) hv
        · cases hv
        · exact hv
      cases index
      case ban =>
        obtain ⟨b, hb, rfl⟩ := map_eq_some_iff.mp hv
        exact .inr (congrArg (some ∘ boolToUint64) (hbase b hb).2.1.symm)
      case disband =>
        obtain ⟨b, hb, rfl⟩ := map_eq_some_iff.mp hv
        exact .inr (congrArg (some ∘ boolToUint64) (hbase b hb).2.2.1.symm)
      case sendBan =>
        obtain ⟨b, hb, rfl⟩ := map_eq_some_iff.mp hv
        exact .inr (congrArg (some ∘ boolToUint64) (hbase b hb).2.2.2.1.symm)
      case allowStranger =>
        obtain ⟨b, hb, rfl⟩ := map_eq_some_iff.mp hv
        exact .inr (congrArg (some ∘ boolToUint64) (hbase b hb).2.2.2.2.symm)
      case createdAt => exact .inr (htimes hold hv)
      case updatedAt => exact .inr (htimes hchanged hv)
      all_goals exact .inl rfl
    constructor
    · rintro (⟨-, hv⟩ | hv)
      · exact .inl hv
      · exact (hagain _ hv).elim (fun hnone => .inr ⟨hnone, hv⟩) .inl
    · rintro (hv | ⟨-, hv⟩)
      · exact .inl ⟨rfl, hv⟩
      · exact .inr hv
  · exact mem_putAll_baseEntries hid

theorem getChannel_of_none (hb : (s.tables.infos (channelToNum c)).base = none) : s.getChannel c = ({}, s) := by
  rw [getChannel, h.cache_of_none hb]
  dsimp only
  split
  · rfl
  · rw [readInfo, h.row_of_none hb]
    rfl

theorem getChannel_of_some (hb : (s.tables.infos (channelToNum c)).base = some b) :
    ∃ r, s.readInfo (channelToNum c) = some r ∧ r.base = b ∧ r.id = channelToNum c ∧ s.getChannel c =
      (r, { s with channelInfoCache := update s.channelInfoCache (infoCacheKey b.channel) (some r) }) := by
  have hread := readInfo_of_base hb
  refine ⟨_, hread, rfl, rfl, ?_⟩
  rw [getChannel]
  cases hc : s.channelInfoCache (infoCacheKey c) with
  | none =>
    rw [if_neg (h.num_ne_zero hb).1, hread]
  | some r =>
    obtain ⟨hkey, hr⟩ := h.cached _ r hc
    have hbase := (h.base_of_cached hc).2
    rw [← infoCacheKey_inj hkey] at hr hbase
    cases hb.symm.trans hbase
    have hself : update s.channelInfoCache (infoCacheKey c) (some r) = s.channelInfoCache := by
      rw [← hc, update_eq_self]
    rw [← some.inj (hr.symm.trans hread), ← hkey, hself]

theorem evict (key : Bytes) : Coherent { s with channelInfoCache := update s.channelInfoCache key none } := by
  refine { h with cached := ?_ }
  intro key' r hr
  rcases update_eq_some hr with ⟨-, heq⟩ | ⟨-, hr⟩
  · cases heq
  · exact h.cached key' r hr

theorem fill (hr : s.readInfo (channelToNum r.base.channel) = some r) :
    Coherent { s with channelInfoCache := update s.channelInfoCache (infoCacheKey r.base.channel) (some r) } := by
  refine { h with cached := ?_ }
  intro key r' hr'
  rcases update_eq_some hr' with ⟨rfl, heq⟩ | ⟨-, hr'⟩
  · cases heq
    exact ⟨rfl, hr⟩
  · exact h.cached key r' hr'

theorem getChannel (c : Channel) : (s.getChannel c).2.Coherent := by
  cases hb : (s.tables.infos (channelToNum c)).base with
  | none =>
    rw [h.getChannel_of_none hb]
    exact h
  | some b =>
    obtain ⟨r, hread, rfl, -, heq⟩ := h.getChannel_of_some hb
    rw [heq]
    refine h.fill ?_
    rw [(h.num_ne_zero hb).2]
    exact hread

/-- An update takes the entries of the former record back, but for the time of creation, which it
leaves alone. -/
theorem updated_indexed (hb : (s.tables.infos (channelToNum r.base.channel)).base = some b)
    (hold : s.readInfo (channelToNum r.base.channel) = some old)
    (hupdated : r.updatedAt = none → (s.tables.infos (channelToNum r.base.channel)).updatedAt = none) (index : InfoIndex)
    (value : UInt64) : ⟨index, value, channelToNum r.base.channel⟩ ∈
        putAll key ({ r with createdAt := none }.baseEntries (channelToNum r.base.channel))
          (s.entries.filter fun e => e ∉ { old with createdAt := none }.baseEntries old.id) ↔
      index.value ((s.tables.infos (channelToNum r.base.channel)).written { r with createdAt := none }) = some value := by
  rw [mem_putAll_of_injective key_injective, mem_filter, decide_eq_true_eq, ChannelRecord.mem_baseEntries,
    ChannelRecord.mem_baseEntries, h.indexed, InfoIndex.value_written]
  cases hold.symm.trans (readInfo_of_base hb)
  have hdated := (h.dated (channelToNum r.base.channel)).2
  cases index
  case updatedAt =>
    simp only [InfoIndex.value, true_and, or_eq_some_iff]
    rw [show readTime _ = _ from hdated]
    constructor
    · rintro (hv | ⟨hv, hne⟩)
      · exact .inl hv
      · exact absurd hv hne
    · rintro (hv | ⟨hnone, hv⟩)
      · exact .inl hv
      · rw [hupdated hnone] at hv
        cases hv
  all_goals simp [InfoIndex.value, ChannelRecord.baseValue, hb]

theorem updateChannel_of_none (htrim : trimSpace [] = []) (hb : (s.tables.infos (channelToNum r.base.channel)).base = none) :
    (s.updateChannel trimSpace r).entries =
        putAll key ({ r with createdAt := none }.baseEntries (channelToNum r.base.channel)) s.entries ∧
      (s.updateChannel trimSpace r).channelInfoCache = s.channelInfoCache := by
  rw [updateChannel, h.getChannel_of_none hb]
  constructor
  · change putAll key _ (s.entries.filter fun e => e ∉ if trimSpace [] = [] then [] else _) = _
    rw [if_pos htrim]
    simp
  · change (if (s.channelInfoCache (infoCacheKey r.base.channel)).isSome then _ else _) = _
    rw [h.cache_of_none hb]
    rfl

theorem updateChannel_of_some (hb : (s.tables.infos (channelToNum r.base.channel)).base = some b)
    (hname : b.channel = r.base.channel) (hid : trimSpace r.base.channel.id ≠ [])
    (hold : s.readInfo (channelToNum r.base.channel) = some old) :
    (s.updateChannel trimSpace r).entries = putAll key
    ({ r with createdAt := none }.baseEntries (channelToNum r.base.channel))
          (s.entries.filter fun e => e ∉ { old with createdAt := none }.baseEntries old.id) ∧
      (s.updateChannel trimSpace r).channelInfoCache =
        update s.channelInfoCache (infoCacheKey r.base.channel) (some { r with id := channelToNum r.base.channel }) := by
  obtain ⟨old', hold', rfl, -, heq⟩ := h.getChannel_of_some hb
  cases hold.symm.trans hold'
  rw [updateChannel, heq]
  constructor
  · change putAll key _ (s.entries.filter fun e => e ∉ if trimSpace old.base.channel.id = [] then [] else _) = _
    rw [hname, if_neg hid]
  · change (if (update s.channelInfoCache (infoCacheKey old.base.channel) (some old)
      (infoCacheKey r.base.channel)).isSome then update (update _ _ _) _ _ else _) = _
    rw [hname, update_self, update_idem]
    rfl

theorem updateChannel (htrim : trimSpace [] = [])
    (hr : InfoCareful trimSpace s (.updateChannel r)) : (s.updateChannel trimSpace r).Coherent := by
  obtain ⟨hnum, hdated, hsame⟩ := hr
  have hinfos : (s.updateChannel trimSpace r).tables.infos = update s.tables.infos (channelToNum r.base.channel)
      ((s.tables.infos (channelToNum r.base.channel)).written { r with createdAt := none }) := by
    rw [ChannelDB.updateChannel]
    cases hb : (s.tables.infos (channelToNum r.base.channel)).base with
    | none =>
      rw [h.getChannel_of_none hb]
      rfl
    | some b =>
      obtain ⟨old, -, -, -, heq⟩ := h.getChannel_of_some hb
      rw [heq]
      rfl
  have hchange := h.changeRow hinfos (.inr ⟨hnum, r.base, rfl, rfl⟩) ⟨Dated.or rfl (h.dated _).1, hdated.or (h.dated _).2⟩
  cases hb : (s.tables.infos (channelToNum r.base.channel)).base with
  | none =>
    obtain ⟨hentries, hcache⟩ := h.updateChannel_of_none htrim hb
    rw [hentries, hcache] at hchange
    refine hchange (fun key r' hr' => .inl ⟨hr', fun heq => ?_⟩) (fun index value => ?_)
      (fun e hid => mem_putAll_baseEntries hid) (h.ascending.putAll _)
    · have hbase := (h.base_of_cached hr').2
      rw [heq, hb] at hbase
      cases hbase
    · rw [mem_putAll_of_injective key_injective, ChannelRecord.mem_baseEntries, h.indexed,
        InfoIndex.value_written, h.row_of_none hb]
      simp
  | some b =>
    obtain ⟨hname, hid, hcreated, hupdated, hallow, hdeny, hunstored⟩ := hsame b hb
    obtain ⟨old, hold, -⟩ := h.getChannel_of_some hb
    obtain ⟨hentries, hcache⟩ := h.updateChannel_of_some hb hname hid hold
    rw [hentries, hcache] at hchange
    refine hchange (fun key r' hr' => ?_) (h.updated_indexed hb hold hupdated) (fun e hid => ?_)
      (Ascending.putAll (h.ascending.filter _) _)
    · rcases update_eq_some hr' with ⟨rfl, heq⟩ | ⟨hkey, hr'⟩
      · cases heq
        refine .inr ⟨rfl, readInfo_written hinfos ?_ ?_ hallow hdeny hunstored⟩
        · rw [hcreated]
          exact (h.dated _).1
        cases hu : r.updatedAt with
        | none =>
          rw [hupdated hu]
          rfl
        | some t =>
          rw [hu] at hdated
          exact hdated
      · exact .inl ⟨hr', h.num_ne_of_cached (fun b' hb' => by cases hb.symm.trans hb'; exact hname) hr' hkey⟩
    · rw [mem_putAll_baseEntries hid, mem_filter, decide_eq_true_eq, ChannelRecord.mem_baseEntries]
      cases hold.symm.trans (readInfo_of_base hb)
      simp [hid]

theorem deleteChannel (hc : InfoCareful trimSpace s (.deleteChannel c)) : (s.deleteChannel c).Coherent := by
  by_cases hnum : channelToNum c = 0
  · rw [ChannelDB.deleteChannel, if_pos hnum]
    exact h
  obtain ⟨hname, halone⟩ := hc hnum
  have hinfos : (s.deleteChannel c).tables.infos = update s.tables.infos (channelToNum c) {} := by
    rw [ChannelDB.deleteChannel, if_neg hnum, ChannelTables.deleteChannel, if_neg hnum]
  refine h.changeRow hinfos (.inl rfl) ⟨rfl, rfl⟩ (fun key r hr => ?_) (fun index value => ?_) (fun e hid => ?_) ?_
  · rw [ChannelDB.deleteChannel, if_neg hnum] at hr
    rcases update_eq_some hr with ⟨-, heq⟩ | ⟨hkey, hr⟩
    · cases heq
    · exact .inl ⟨hr, h.num_ne_of_cached hname hr hkey⟩
  · rw [mem_deleteChannel hnum]
    simp
  · rw [mem_deleteChannel hnum, h.indexed]
    refine and_iff_left_of_imp fun hv hshard => hid (halone e.id ?_ hshard)
    rintro hrow
    rw [hrow, InfoIndex.value_empty] at hv
    cases hv
  · rw [entries_deleteChannel hnum]
    exact h.ascending.filter _

omit h in
theorem infos_addMembers (l : MemberList) (c : Channel) (members : List Member) :
    (l.add s c members).tables.infos = update s.tables.infos (channelToNum c)
      (l.counted (incChannelInfoColumnCount members.length (l.column (s.tables.infos (channelToNum c))))
        (s.tables.infos (channelToNum c))) := by
  cases l <;> rfl

/-- The first count of a list comes with its entry. -/
theorem addMembers {l : MemberList} {members : List Member}
    (hc : InfoCareful trimSpace s (.addMembers l c members)) : (l.add s c members).Coherent := by
  obtain ⟨hne, hlt, hcache, ⟨b, hb, hname⟩, hcolumn⟩ := hc
  have hlength := length_pos_iff.mpr hne
  have hinfos := @infos_addMembers s l c members
  rw [hcolumn] at hinfos
  have hchanged := @changed_add s c l members
  have hentries := hchanged.entries
  rw [incEntries, if_neg (by omega), hcolumn] at hentries
  have hvalue : (incChannelInfoColumnCount members.length none).toUInt64 =
      UInt64.ofInt (members.length + ((none : Option UInt32).getD 0).toNat) := by
    apply UInt64.toNat_inj.mp
    rw [UInt32.toNat_toUInt64, toNat_incColumn (by omega) rfl hlt]
    change _ = (UInt64.ofInt (members.length + 0)).toNat
    rw [UInt64.ofInt, UInt64.toNat_ofNat']
    omega
  have hrow (n) : (l.counted n (s.tables.infos (channelToNum c))).base = some b ∧
      (l.counted n (s.tables.infos (channelToNum c))).createdAt = (s.tables.infos (channelToNum c)).createdAt ∧
      (l.counted n (s.tables.infos (channelToNum c))).updatedAt = (s.tables.infos (channelToNum c)).updatedAt := by
    cases l <;> exact ⟨hb, rfl, rfl⟩
  refine h.changeRow hinfos (.inr ⟨(h.num_ne_zero hb).1, b, (hrow _).1, by rw [hname]⟩) ?_ (fun key r hr => .inl ?_)
    (fun index value => ?_) (fun e hid => ?_) (hentries ▸ h.ascending.put _)
  · rw [(hrow _).2.1, (hrow _).2.2]
    exact h.dated _
  · rw [hchanged.cache] at hr
    refine ⟨hr, h.num_ne_of_cached (fun b' hb' => ?_) hr ?_⟩
    · cases hb.symm.trans hb'
      exact hname
    · rintro rfl
      cases hcache.symm.trans hr
  · rw [hentries, mem_put_of_injective key_injective, h.indexed, InfoIndex.value_counted, hvalue]
    by_cases hindex : index = l.index
    · subst hindex
      have hold : l.index.value (s.tables.infos (channelToNum c)) = none := by
        cases l <;> exact congrArg (Option.map UInt32.toUInt64) hcolumn
      rw [hold]
      simp [eq_comm]
    · simp [hindex]
  · rw [hentries, mem_put_of_injective key_injective]
    refine or_iff_right ?_
    rintro rfl
    exact hid rfl

theorem step (htrim : trimSpace [] = []) {a : InfoAction} (ha : InfoCareful trimSpace s a) :
    (s.infoStep trimSpace a).Coherent := by
  cases a with
  | addChannel r => exact h.addChannel ha
  | updateChannel r => exact h.updateChannel htrim ha
  | deleteChannel c => exact h.deleteChannel ha
  | addMembers l c members => exact h.addMembers ha
  | removeMembers l c uids | removeAllMembers l c => exact ha.elim
  | getChannel c => exact h.getChannel c
  | evict key => exact h.evict key

end Coherent

def InfoEmpty (s : ChannelDB) : Prop :=
  s.tables.infos = (fun _ => {}) ∧ s.entries = [] ∧ s.channelInfoCache = fun _ => none

theorem InfoEmpty.coherent (h : s.InfoEmpty) : s.Coherent := by
  obtain ⟨hinfos, hentries, hcache⟩ := h
  refine ⟨?_, ?_, ?_, ?_, ?_⟩
  · intro id
    exact .inl (congrFun hinfos id)
  · intro id
    rw [hinfos]
    exact ⟨rfl, rfl⟩
  · intro key r hr
    rw [hcache] at hr
    cases hr
  · rw [hentries, hinfos]
    simp
  · rw [hentries]
    exact Pairwise.nil

/-- Rows, cache and second indexes agree in every state of every run of careful steps. -/
theorem channel_info_agrees (htrim : trimSpace [] = []) {s : ChannelDB}
    (hs : Reach InfoEmpty (fun s a => some (s.infoStep trimSpace a)) (InfoCareful trimSpace) s) : s.InfoAgrees := by
  apply Coherent.agrees
  refine hs.invariant Coherent (fun s => InfoEmpty.coherent) ?_
  intro s a t h ha hstep
  cases hstep
  exact h.step htrim ha

private def hall : Channel := ⟨[104], 2⟩

private def hallRecord (ban : Bool) (createdAt updatedAt : UInt64) : ChannelRecord :=
  { base := ⟨hall, ban, false, false, false, false⟩, createdAt := some createdAt, updatedAt := some updatedAt }

private def noChannels : ChannelDB := { shardNum := 8 }

/-- A channel is added and then banned by an update that brings the time of creation of the row. -/
theorem channel_info_agrees_banned :
    InfoAgrees ((noChannels.addChannel (hallRecord false 3 3)).updateChannel id (hallRecord true 3 5)) := by
  have hempty : Reach InfoEmpty (fun s a => some (s.infoStep id a)) (InfoCareful id) noChannels := .init ⟨rfl, rfl, rfl⟩
  have hadd : InfoCareful id noChannels (.addChannel (hallRecord false 3 3)) :=
    ⟨by decide +kernel, rfl, rfl, nofun, .inl rfl, .inl rfl, rfl, rfl, rfl⟩
  have hrow : (noChannels.addChannel (hallRecord false 3 3)).tables.infos (channelToNum hall) =
      { base := some (hallRecord false 3 3).base, createdAt := some 3, updatedAt := some 3 } := by
    decide +kernel
  have hupdate : InfoCareful id (noChannels.addChannel (hallRecord false 3 3)) (.updateChannel (hallRecord true 3 5)) := by
    refine ⟨by decide +kernel, rfl, ?_⟩
    change ∀ b, ((noChannels.addChannel (hallRecord false 3 3)).tables.infos (channelToNum hall)).base = some b → _
    intro b hb
    cases hb
    refine ⟨rfl, by decide, ?_, nofun, ?_, ?_, rfl⟩
    · exact (congrArg ChannelInfoRow.createdAt hrow).symm
    · exact congrArg (fun row => row.allowlistCount.getD 0) hrow.symm
    · exact congrArg (fun row => row.denylistCount.getD 0) hrow.symm
  exact channel_info_agrees rfl ((hempty.step hadd rfl).step hupdate rfl)

/-- The API brings the present time as the time of creation of every request: after a second one the
cache has the second time, and the row the first. -/
theorem channel_info_agrees_fails :
    ∃ s, Reach InfoEmpty (fun s a => some (s.infoStep id a)) (fun _ _ => True) s ∧ ¬s.InfoAgrees := by
  have hempty : Reach InfoEmpty (fun s a => some (s.infoStep id a)) (fun _ _ => True) noChannels := .init ⟨rfl, rfl, rfl⟩
  obtain ⟨s, hs, hp⟩ := hempty.exists_of_run
    [.addChannel (hallRecord false 3 3), .updateChannel (hallRecord false 5 5)]
    (fun s => (s.getChannel hall).1 ≠
      (getChannel { s with channelInfoCache := update s.channelInfoCache (infoCacheKey hall) none } hall).1)
    (by decide +kernel)
  exact ⟨s, hs, fun h => hp (h.1 hall)⟩

end ChannelDB
end WuKongIM.WKDB

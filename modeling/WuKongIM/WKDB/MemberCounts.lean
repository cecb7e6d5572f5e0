import WuKongIM.Lib.Run
import WuKongIM.WKDB.ChannelInfos

/-! The counts of the two lists of a channel against the lists themselves, and the index of the
counts. -/
namespace WuKongIM.WKDB
open Lib List Option Function ChannelTables

namespace MemberTable
variable {t : MemberTable} {uids : List Bytes} {members : List Member} {id : UInt64}

theorem nodup_scan : (t.scan.map Prod.fst).Nodup := by
  rw [scan, map_filterMap, Nodup, pairwise_filterMap]
  apply pairwise_lt_range.imp_of_mem
  intro n n' hn hn' hlt id h id' h' heq
  simp only [Option.map_map, map_eq_some_iff] at h h'
  obtain ⟨_, -, rfl⟩ := h
  obtain ⟨_, -, rfl⟩ := h'
  have hnat : (UInt64.ofNat n).toNat = (UInt64.ofNat n').toNat := congrArg _ heq
  rw [UInt64.toNat_ofNat_of_lt' (mem_range.mp hn), UInt64.toNat_ofNat_of_lt' (mem_range.mp hn')] at hnat
  omega

theorem mem_scan_ids : id ∈ t.scan.map Prod.fst ↔ (t.rows id).isSome := by
  rw [List.mem_map, isSome_iff_exists]
  constructor
  · rintro ⟨⟨_, m⟩, he, rfl⟩
    exact ⟨m, mem_scan.mp he⟩
  · rintro ⟨m, hm⟩
    exact ⟨(id, m), mem_scan.mpr hm, rfl⟩

theorem length_scan (ids : List UInt64) (hn : ids.Nodup) (h : ∀ id, id ∈ ids ↔ (t.rows id).isSome) :
    t.scan.length = ids.length := by
  have hperm : (t.scan.map Prod.fst).Perm ids :=
    (perm_ext_iff_of_nodup nodup_scan hn).mpr fun id => mem_scan_ids.trans (h id).symm
  rw [← hperm.length_eq, length_map]

theorem length_scan_eq_zero : t.scan.length = 0 ↔ ∀ id, t.rows id = none := by
  rw [length_eq_zero_iff]
  constructor
  · intro h id
    cases hr : t.rows id with
    | none => rfl
    | some m => exact absurd (mem_scan.mpr hr) (by simp [h])
  · exact scan_eq_nil

theorem isSome_foldl_write : ((members.foldl write t).rows id).isSome ↔
    id ∈ members.map (fun m => hashWithString m.uid) ∨ (t.rows id).isSome := by
  induction members generalizing t with
  | nil => simp
  | cons m members ih =>
    rw [foldl_cons, ih, map_cons]
    by_cases hid : id = hashWithString m.uid
    all_goals simp [write, hid]

theorem length_foldl_write (hn : (members.map fun m => hashWithString m.uid).Nodup)
    (h : ∀ m ∈ members, t.rows (hashWithString m.uid) = none) :
    (members.foldl write t).scan.length = t.scan.length + members.length := by
  have happart : ((members.map fun m => hashWithString m.uid) ++ t.scan.map Prod.fst).Nodup := by
    apply nodup_append'.mpr ⟨hn, nodup_scan, _⟩
    intro id hnew hold
    obtain ⟨m, hm, rfl⟩ := mem_map.mp hnew
    simp [mem_scan_ids, h m hm] at hold
  rw [length_scan _ happart fun id => by rw [mem_append, mem_scan_ids, isSome_foldl_write]]
  simp [Nat.add_comm]

theorem length_removed (index : UInt64 × Member → UInt64) (hn : ((t.byUids uids).map Prod.fst).Nodup) :
    t.scan.length = ((t.byUids uids).foldl (remove index) t).scan.length + (t.byUids uids).length := by
  have happart : ((t.byUids uids).map Prod.fst ++ ((t.byUids uids).foldl (remove index) t).scan.map Prod.fst).Nodup := by
    apply nodup_append'.mpr ⟨hn, nodup_scan, _⟩
    intro id hfound hleft
    rw [mem_scan_ids, rows_removed, if_pos (mem_byUids_map.mp hfound).1] at hleft
    cases hleft
  rw [length_scan _ happart]
  · simp [Nat.add_comm]
  intro id
  rw [mem_append, mem_scan_ids, mem_byUids_map, rows_removed]
  by_cases hid : id ∈ uids.map hashWithString
  all_goals simp [hid]

theorem length_iterate (h0 : t.rows 0 = none) (hmax : t.rows maxUint64 = none) :
    (iterateMembers (t.scan.filter fun e => e.1 ≠ maxUint64)).length = t.scan.length := by
  have hne {id' : UInt64} (h : t.rows id' = none) : ∀ e ∈ t.scan, e.1 ≠ id' := by
    rintro ⟨id, m⟩ he rfl
    cases h.symm.trans (mem_scan.mp he)
  rw [filter_eq_self.mpr fun e he => decide_eq_true (hne hmax e he), iterateMembers_eq (hne h0), length_map]

end MemberTable

-- The scan runs over all numbers of 64 bits, so its definition must not be unfolded from here on.
attribute [local irreducible] MemberTable.scan

theorem InfoEntry.key_injective : Function.Injective InfoEntry.key := by
  intro e e' h
  have hv := e.value.toNat_lt
  have hv' := e'.value.toNat_lt
  have hi := e.id.toNat_lt
  have hi' := e'.id.toNat_lt
  rw [key, key, secondIndexKey, secondIndexKey] at h
  have hid : e.id = e'.id := UInt64.toNat_inj.mp (by omega)
  have hvalue : e.value = e'.value := UInt64.toNat_inj.mp (by omega)
  have hcode : e.index.code = e'.index.code := by omega
  have hindex : e.index = e'.index := by
    revert hcode
    cases e.index <;> cases e'.index <;> decide
  cases e
  cases e'
  simp_all only

inductive MemberList
  | allowlist | denylist
  deriving DecidableEq

namespace MemberList

def table (t : ChannelTables) (num : UInt64) : MemberList → MemberTable
  | allowlist => t.allowlist num
  | denylist => t.denylist num

def column (r : ChannelInfoRow) : MemberList → Option UInt32
  | allowlist => r.allowlistCount
  | denylist => r.denylistCount

def count (r : ChannelRecord) : MemberList → UInt32
  | allowlist => r.allowlistCount
  | denylist => r.denylistCount

def index : MemberList → InfoIndex
  | allowlist => .allowlistCount
  | denylist => .denylistCount

def get (t : ChannelTables) (c : Channel) : MemberList → List Member
  | allowlist => t.getAllowlist c
  | denylist => t.getDenylist c

variable (s : ChannelDB) (c : Channel)

def add (members : List Member) : MemberList → ChannelDB
  | allowlist => s.addAllowlist c members
  | denylist => s.addDenylist c members

def remove (uids : List Bytes) : MemberList → ChannelDB
  | allowlist => s.removeAllowlist c uids
  | denylist => s.removeDenylist c uids

def removeAll : MemberList → ChannelDB
  | allowlist => s.removeAllAllowlist c
  | denylist => s.removeAllDenylist c

end MemberList

namespace ChannelDB
variable {s s' : ChannelDB} {c : Channel} {l : MemberList} {table : MemberTable} {delta : Int} {a : CountAction}

/-- What any change of a list does: the list is the given one, and its count goes up by `delta`. -/
structure Changed (c : Channel) (l : MemberList) (table : MemberTable) (delta : Int) (s s' : ChannelDB) : Prop where
  table : l.table s'.tables (channelToNum c) = table
  column : l.column (s'.tables.infos (channelToNum c)) =
    some (incChannelInfoColumnCount delta (l.column (s.tables.infos (channelToNum c))))
  entries : s'.entries = s.incEntries c l.index delta (l.column (s.tables.infos (channelToNum c)))
  base : (s'.tables.infos (channelToNum c)).base = (s.tables.infos (channelToNum c)).base
  others : ∀ l', l' ≠ l → l'.table s'.tables (channelToNum c) = l'.table s.tables (channelToNum c) ∧
    l'.column (s'.tables.infos (channelToNum c)) = l'.column (s.tables.infos (channelToNum c))
  cache : s'.channelInfoCache = s.channelInfoCache

theorem changed_allowlist (table : MemberTable) (delta : Int) : Changed c .allowlist table delta s
    (s.setAllowlistCount c (s.tables.setAllowlist (channelToNum c) table delta) delta) := by
  refine ⟨?_, ?_, rfl, ?_, fun l hl => ?_, rfl⟩
  · simp [MemberList.table, setAllowlistCount, setAllowlist]
  · simp [MemberList.column, setAllowlistCount, setAllowlist, incAllowlistCount]
  · simp [setAllowlistCount, setAllowlist, incAllowlistCount]
  · cases l with
    | allowlist => exact absurd rfl hl
    | denylist => simp [MemberList.table, MemberList.column, setAllowlistCount, setAllowlist,
        incAllowlistCount]

theorem changed_denylist (table : MemberTable) (delta : Int) : Changed c .denylist table delta s
    (s.setDenylistCount c (s.tables.setDenylist (channelToNum c) table delta) delta) := by
  refine ⟨?_, ?_, rfl, ?_, fun l hl => ?_, rfl⟩
  · simp [MemberList.table, setDenylistCount, setDenylist]
  · simp [MemberList.column, setDenylistCount, setDenylist, incDenylistCount]
  · simp [setDenylistCount, setDenylist, incDenylistCount]
  · cases l with
    | denylist => exact absurd rfl hl
    | allowlist => simp [MemberList.table, MemberList.column, setDenylistCount, setDenylist,
        incDenylistCount]

theorem changed_add (l : MemberList) (members : List Member) :
    Changed c l (members.foldl MemberTable.write (l.table s.tables (channelToNum c))) members.length s (l.add s c members) := by
  cases l with
  | allowlist => exact changed_allowlist ..
  | denylist => exact changed_denylist ..

theorem changed_remove (l : MemberList) (uids : List Bytes) :
    Changed c l (((l.table s.tables (channelToNum c)).byUids uids).foldl (MemberTable.remove Prod.fst)
      (l.table s.tables (channelToNum c)))
        (-((l.table s.tables (channelToNum c)).byUids uids).length) s (l.remove s c uids) := by
  cases l with
  | allowlist => exact changed_allowlist ..
  | denylist => exact changed_denylist ..

theorem changed_removeAll (l : MemberList) :
    Changed c l (emptied (l.table s.tables (channelToNum c))) 0 s (l.removeAll s c) := by
  cases l with
  | allowlist => exact changed_allowlist ..
  | denylist => exact changed_denylist ..

inductive CountAction
  | add (l : MemberList) (members : List Member)
  | remove (l : MemberList) (uids : List Bytes)
  | removeAll (l : MemberList)
  | getChannel
  | evict (key : Bytes)

def countStep (c : Channel) (s : ChannelDB) : CountAction → Option ChannelDB
  | .add l members => some (l.add s c members)
  | .remove l uids => some (l.remove s c uids)
  | .removeAll l => some (l.removeAll s c)
  | .getChannel => some (s.getChannel c).2
  | .evict key => some { s with channelInfoCache := update s.channelInfoCache key none }

/-- The counts handed out are the lengths of the lists handed out. -/
def CountsExact (c : Channel) (s : ChannelDB) : Prop :=
  ∀ l : MemberList, (l.count (s.getChannel c).1).toNat = (l.get s.tables c).length

def IndexExact (c : Channel) (s : ChannelDB) : Prop :=
  ∀ (l : MemberList) (value : UInt64), (⟨l.index, value, channelToNum c⟩ : InfoEntry) ∈ s.entries ↔
    ∃ n, l.column (s.tables.infos (channelToNum c)) = some n ∧ value = n.toUInt64

/-- A channel with a row whose counts are right, there and in the cache. -/
structure Counted (c : Channel) (s : ChannelDB) : Prop where
  named : ∃ b, (s.tables.infos (channelToNum c)).base = some b ∧ b.channel = c
  hidden : ∀ l : MemberList, (l.table s.tables (channelToNum c)).rows 0 = none ∧
    (l.table s.tables (channelToNum c)).rows maxUint64 = none
  column : ∀ l : MemberList, ((l.column (s.tables.infos (channelToNum c))).getD 0).toNat =
    (l.table s.tables (channelToNum c)).scan.length
  cached : ∀ r, s.channelInfoCache (infoCacheKey c) = some r →
    ∀ l : MemberList, (l.count r).toNat = (l.table s.tables (channelToNum c)).scan.length

/-- Members are added that are new and differ, members are removed that are found once each; a
change that counts nothing meets an empty list; and the channel is not in the cache when a count
changes. -/
def CountCareful (c : Channel) (s : ChannelDB) : CountAction → Prop
  | .add l members =>
    (members = [] → ∀ id, (l.table s.tables (channelToNum c)).rows id = none) ∧
    (members.map fun m => hashWithString m.uid).Nodup ∧
    (∀ m ∈ members, (l.table s.tables (channelToNum c)).rows (hashWithString m.uid) = none ∧
      hashWithString m.uid ≠ 0 ∧ hashWithString m.uid ≠ maxUint64) ∧
    ((l.column (s.tables.infos (channelToNum c))).getD 0).toNat + members.length < 2 ^ 32 ∧
    (members ≠ [] → s.channelInfoCache (infoCacheKey c) = none)
  | .remove l uids =>
    let found := (l.table s.tables (channelToNum c)).byUids uids
    (found = [] → ∀ id, (l.table s.tables (channelToNum c)).rows id = none) ∧ (found.map Prod.fst).Nodup ∧
    (found ≠ [] → s.channelInfoCache (infoCacheKey c) = none)
  | .removeAll l =>
    (∀ id, (l.table s.tables (channelToNum c)).rows id = none) ∨ s.channelInfoCache (infoCacheKey c) = none
  | .getChannel => True
  | .evict _ => True

/-- The column has no value and gets one, or is zero and stays so. -/
def IndexCareful (c : Channel) (s : ChannelDB) : CountAction → Prop
  | .add l members => l.column (s.tables.infos (channelToNum c)) = if members = [] then some 0 else none
  | .remove l uids => (l.table s.tables (channelToNum c)).byUids uids = [] ∧
    l.column (s.tables.infos (channelToNum c)) = some 0
  | .removeAll l => l.column (s.tables.infos (channelToNum c)) = some 0
  | .getChannel => True
  | .evict _ => True

theorem readInfo_of_base {b : ChannelBase} {id : UInt64} (h : (s.tables.infos id).base = some b) : s.readInfo id = some
      { id, base := b
        allowlistCount := (s.tables.infos id).allowlistCount.getD 0
        denylistCount := (s.tables.infos id).denylistCount.getD 0
        createdAt := readTime (s.tables.infos id).createdAt
        updatedAt := readTime (s.tables.infos id).updatedAt } := by
  have hrow : s.tables.infos id ≠ {} := fun h0 => by
    rw [h0] at h
    cases h
  rw [readInfo, ChannelInfoRow.read, if_neg hrow, h]
  rfl

theorem toNat_incColumn {column : Option UInt32} {n : Nat} (hd : delta ≠ 0)
    (h : delta + (column.getD 0).toNat = n) (hn : n < 2 ^ 32) : (incChannelInfoColumnCount delta column).toNat = n := by
  rw [incChannelInfoColumnCount, if_neg hd, UInt32.ofInt, UInt32.toNat_ofNat']
  omega

namespace Counted

theorem length_get (h : Counted c s) (l : MemberList) :
    (l.get s.tables c).length = (l.table s.tables (channelToNum c)).scan.length := by
  obtain ⟨h0, hmax⟩ := h.hidden l
  cases l <;> rw [MemberList.get, MemberList.table] <;> exact MemberTable.length_iterate h0 hmax

theorem exact (hc : channelToNum c ≠ 0) (h : Counted c s) : CountsExact c s := by
  intro l
  rw [h.length_get]
  cases hr : s.channelInfoCache (infoCacheKey c) with
  | some r =>
    rw [getChannel, hr]
    exact h.cached r hr l
  | none =>
    obtain ⟨b, hb, -⟩ := h.named
    rw [getChannel, hr]
    dsimp only
    rw [if_neg hc, readInfo_of_base hb, ← h.column l]
    cases l <;> rfl

theorem getChannel (hc : channelToNum c ≠ 0) (h : Counted c s) : Counted c (s.getChannel c).2 := by
  obtain ⟨b, hb, hbc⟩ := h.named
  cases hr : s.channelInfoCache (infoCacheKey c) with
  | some r =>
    rw [ChannelDB.getChannel, hr]
    exact h
  | none =>
    rw [ChannelDB.getChannel, hr]
    dsimp only
    rw [if_neg hc, readInfo_of_base hb]
    refine ⟨⟨b, hb, hbc⟩, h.hidden, h.column, fun r hr l => ?_⟩
    dsimp only at hr
    rw [hbc, update_self] at hr
    cases hr
    rw [← h.column l]
    cases l <;> rfl

section
variable (h : Counted c s)
include h

theorem evict (key : Bytes) : Counted c { s with channelInfoCache := update s.channelInfoCache key none } := by
  refine { h with cached := fun r hr => ?_ }
  dsimp only at hr
  by_cases hk : infoCacheKey c = key
  · rw [hk, update_self] at hr
    cases hr
  · rw [update_of_ne hk] at hr
    exact h.cached r hr

theorem change (hs : Changed c l table delta s s') (hidden : table.rows 0 = none ∧ table.rows maxUint64 = none)
    (hcount : (incChannelInfoColumnCount delta (l.column (s.tables.infos (channelToNum c)))).toNat = table.scan.length)
    (hcache : table.scan.length = (l.table s.tables (channelToNum c)).scan.length ∨
      s.channelInfoCache (infoCacheKey c) = none) : Counted c s' := by
  refine ⟨?_, fun l' => ?_, fun l' => ?_, fun r hr l' => ?_⟩
  · rw [hs.base]
    exact h.named
  · by_cases hl : l' = l
    · rw [hl, hs.table]
      exact hidden
    · rw [(hs.others l' hl).1]
      exact h.hidden l'
  · by_cases hl : l' = l
    · rw [hl, hs.table, hs.column]
      exact hcount
    · rw [(hs.others l' hl).1, (hs.others l' hl).2]
      exact h.column l'
  · rw [hs.cache] at hr
    by_cases hl : l' = l
    · rcases hcache with hsame | hnone
      · rw [hl, hs.table, hsame]
        exact h.cached r hr l
      · cases hnone.symm.trans hr
    · rw [(hs.others l' hl).1]
      exact h.cached r hr l'

theorem add {members : List Member} (ha : CountCareful c s (.add l members)) : Counted c (l.add s c members) := by
  obtain ⟨hempty, hdiffer, hnew, hfit, hcache⟩ := ha
  have hcolumn := h.column l
  have hlength := MemberTable.length_foldl_write hdiffer fun m hm => (hnew m hm).1
  have hrow {id : UInt64} (hid : (l.table s.tables (channelToNum c)).rows id = none)
      (hne : ∀ m ∈ members, hashWithString m.uid ≠ id) :
      (members.foldl MemberTable.write (l.table s.tables (channelToNum c))).rows id = none := by
    rw [← not_isSome_iff_eq_none, MemberTable.isSome_foldl_write]
    simpa [hid] using hne
  refine h.change (changed_add l members) ⟨?_, ?_⟩ ?_ ?_
  · exact hrow (h.hidden l).1 fun m hm => (hnew m hm).2.1
  · exact hrow (h.hidden l).2 fun m hm => (hnew m hm).2.2
  · rw [hlength]
    cases members with
    | nil =>
      rw [MemberTable.length_scan_eq_zero.mpr (hempty rfl)]
      rfl
    | cons m members =>
      apply toNat_incColumn
      · simp only [length_cons]
        omega
      all_goals omega
  · cases members with
    | nil => exact .inl rfl
    | cons m members => exact .inr (hcache (cons_ne_nil m members))

theorem remove {uids : List Bytes} (ha : CountCareful c s (.remove l uids)) : Counted c (l.remove s c uids) := by
  obtain ⟨hempty, honce, hcache⟩ := ha
  have hcolumn := h.column l
  have hlength := MemberTable.length_removed Prod.fst honce
  have hrow {id : UInt64} (hid : (l.table s.tables (channelToNum c)).rows id = none) :
      (((l.table s.tables (channelToNum c)).byUids uids).foldl (MemberTable.remove Prod.fst)
        (l.table s.tables (channelToNum c))).rows id = none := by
    rw [MemberTable.rows_removed, hid, ite_self]
  refine h.change (changed_remove l uids) ⟨hrow (h.hidden l).1, hrow (h.hidden l).2⟩ ?_ ?_
  · by_cases hnone : (l.table s.tables (channelToNum c)).byUids uids = []
    · rw [hnone, foldl_nil, MemberTable.length_scan_eq_zero.mpr (hempty hnone)]
      rfl
    have hpos := length_pos_iff.mpr hnone
    have hlt := ((l.column (s.tables.infos (channelToNum c))).getD 0).toNat_lt
    apply toNat_incColumn
    all_goals omega
  · by_cases hnone : (l.table s.tables (channelToNum c)).byUids uids = []
    · rw [hnone]
      exact .inl rfl
    · exact .inr (hcache hnone)

theorem removeAll (ha : CountCareful c s (.removeAll l)) : Counted c (l.removeAll s c) := by
  have hrow (id : UInt64) : (emptied (l.table s.tables (channelToNum c))).rows id = none := by
    dsimp only [emptied]
    split
    · next hid => rw [hid, (h.hidden l).2]
    · rfl
  have hlength := MemberTable.length_scan_eq_zero.mpr hrow
  refine h.change (changed_removeAll l) ⟨hrow 0, hrow maxUint64⟩ ?_ ?_
  · rw [hlength, incChannelInfoColumnCount]
    rfl
  · refine ha.imp_left fun hempty => ?_
    rw [hlength, MemberTable.length_scan_eq_zero.mpr hempty]

end

theorem step (hc : channelToNum c ≠ 0) (h : Counted c s) (ha : CountCareful c s a)
    (hs : countStep c s a = some s') : Counted c s' := by
  cases a <;> cases hs
  case add l members => exact h.add ha
  case remove l uids => exact h.remove ha
  case removeAll l => exact h.removeAll ha
  case getChannel => exact h.getChannel hc
  case evict key => exact h.evict key

end Counted

theorem IndexExact.change (h : IndexExact c s) (hs : Changed c l table delta s s')
    (hfirst : delta ≠ 0 → l.column (s.tables.infos (channelToNum c)) = none ∧ 0 < delta ∧ delta < 2 ^ 32)
    (hreset : delta = 0 → l.column (s.tables.infos (channelToNum c)) = some 0) : IndexExact c s' := by
  intro l' value
  rw [hs.entries, incEntries]
  by_cases hl : l' = l
  · subst hl
    rw [hs.column, incChannelInfoColumnCount]
    split
    · next hd =>
      rw [h l' value, hreset hd]
    · next hd =>
      obtain ⟨hcolumn, hpos, hlt⟩ := hfirst hd
      obtain ⟨n, rfl⟩ := Int.eq_ofNat_of_zero_le hpos.le
      rw [mem_put_of_injective InfoEntry.key_injective, h l' value, hcolumn]
      have hvalue : (UInt32.ofInt n).toUInt64 = UInt64.ofInt n := by
        apply UInt64.toNat_inj.mp
        rw [UInt32.toNat_toUInt64, UInt32.ofInt, UInt64.ofInt, UInt32.toNat_ofNat', UInt64.toNat_ofNat']
        omega
      simp [hvalue]
  · have hindex : l'.index ≠ l.index := by
      cases l <;> cases l' <;> first | exact absurd rfl hl | decide
    rw [(hs.others l' hl).2]
    split
    · exact h l' value
    · rw [mem_put_of_injective InfoEntry.key_injective, ← h l' value]
      simp [hindex]

theorem IndexExact.step (h : IndexExact c s) (ha : CountCareful c s a) (hi : IndexCareful c s a)
    (hs : countStep c s a = some s') : IndexExact c s' := by
  cases a <;> cases hs
  case add l members =>
    apply h.change (changed_add l members)
    · intro hd
      have hne : members ≠ [] := by
        rintro rfl
        exact hd rfl
      have hpos := length_pos_iff.mpr hne
      have hfit := ha.2.2.2.1
      exact ⟨hi.trans (if_neg hne), by omega, by omega⟩
    · intro hd
      rw [hi, if_pos (length_eq_zero_iff.mp (by omega))]
  case remove l uids =>
    refine h.change (changed_remove l uids) (fun hd => ?_) fun _ => hi.2
    rw [hi.1] at hd
    exact absurd rfl hd
  case removeAll l => exact h.change (changed_removeAll l) (fun hd => absurd rfl hd) fun _ => hi
  case getChannel =>
    intro l value
    have hsame : (s.getChannel c).2.entries = s.entries ∧ (s.getChannel c).2.tables = s.tables := by
      rw [getChannel]
      split
      · exact ⟨rfl, rfl⟩
      split
      · exact ⟨rfl, rfl⟩
      split <;> exact ⟨rfl, rfl⟩
    rw [hsame.1, hsame.2]
    exact h l value
  case evict key => exact h

/-- The counts are right in every run of careful steps, and so is the index of the counts as long as
no value follows another one there. -/
theorem counts_exact (hc : channelToNum c ≠ 0) :
    (∀ s, Reach (Counted c) (countStep c) (CountCareful c) s → CountsExact c s) ∧
    ∀ s, Reach (fun s => Counted c s ∧ IndexExact c s) (countStep c)
      (fun s a => CountCareful c s a ∧ IndexCareful c s a) s → IndexExact c s := by
  constructor
  · intro s hs
    apply Counted.exact hc
    exact hs.invariant (Counted c) (fun _ => id) fun s a t h ha hstep => h.step hc ha hstep
  · intro s hs
    exact hs.invariant (IndexExact c) (fun _ h => h.2) fun s a t h ha hstep => h.step ha.1 ha.2 hstep

private def pair : Channel := ⟨[112], 2⟩

private def quiet : ChannelBase := ⟨pair, false, false, false, false, false⟩

private def uncounted : ChannelDB := addChannel { shardNum := 8 } { base := quiet }

private theorem uncounted_counted : Counted pair uncounted := by
  have hempty (l : MemberList) (id : UInt64) : (l.table uncounted.tables (channelToNum pair)).rows id = none := by
    cases l <;> rfl
  have hlength (l : MemberList) := MemberTable.length_scan_eq_zero.mpr (hempty l)
  have hcached : uncounted.channelInfoCache (infoCacheKey pair) = some { id := channelToNum pair, base := quiet } := by
    decide +kernel
  refine ⟨⟨quiet, by decide +kernel, rfl⟩, fun l => ⟨hempty l 0, hempty l maxUint64⟩, fun l => ?_, fun r hr l => ?_⟩
  · rw [hlength]
    cases l <;> decide +kernel
  · rw [hlength]
    cases hcached.symm.trans hr
    cases l <;> rfl

private theorem uncounted_index : IndexExact pair uncounted := by
  intro l value
  have hother : ∀ e ∈ uncounted.entries, e.index ≠ l.index := by cases l <;> decide +kernel
  have hnone : l.column (uncounted.tables.infos (channelToNum pair)) = none := by cases l <;> decide +kernel
  rw [hnone]
  exact ⟨fun hmem => absurd rfl (hother _ hmem), fun ⟨_, h, _⟩ => by cases h⟩

/-- Once the cache has lost the new channel, two members are added, which writes the index, and one
is removed. -/
theorem counts_exact_removed :
    let fresh : ChannelDB := { uncounted with channelInfoCache := update uncounted.channelInfoCache (infoCacheKey pair) none }
    let two := fresh.addAllowlist pair [{ uid := [117] }, { uid := [118] }]
    CountsExact pair (two.removeAllowlist pair [[117]]) ∧ IndexExact pair two := by
  intro fresh two
  have hnone : fresh.channelInfoCache (infoCacheKey pair) = none := by simp [fresh]
  have hadd : CountCareful pair fresh (.add .allowlist [{ uid := [117] }, { uid := [118] }]) :=
    ⟨nofun, by decide +kernel, by decide +kernel, by decide +kernel, fun _ => hnone⟩
  have hexact := counts_exact (c := pair) (by decide +kernel)
  constructor
  · apply hexact.1
    apply Reach.step (a := .remove .allowlist [[117]]) _ _ rfl
    · refine .step (a := .add .allowlist _) (.step (a := .evict (infoCacheKey pair)) ?_ trivial rfl) hadd rfl
      exact .init uncounted_counted
    · exact ⟨fun h => absurd h (by decide +kernel), by decide +kernel, fun _ => hnone⟩
  · apply hexact.2
    have hunset : IndexCareful pair fresh (.add .allowlist [{ uid := [117] }, { uid := [118] }]) :=
      show MemberList.allowlist.column (fresh.tables.infos (channelToNum pair)) = none by decide +kernel
    apply Reach.step (a := .add .allowlist _) _ ⟨hadd, hunset⟩ rfl
    exact .step (a := .evict (infoCacheKey pair)) (.init ⟨uncounted_counted, uncounted_index⟩) ⟨trivial, trivial⟩ rfl

/-- One member is added twice: the count is two, the list has one member, and the index has the
counts one and two. -/
theorem counts_exact_fails :
    let fresh : ChannelDB := { uncounted with channelInfoCache := update uncounted.channelInfoCache (infoCacheKey pair) none }
    let s := (fresh.addAllowlist pair [{ uid := [117] }]).addAllowlist pair [{ uid := [117] }]
    (s.getChannel pair).1.allowlistCount = 2 ∧ (s.tables.getAllowlist pair).length = 1 ∧
      ⟨.allowlistCount, 1, channelToNum pair⟩ ∈ s.entries ∧ ⟨.allowlistCount, 2, channelToNum pair⟩ ∈ s.entries := by
  intro fresh s
  refine ⟨by decide +kernel, ?_, by decide +kernel, by decide +kernel⟩
  have hrows : s.tables.allowlist (channelToNum pair) = [{ uid := [117] }, { uid := [117] }].foldl MemberTable.write {} := by
    have hfirst := (changed_add (s := fresh) (c := pair) .allowlist [{ uid := [117] }]).table
    have hsecond := (changed_add (s := fresh.addAllowlist pair [{ uid := [117] }]) (c := pair) .allowlist [{ uid := [117] }]).table
    exact hsecond.trans (congrArg (fun t : MemberTable => t.write { uid := [117] }) hfirst)
  rw [getAllowlist, hrows, MemberTable.length_iterate (by decide +kernel) (by decide +kernel)]
  apply MemberTable.length_scan [hashWithString [117]] (nodup_singleton _)
  intro id
  rw [MemberTable.isSome_foldl_write]
  simp

end ChannelDB
end WuKongIM.WKDB

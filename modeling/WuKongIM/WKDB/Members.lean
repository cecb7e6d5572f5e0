import WuKongIM.WKDB.ChannelTables

/-! The lists of members as they are read: the rows in the order of their identifiers, and which
names are among them after the changes of a list. -/
namespace WuKongIM.WKDB
open Lib List Option Function
open MemberTable (remove)

/-- A member as the readers of a list hand it over. -/
def Member.read (m : Member) : Member := { m with createdAt := readTime m.createdAt, updatedAt := readTime m.updatedAt }

def MemberTable.scan (t : MemberTable) : List (UInt64 × Member) :=
  (List.range UInt64.size).filterMap fun n => (t.rows (UInt64.ofNat n)).map fun m => (UInt64.ofNat n, m)

/-- The loop compares each identifier with the one before it, which starts at zero: a row of
identifier zero is handed over only when no other row follows. -/
def iterateMembers : List (UInt64 × Member) → List Member
  | [] => []
  | [e] => [e.2.read]
  | e :: es => if e.1 = 0 then iterateMembers es else e.2.read :: iterateMembers es

namespace ChannelTables
variable (t : ChannelTables) (c : Channel)

def getSubscribers : List Member := iterateMembers (t.subscribers (channelToNum c)).scan

/-- The largest identifier bounds the scan. -/
def getAllowlist : List Member := iterateMembers ((t.allowlist (channelToNum c)).scan.filter fun e => e.1 ≠ maxUint64)

def getDenylist : List Member := iterateMembers ((t.denylist (channelToNum c)).scan.filter fun e => e.1 ≠ maxUint64)

end ChannelTables

variable {t : MemberTable}

variable {id : UInt64} {m : Member}

theorem mem_scan : (id, m) ∈ t.scan ↔ t.rows id = some m := by
  rw [MemberTable.scan, mem_filterMap]
  constructor
  · rintro ⟨n, -, hn⟩
    obtain ⟨m', hm, he⟩ := map_eq_some_iff.mp hn
    cases he
    exact hm
  · intro h
    refine ⟨id.toNat, mem_range.mpr id.toNat_lt_size, ?_⟩
    rw [UInt64.ofNat_toNat, h]
    rfl

theorem scan_eq_nil (h : ∀ id, t.rows id = none) : t.scan = [] := by
  refine eq_nil_iff_forall_not_mem.mpr fun e he => ?_
  cases (h e.1).symm.trans (mem_scan.mp he)

theorem getAllowlist_eq_nil {t : ChannelTables} {c : Channel}
    (h : ∀ id, (t.allowlist (channelToNum c)).rows id = none) : t.getAllowlist c = [] := by
  rw [ChannelTables.getAllowlist, scan_eq_nil h, filter_nil, iterateMembers]

theorem iterateMembers_eq {es : List (UInt64 × Member)} (h : ∀ e ∈ es, e.1 ≠ 0) :
    iterateMembers es = es.map fun e => e.2.read := by
  induction es with
  | nil => rfl
  | cons e es ih =>
    cases es with
    | nil => rfl
    | cons e' es =>
      rw [iterateMembers, if_neg (h e (.head _)), ih fun x hx => h x (mem_cons_of_mem e hx)]
      · rfl
      · exact nofun

/-- The names in use are told apart by their hashes, and no hash is one of the bounds of the
scans. -/
structure Hashed (names : Bytes → Prop) : Prop where
  inj : ∀ u u', names u → names u' → hashWithString u = hashWithString u' → u = u'
  ne_zero : ∀ u, names u → hashWithString u ≠ 0
  ne_max : ∀ u, names u → hashWithString u ≠ maxUint64

namespace MemberTable
variable {names : Bytes → Prop} {uid : Bytes} {uids : List Bytes} {members : List Member} {e : UInt64 × Member}

def has (t : MemberTable) (uid : Bytes) : Bool := (t.rows (hashWithString uid)).isSome

/-- The rows lie under the hashes of their names, and the index has the same entries. -/
structure Sound (names : Bytes → Prop) (t : MemberTable) : Prop where
  named : ∀ id m, t.rows id = some m → names m.uid ∧ hashWithString m.uid = id
  indexed : ∀ id, (t.uidIndex id).isSome = (t.rows id).isSome

theorem Sound.empty : Sound names {} where
  named _ _ h := nomatch h
  indexed _ := rfl

section
variable (h : t.Sound names) (hn : Hashed names)
include h hn

theorem Sound.id_ne_zero (he : e ∈ t.scan) : e.1 ≠ 0 := by
  obtain ⟨hu, hid⟩ := h.named e.1 e.2 (mem_scan.mp he)
  exact hid ▸ hn.ne_zero _ hu

theorem Sound.id_ne_max (he : e ∈ t.scan) : e.1 ≠ maxUint64 := by
  obtain ⟨hu, hid⟩ := h.named e.1 e.2 (mem_scan.mp he)
  exact hid ▸ hn.ne_max _ hu

theorem Sound.iterate_scan : iterateMembers t.scan = t.scan.map fun e => e.2.read :=
  iterateMembers_eq fun _ he => h.id_ne_zero hn he

theorem Sound.iterate_filter : iterateMembers (t.scan.filter fun e => e.1 ≠ maxUint64) = t.scan.map fun e => e.2.read := by
  rw [filter_eq_self.mpr fun e he => decide_eq_true (h.id_ne_max hn he), h.iterate_scan hn]

theorem Sound.mem_scan_map (hu : names uid) : uid ∈ (t.scan.map fun e => e.2.read).map (·.uid) ↔ t.has uid := by
  rw [has, isSome_iff_exists, List.map_map, List.mem_map]
  constructor
  · rintro ⟨⟨id, m⟩, he, rfl⟩
    have hm := mem_scan.mp he
    exact ⟨m, (h.named id m hm).2.symm ▸ hm⟩
  · rintro ⟨m, hm⟩
    obtain ⟨hmu, hid⟩ := h.named _ m hm
    exact ⟨(hashWithString uid, m), mem_scan.mpr hm, hn.inj _ _ hmu hu hid⟩

end

theorem scan_map_ne_nil : (t.scan.map fun e => e.2.read) ≠ [] ↔ ∃ id, (t.rows id).isSome := by
  rw [Ne, map_eq_nil_iff]
  constructor
  · intro h
    obtain ⟨⟨id, m⟩, he⟩ := exists_mem_of_ne_nil _ h
    exact ⟨id, by rw [mem_scan.mp he]; rfl⟩
  · rintro ⟨id, h⟩ hnil
    obtain ⟨m, hm⟩ := isSome_iff_exists.mp h
    exact not_mem_nil (hnil ▸ mem_scan.mpr hm)

theorem Sound.write (h : t.Sound names) {m : Member} (hm : names m.uid) : (t.write m).Sound names := by
  constructor
  · intro id m' hr
    by_cases hid : id = hashWithString m.uid
    · subst hid
      simp only [MemberTable.write, update_self, some.injEq] at hr
      subst hr
      exact ⟨hm, rfl⟩
    · simp only [MemberTable.write, update_of_ne hid] at hr
      exact h.named id m' hr
  · intro id
    by_cases hid : id = hashWithString m.uid
    · subst hid
      simp [MemberTable.write]
    · simp only [MemberTable.write, update_of_ne hid]
      exact h.indexed id

theorem has_write (m : Member) (uid : Bytes) :
    (t.write m).has uid = (decide (hashWithString uid = hashWithString m.uid) || t.has uid) := by
  by_cases hid : hashWithString uid = hashWithString m.uid
  all_goals simp [has, write, hid]

theorem Sound.foldl_write (h : t.Sound names) (hm : ∀ m ∈ members, names m.uid) :
    (members.foldl MemberTable.write t).Sound names := by
  induction members generalizing t with
  | nil => exact h
  | cons m members ih => exact ih (h.write (hm m (.head members))) fun x hx => hm x (mem_cons_of_mem m hx)

theorem has_foldl_write (hn : Hashed names) (hm : ∀ m ∈ members, names m.uid) (hu : names uid) :
    (members.foldl MemberTable.write t).has uid = if uid ∈ members.map (·.uid) then true else t.has uid := by
  induction members generalizing t with
  | nil => rfl
  | cons m members ih =>
    have hiff : hashWithString uid = hashWithString m.uid ↔ uid = m.uid :=
      ⟨hn.inj _ _ hu (hm m (.head members)), fun h => h ▸ rfl⟩
    rw [foldl_cons, ih fun x hx => hm x (mem_cons_of_mem m hx), has_write]
    by_cases h : uid = m.uid
    · simp [h]
    · simp [hiff, h]

variable (index : UInt64 × Member → UInt64)

theorem foldl_remove (id : UInt64) (es : List (UInt64 × Member)) (t : MemberTable) :
    (es.foldl (remove index) t).rows id = (if id ∈ es.map Prod.fst then none else t.rows id) ∧
      (es.foldl (remove index) t).uidIndex id = if id ∈ es.map index then none else t.uidIndex id := by
  induction es generalizing t with
  | nil => exact ⟨rfl, rfl⟩
  | cons e es ih =>
    obtain ⟨hr, hi⟩ := ih (remove index t e)
    rw [foldl_cons, hr, hi]
    constructor
    · by_cases h : id = e.1 <;> by_cases h' : id ∈ es.map Prod.fst <;>
        simp [h, h', remove]
    · by_cases h : id = index e <;> by_cases h' : id ∈ es.map index <;>
        simp [h, h', remove]

theorem mem_byUids :
    e ∈ t.byUids uids ↔ (∃ uid ∈ uids, hashWithString uid = e.1) ∧ t.rows e.1 = some e.2 := by
  rw [byUids, mem_filterMap]
  constructor
  · rintro ⟨uid, huid, he⟩
    obtain ⟨m, hm, rfl⟩ := map_eq_some_iff.mp he
    exact ⟨⟨uid, huid, rfl⟩, hm⟩
  · rintro ⟨⟨uid, huid, he⟩, hm⟩
    exact ⟨uid, huid, by rw [he, hm]; rfl⟩

theorem mem_byUids_map {id : UInt64} : id ∈ (t.byUids uids).map Prod.fst ↔
    id ∈ uids.map hashWithString ∧ (t.rows id).isSome := by
  rw [List.mem_map, List.mem_map]
  constructor
  · rintro ⟨e, he, rfl⟩
    obtain ⟨hu, hm⟩ := mem_byUids.mp he
    exact ⟨hu, by rw [hm]; rfl⟩
  · rintro ⟨hu, hs⟩
    obtain ⟨m, hm⟩ := isSome_iff_exists.mp hs
    exact ⟨(id, m), mem_byUids.mpr ⟨hu, hm⟩, rfl⟩

theorem rows_removed (id : UInt64) : ((t.byUids uids).foldl (remove index) t).rows id =
      if id ∈ uids.map hashWithString then none else t.rows id := by
  rw [(foldl_remove ..).1]
  by_cases hid : id ∈ uids.map hashWithString
  · cases hr : t.rows id with
    | none => simp
    | some m => simp only [mem_byUids_map, hid, hr, isSome_some, and_self]
  · simp [mem_byUids_map, hid]

theorem Sound.removed (h : t.Sound names) (index : UInt64 × Member → UInt64) (hindex : ∀ e ∈ t.byUids uids, index e = e.1) :
    ((t.byUids uids).foldl (remove index) t).Sound names := by
  constructor
  · intro id m hr
    rw [rows_removed] at hr
    split at hr
    · cases hr
    · exact h.named id m hr
  · intro id
    have hmap : (t.byUids uids).map index = (t.byUids uids).map Prod.fst := map_congr_left hindex
    rw [(foldl_remove ..).1, (foldl_remove ..).2, hmap]
    split
    · rfl
    · exact h.indexed id

theorem has_removed (hn : Hashed names) (hm : ∀ u ∈ uids, names u) (hu : names uid) (index : UInt64 × Member → UInt64) :
    ((t.byUids uids).foldl (remove index) t).has uid = if uid ∈ uids then false else t.has uid := by
  have hiff : hashWithString uid ∈ uids.map hashWithString ↔ uid ∈ uids := by
    rw [List.mem_map]
    constructor
    · rintro ⟨u, hmem, he⟩
      exact hn.inj u uid (hm u hmem) hu he ▸ hmem
    · exact fun hmem => ⟨uid, hmem, rfl⟩
  rw [has, rows_removed]
  by_cases h : uid ∈ uids
  · simp [hiff.mpr h, h]
  · simp [mt hiff.mp h, h, has]

variable (h : t.Sound names) (hn : Hashed names)
include h hn

/-- No row of a known name lies under the bound that the removal of a whole list leaves out. -/
theorem Sound.rows_max : t.rows maxUint64 = none := by
  cases hr : t.rows maxUint64 with
  | none => rfl
  | some m =>
    obtain ⟨hu, hid⟩ := h.named _ m hr
    exact absurd hid (hn.ne_max _ hu)

theorem Sound.rows_emptied (id : UInt64) : (ChannelTables.emptied t).rows id = none := by
  dsimp only [ChannelTables.emptied]
  split
  · next hid => rw [hid, h.rows_max hn]
  · rfl

theorem Sound.emptied : (ChannelTables.emptied t).Sound names := by
  constructor
  · intro id m hr
    rw [h.rows_emptied hn] at hr
    cases hr
  intro id
  dsimp only [ChannelTables.emptied]
  split
  · next hid => rw [h.indexed]
  · rfl

theorem Sound.cleared : Sound names { uidIndex := fun id => if id = maxUint64 then t.uidIndex id else none } := by
  constructor
  · intro id m hr
    cases hr
  intro id
  dsimp only
  split
  · next hid => rw [hid, h.indexed, h.rows_max hn]
  · rfl

end MemberTable
end WuKongIM.WKDB

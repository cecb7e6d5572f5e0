import WuKongIM.Lib.Outcome
import WuKongIM.WKDB.SearchOutbox

/-! The keys of the search outbox: what they tell of a task, and the range of the keys of one
channel. -/
namespace WuKongIM.WKDB
open Lib List

theorem nextPrefix_cons (b : UInt8) (p : Bytes) : nextPrefix (b :: p) =
    ((nextPrefix p).map (b :: ·)).or (if b = 0xff then none else some [b + 1]) := by
  simp only [nextPrefix, reverse_cons, dropWhile_append]
  cases p.reverse.dropWhile (· = 0xff) with
  | nil => by_cases hb : b = 0xff <;> simp [hb]
  | cons last front => simp

/-- What starts with some bytes lies from them on and below the next ones. -/
theorem between_nextPrefix (p k : Bytes) : p ≤ k ∧ (∀ u ∈ nextPrefix p, k < u) ↔ p <+: k := by
  induction p generalizing k with
  | nil => simp [nextPrefix]
  | cons b p ih =>
    cases k with
    | nil => simp
    | cons a k =>
      rw [cons_prefix_cons, ← ih, cons_le_cons_iff, nextPrefix_cons]
      cases nextPrefix p with
      | none =>
        by_cases hb : b = 0xff
        · have hmax : ¬(255 : UInt8) < a := by simp [UInt8.lt_iff_toNat_lt, Nat.le_of_lt_succ a.toNat_lt]
          simp [hb, hmax]
        · have hnext : a < b + 1 ↔ a ≤ b := by
            grind
          simp [cons_lt_cons_iff]
          grind
      | some u =>
        simp [cons_lt_cons_iff]
        grind

theorem bigEndian_append_le (w a b : Nat) (x y : Bytes) : bigEndian w a ++ x ≤ bigEndian w b ++ y ↔
    a % 256 ^ w < b % 256 ^ w ∨ a % 256 ^ w = b % 256 ^ w ∧ x ≤ y := by
  induction w with
  | zero => simp [bigEndian, Nat.mod_one]
  | succ w ih =>
    have hmul {q q' : Nat} (h : q < q') : 256 ^ w * q + 256 ^ w ≤ 256 ^ w * q' := Nat.mul_le_mul_left _ h
    have hlt (n : Nat) : n % 256 ^ w < 256 ^ w := Nat.mod_lt n (Nat.pow_pos (by decide))
    rw [bigEndian, bigEndian, cons_append, cons_append, cons_le_cons_iff, ih, Nat.mod_pow_succ,
      Nat.mod_pow_succ, ← UInt8.toNat_inj]
    change a / 256 ^ w % 256 < b / 256 ^ w % 256 ∨ a / 256 ^ w % 256 = b / 256 ^ w % 256 ∧ _ ↔ _
    rcases Nat.lt_trichotomy (a / 256 ^ w % 256) (b / 256 ^ w % 256) with h | h | h
    · have := hmul h
      exact iff_of_true (.inl h) (.inl (by omega))
    · simp [h]
    · have := hmul h
      omega

variable {c c' : Channel} {seq start : UInt64} {id : Int64} {key lower upper : Bytes}

def searchOutboxFront (c : Channel) : Bytes := tableSearchOutbox ++ c.type :: bigEndian 2 c.id.length ++ c.id

theorem channelPrefix_eq_ok {front : Bytes} : searchOutboxChannelPrefix c = .ok front ↔
    isValidSearchOutboxChannelIdentity c ∧ searchOutboxFront c = front := by
  rw [searchOutboxChannelPrefix, searchOutboxFront]
  split <;> simp [*]

theorem newSearchOutboxKey_eq_ok : newSearchOutboxKey c seq id = .ok key ↔
    isValidSearchOutboxChannelIdentity c ∧ ¬(seq = 0 ∨ seq > 0xffffffff ∨ id ≤ 0) ∧
    searchOutboxFront c ++ (bigEndian 8 seq.toNat ++ bigEndian 8 id.toUInt64.toNat) = key := by
  simp only [newSearchOutboxKey, bind_eq_ok, channelPrefix_eq_ok]
  split <;> simp [*]

theorem newChannelRange_eq_ok : newSearchOutboxChannelRange c start = .ok (lower, upper) ↔
    isValidSearchOutboxChannelIdentity c ∧ ¬(start = 0 ∨ start > 0xffffffff) ∧
    searchOutboxFront c ++ (bigEndian 8 start.toNat ++ bigEndian 8 1) = lower ∧
    nextPrefix (searchOutboxFront c) = some upper := by
  simp only [newSearchOutboxChannelRange, bind_eq_ok, channelPrefix_eq_ok, and_assoc, exists_and_left, exists_eq_left']
  split
  · simp [*]
  split <;> simp [*]

theorem length_front (c : Channel) : (searchOutboxFront c).length = 7 + c.id.length := by
  simp [searchOutboxFront, tableSearchOutbox]
  omega

theorem length_of_valid (h : isValidSearchOutboxChannelIdentity c) :
    ofBigEndian (bigEndian 2 c.id.length) = c.id.length := by
  simp only [isValidSearchOutboxChannelIdentity, Bool.and_eq_true, decide_eq_true_eq] at h
  rw [ofBigEndian_bigEndian, Nat.mod_eq_of_lt (Nat.lt_of_le_of_lt h.2 (by decide))]

theorem mod_of_uint64 (q : UInt64) : q.toNat % 256 ^ 8 = q.toNat := Nat.mod_eq_of_lt q.toNat_lt

theorem toNat_of_pos (h : ¬id ≤ 0) : 0 < id.toUInt64.toNat ∧ id.toUInt64.toNat < 2 ^ 63 := by
  have hpos : 0 < id.toBitVec.toInt := by simpa [Int64.le_iff_toInt_le] using h
  rw [BitVec.toInt_eq_toNat_cond] at hpos
  change 0 < id.toBitVec.toNat ∧ id.toBitVec.toNat < 2 ^ 63
  split at hpos <;> omega

theorem parse_newSearchOutboxKey (h : newSearchOutboxKey c seq id = .ok key) :
    parseSearchOutboxKey key = .ok ⟨c.id, c.type, seq, id⟩ := by
  obtain ⟨hc, hgood, rfl⟩ := newSearchOutboxKey_eq_ok.mp h
  have hlength : ofBigEndian (bigEndian 2 c.id.length) = c.id.length := length_of_valid hc
  simp only [isValidSearchOutboxChannelIdentity, Bool.and_eq_true, decide_eq_true_eq] at hc
  obtain ⟨⟨⟨hne, htype⟩, hutf⟩, hlen⟩ := hc
  obtain ⟨hseq0, hseq, hpos⟩ : seq ≠ 0 ∧ ¬seq > 0xffffffff ∧ ¬id ≤ 0 := by simpa using hgood
  have hseq0 : seq.toNat ≠ 0 := fun h0 => hseq0 (UInt64.toNat_inj.mp h0)
  have hseq : seq.toNat ≤ 4294967295 := Nat.not_lt.mp hseq
  obtain ⟨hid0, hid⟩ := toNat_of_pos hpos
  set rest := bigEndian 8 seq.toNat ++ bigEndian 8 id.toUInt64.toNat with hrest
  have htable : (searchOutboxFront c ++ rest).take 4 = tableSearchOutbox := rfl
  have htype' : (searchOutboxFront c ++ rest).getD 4 0 = c.type := rfl
  have hlength : ofBigEndian (((searchOutboxFront c ++ rest).drop 5).take 2) = c.id.length := hlength
  have hchannel : ((searchOutboxFront c ++ rest).drop 7).take c.id.length = c.id := take_left
  have hdrop : (searchOutboxFront c ++ rest).drop (7 + c.id.length) = rest := drop_left' (length_front c)
  have hseq' : ofBigEndian (rest.take 8) = seq.toNat := by
    rw [take_left' (length_bigEndian ..), ofBigEndian_bigEndian, mod_of_uint64]
  have hid' : ofBigEndian ((rest.drop 8).take 8) = id.toUInt64.toNat := by
    rw [drop_left' (length_bigEndian ..), take_of_length_le (by simp), ofBigEndian_bigEndian, mod_of_uint64]
  have hraw : (searchOutboxFront c ++ rest).length = 23 + c.id.length := by
    simp [length_front, hrest]
    omega
  have hseqOk : ¬(seq.toNat = 0 ∨ seq.toNat > 4294967295) := by omega
  have hidOk : ¬(id.toUInt64.toNat = 0 ∨ id.toUInt64.toNat > 9223372036854775807) := by omega
  simp only [parseSearchOutboxKey, hlength, hchannel, ← drop_drop, hdrop, htable, htype', hseq', hid', hutf, hraw]
  simp [htype, hne, Nat.not_lt.mpr hlen, hseqOk, hidOk]

theorem channel_of_front (hc : isValidSearchOutboxChannelIdentity c)
    (hc' : isValidSearchOutboxChannelIdentity c') {rest : Bytes}
    (h : searchOutboxFront c <+: searchOutboxFront c' ++ rest) : c' = c := by
  obtain ⟨t, ht⟩ := h
  simp only [searchOutboxFront, append_assoc, append_cancel_left_eq, cons_append, cons.injEq] at ht
  obtain ⟨htype, ht⟩ := ht
  obtain ⟨hbytes, hids⟩ := append_inj ht (by simp)
  have hlen := congrArg ofBigEndian hbytes
  rw [length_of_valid hc, length_of_valid hc'] at hlen
  exact congrArg₂ Channel.mk (append_inj hids hlen).1.symm htype.symm

theorem mem_channelRange (hr : newSearchOutboxChannelRange c start = .ok (lower, upper))
    (hk : newSearchOutboxKey c' seq id = .ok key) : lower ≤ key ∧ key < upper ↔ c' = c ∧ start ≤ seq := by
  obtain ⟨hc, -, rfl, hupper⟩ := newChannelRange_eq_ok.mp hr
  obtain ⟨hc', hgood, rfl⟩ := newSearchOutboxKey_eq_ok.mp hk
  have hbetween := between_nextPrefix (searchOutboxFront c)
  simp only [hupper, Option.mem_some_iff, forall_eq'] at hbetween
  by_cases hcc : c' = c
  · subst hcc
    have hid := toNat_of_pos (not_or.mp (not_or.mp hgood).2).2
    have hlt := ((hbetween _).mpr (prefix_append _ (bigEndian 8 seq.toNat ++ bigEndian 8 id.toUInt64.toNat))).2
    have hone := (bigEndian_append_le 8 1 id.toUInt64.toNat [] []).mpr (by simp; omega)
    rw [append_nil, append_nil] at hone
    have happend (p x y : Bytes) : p ++ x ≤ p ++ y ↔ x ≤ y := ⟨fun h hlt => h (append_left_lt hlt), append_left_le⟩
    rw [and_iff_left hlt, eq_self, true_and, happend, bigEndian_append_le, mod_of_uint64, mod_of_uint64, and_iff_left hone]
    exact Nat.le_iff_lt_or_eq.symm
  · refine iff_of_false (fun ⟨hle, hlt⟩ => hcc (channel_of_front hc hc' ((hbetween _).mp ⟨?_, hlt⟩))) fun h => hcc h.1
    exact List.le_trans (prefix_append ..).le hle

/-- A key tells the task that it was made of, and the keys of the tasks of a channel from a sequence
number on are those in its range, so that cutting a channel leaves the tasks of the others. -/
theorem search_outbox_keys_faithful :
    (∀ c seq id, isValidSearchOutboxChannelIdentity c → ¬(seq = 0 ∨ seq > maxMessageSequence ∨ id ≤ 0) → ∃ key,
      newSearchOutboxKey c seq id = .ok key ∧ parseSearchOutboxKey key = .ok ⟨c.id, c.type, seq, id⟩) ∧
    (∀ c c' seq seq' id id' key, newSearchOutboxKey c seq id = .ok key → newSearchOutboxKey c' seq' id' = .ok key →
      c = c' ∧ seq = seq' ∧ id = id') ∧
    (∀ c start, isValidSearchOutboxChannelIdentity c → ¬(start = 0 ∨ start > maxMessageSequence) → ∃ lower upper,
      newSearchOutboxChannelRange c start = .ok (lower, upper) ∧ ∀ c' seq id key, newSearchOutboxKey c' seq id = .ok key →
        (lower ≤ key ∧ key < upper ↔ c' = c ∧ start ≤ seq)) ∧
    ∀ (s t : OutboxShard) c messageSeq, s.truncateLogTo c messageSeq = .ok t → ∀ c' seq id key,
      newSearchOutboxKey c' seq id = .ok key → c' ≠ c → t.queued.get key = s.queued.get key := by
  refine ⟨fun c seq id hc hgood => ?_, fun c c' seq seq' id id' key h h' => ?_,
    fun c start hc hgood => ?_, fun s t c messageSeq h c' seq id key hk hne => ?_⟩
  · have hkey := newSearchOutboxKey_eq_ok.mpr ⟨hc, hgood, rfl⟩
    exact ⟨_, hkey, parse_newSearchOutboxKey hkey⟩
  · have hparse := (parse_newSearchOutboxKey h).symm.trans (parse_newSearchOutboxKey h')
    cases c
    cases c'
    cases hparse
    exact ⟨rfl, rfl, rfl⟩
  · obtain ⟨upper, hupper⟩ : ∃ upper, nextPrefix (searchOutboxFront c) = some upper := by
      rw [searchOutboxFront, tableSearchOutbox, cons_append, cons_append, nextPrefix_cons]
      cases nextPrefix _ with
      | none | some u => exact ⟨_, rfl⟩
    have hr := newChannelRange_eq_ok.mpr ⟨hc, hgood, rfl, hupper⟩
    exact ⟨_, _, hr, fun c' seq id key => mem_channelRange hr⟩
  · obtain ⟨floors, -, h⟩ := bind_eq_ok.mp h
    obtain ⟨queued, hqueued, h⟩ := bind_eq_ok.mp h
    cases h
    rw [OutboxShard.truncateQueued] at hqueued
    split at hqueued
    · obtain ⟨⟨lower, upper⟩, hr, hqueued⟩ := bind_eq_ok.mp hqueued
      cases hqueued
      have hout := mt (mem_channelRange hr hk).mp fun h => hne h.1
      simp [hout]
    · cases hqueued
      rfl

end WuKongIM.WKDB

import Mathlib.Data.List.Nodup
import WuKongIM.Lib.Writes
import WuKongIM.WKDB.MessageReads

/-! The index of the message ids, and the readers of single messages. -/
namespace WuKongIM.WKDB
open Lib List Option Function
namespace Stored

variable {channels : Channel → Prop} {s t : Stored} {c : Channel}

def Fresh (s : Stored) : Action → Prop
  | .append _ msgs => (msgs.map (·.messageID)).Nodup ∧ ∀ m ∈ msgs, ∀ m' ∈ s.log, m.messageID ≠ m'.messageID
  | _ => True

/-- A truncation finds nothing to remove. -/
def Uncut (s : Stored) : Action → Prop
  | .truncate c messageSeq => (s.of c).length ≤ messageSeq.toNat
  | _ => True

instance (s : Stored) (a : Action) : Decidable (s.Fresh a) :=
  match a with
  | .append _ msgs => inferInstanceAs (Decidable ((msgs.map (·.messageID)).Nodup ∧
      ∀ m ∈ msgs, ∀ m' ∈ s.log, m.messageID ≠ m'.messageID))
  | .truncate .. | .getChannelLastMessageSeq _ | .getUserLastMsgSeq .. | .evictChannelSeq _ | .evictUserLastMsgSeq _ =>
    isTrue trivial

instance (s : Stored) (a : Action) : Decidable (s.Uncut a) :=
  match a with
  | .truncate c messageSeq => inferInstanceAs (Decidable ((s.of c).length ≤ messageSeq.toNat))
  | .append .. | .getChannelLastMessageSeq _ | .getUserLastMsgSeq .. | .evictChannelSeq _ | .evictUserLastMsgSeq _ =>
    isTrue trivial

abbrev Kept (channels : Channel → Prop) : Stored → Prop :=
  Reach Start step fun s a => s.Proper channels a ∧ s.Fresh a ∧ s.Uncut a

theorem toUInt64_inj {x y : Int64} (h : x.toUInt64 = y.toUInt64) : x = y := by
  rw [← Int64.toInt64_toUInt64 x, h, Int64.toInt64_toUInt64]

/-- The index leads from the id of every message to its place, and from no other id anywhere. -/
structure IdsSound (log : List Message) (n : Nat) (dbs : Nat → Shard) : Prop where
  nodup : (log.map (·.messageID)).Nodup
  ids : ∀ i id num seq, (dbs i).messageIds id = some (num, seq) ↔ ∃ m ∈ log, m.messageID.toUInt64 = id ∧
    (channelToNum m.channel).toNat % n = i ∧ channelToNum m.channel = num ∧ m.messageSeq.toUInt64 = seq

theorem messageIds_writeMessage (num : UInt64) (d : Shard) (m : Message) : (d.writeMessage num m).messageIds =
    update d.messageIds m.messageID.toUInt64 (some (num, m.messageSeq.toUInt64)) := rfl

theorem messageIds_foldl (num : UInt64) (msgs : List Message) (d : Shard)
    (hn : (msgs.map (·.messageID)).Nodup) (hf : ∀ m ∈ msgs, d.messageIds m.messageID.toUInt64 = none)
    (id : UInt64) (p : UInt64 × UInt64) : (msgs.foldl (Shard.writeMessage num) d).messageIds id = some p ↔
      d.messageIds id = some p ∨ ∃ m ∈ msgs, m.messageID.toUInt64 = id ∧ p = (num, m.messageSeq.toUInt64) := by
  induction msgs generalizing d with
  | nil => simp
  | cons m msgs ih =>
    obtain ⟨hm, hn⟩ := nodup_cons.mp hn
    have hfresh : ∀ m' ∈ msgs, (d.writeMessage num m).messageIds m'.messageID.toUInt64 = none := by
      intro m' hm'
      have hne : m'.messageID.toUInt64 ≠ m.messageID.toUInt64 := fun he =>
        hm (mem_map.mpr ⟨m', hm', toUInt64_inj he⟩)
      rw [messageIds_writeMessage, update_of_ne hne]
      exact hf m' (mem_cons_of_mem m hm')
    have hhead := hf m mem_cons_self
    rw [foldl_cons, ih _ hn hfresh, messageIds_writeMessage, update_apply]
    constructor
    · rintro (h | ⟨m', hm', h⟩)
      · split at h
        · rename_i hid
          exact .inr ⟨m, mem_cons_self, hid.symm, (some.inj h).symm⟩
        · exact .inl h
      · exact .inr ⟨m', mem_cons_of_mem m hm', h⟩
    · rintro (h | ⟨m', hm', hid, rfl⟩)
      · have hid : id ≠ m.messageID.toUInt64 := by
          rintro rfl
          rw [hhead] at h
          cases h
        rw [if_neg hid]
        exact .inl h
      · rcases mem_cons.mp hm' with rfl | hm'
        · rw [if_pos hid.symm]
          exact .inl rfl
        · exact .inr ⟨m', hm', hid, rfl⟩

variable {msgs : List Message} {m : Message} {id : UInt64} {a : Action}

theorem IdsSound.append {log : List Message} {n : Nat} {dbs : Nat → Shard} (h : IdsSound log n dbs)
    (hn : (msgs.map (·.messageID)).Nodup) (hf : ∀ m ∈ msgs, ∀ m' ∈ log, m.messageID ≠ m'.messageID)
    (hchan : ∀ m ∈ msgs, m.channel = c) {d : Shard}
    (hd : d.messageIds = (msgs.foldl (Shard.writeMessage (channelToNum c)) (dbs ((channelToNum c).toNat % n))).messageIds) :
    IdsSound (log ++ msgs) n (update dbs ((channelToNum c).toNat % n) d) := by
  have hnone : ∀ i, ∀ m ∈ msgs, (dbs i).messageIds m.messageID.toUInt64 = none := by
    intro i m hm
    rw [eq_none_iff_forall_ne_some]
    rintro ⟨num, seq⟩ hp
    obtain ⟨m', hm', hid, -⟩ := (h.ids i _ num seq).mp hp
    exact hf m hm m' hm' (toUInt64_inj hid.symm)
  constructor
  · rw [map_append]
    refine nodup_append.mpr ⟨h.nodup, hn, ?_⟩
    rintro a ha b hb rfl
    obtain ⟨m', hm', rfl⟩ := mem_map.mp ha
    obtain ⟨m, hm, he⟩ := mem_map.mp hb
    exact hf m hm m' hm' he
  · intro i id num seq
    rw [update_apply]
    simp only [mem_append, or_and_right, exists_or]
    split
    · rename_i hi
      subst hi
      rw [hd, messageIds_foldl _ msgs _ hn (hnone _)]
      refine or_congr (h.ids _ id num seq) (exists_congr fun m => and_congr_right fun hm => ?_)
      rw [hchan m hm, Prod.mk.injEq, eq_comm (a := num), eq_comm (a := seq)]
      exact and_congr_right fun _ => (and_iff_right rfl).symm
    · rename_i hi
      rw [h.ids]
      refine (or_iff_left ?_).symm
      rintro ⟨m, hm, -, hidx, -⟩
      rw [hchan m hm] at hidx
      exact hi hidx.symm

theorem step_cases (hr : s.RowsSound channels) (hp : s.Proper channels a) (hu : s.Uncut a)
    (hst : s.step a = some t) : t.db.shardNum = s.db.shardNum ∧
    ((∃ c msgs lastSeq, a = .append c msgs ∧ (∀ m ∈ msgs, m.channel = c) ∧ t.log = s.log ++ msgs ∧
        t.db.dbs = update s.db.dbs (s.db.channelDbIndex c) ((msgs.foldl (Shard.writeMessage (channelToNum c))
          (s.db.channelDb c)).setChannelLastMessageSeq (channelToNum c) lastSeq) ∧
        t.db.userLastMsgSeqCache = msgs.foldl (WukongDB.updateIfGreater c) s.db.userLastMsgSeqCache) ∨
      (t.log = s.log ∧ t.db.dbs = s.db.dbs ∧ ∀ key, ∀ q ∈ t.db.userLastMsgSeqCache key, q ∈ s.db.userLastMsgSeqCache key ∨
        ∃ uid c, a = .getUserLastMsgSeq uid c ∧ key = makeKey uid c ∧
          q = (s.db.channelDb c).queryUserLastMsgSeq (channelToNum c) uid)) := by
  cases a with
  | append c msgs =>
    obtain ⟨db, hdb, rfl⟩ := map_eq_some_iff.mp hst
    obtain ⟨hchan, lastMsg, -, rfl⟩ := appendMessages_eq_ok (ok_of_toOption hdb)
    exact ⟨rfl, .inl ⟨c, msgs, _, rfl, hchan, rfl, rfl, rfl⟩⟩
  | truncate c seq =>
    obtain ⟨db, hdb, rfl⟩ := map_eq_some_iff.mp hst
    have hc := hp.1 c rfl
    have hlast := hr.getChannelLastMessageSeq hc
    have hlog := hr.cutLog_of_le hc hu
    obtain ⟨-, rfl⟩ | ⟨hlt, -⟩ := truncateLogTo_eq_ok (ok_of_toOption hdb)
    · obtain ⟨hn, hdbs, hcache⟩ := lastSeq_same s.db c
      exact ⟨hn, .inr ⟨hlog, hdbs, fun _ _ hq => .inl (hcache ▸ hq)⟩⟩
    · rw [UInt64.lt_iff_toNat_lt, hlast] at hlt
      exact absurd hu (Nat.not_le.mpr hlt)
  | getChannelLastMessageSeq c =>
    cases hst
    obtain ⟨hn, hdbs, hcache⟩ := lastSeq_same s.db c
    exact ⟨hn, .inr ⟨rfl, hdbs, fun _ _ hq => .inl (hcache ▸ hq)⟩⟩
  | getUserLastMsgSeq uid c =>
    cases hst
    rw [WukongDB.getUserLastMsgSeq]
    split
    · exact ⟨rfl, .inr ⟨rfl, rfl, fun _ _ => .inl⟩⟩
    refine ⟨rfl, .inr ⟨rfl, rfl, fun key q hq => ?_⟩⟩
    obtain ⟨hkey, hq⟩ | ⟨-, hq⟩ := update_eq_some hq
    · exact .inr ⟨uid, c, rfl, hkey, (some.inj hq).symm⟩
    · exact .inl hq
  | evictChannelSeq key =>
    cases hst
    exact ⟨rfl, .inr ⟨rfl, rfl, fun _ _ => .inl⟩⟩
  | evictUserLastMsgSeq key =>
    cases hst
    refine ⟨rfl, .inr ⟨rfl, rfl, fun key' q hq => .inl ?_⟩⟩
    obtain ⟨-, hq⟩ | ⟨-, hq⟩ := update_eq_some hq
    · cases hq
    · exact hq

theorem IdsSound.step (h : IdsSound s.log s.db.shardNum s.db.dbs) (hr : s.RowsSound channels)
    (hp : s.Proper channels a) (hf : s.Fresh a) (hu : s.Uncut a) (hst : s.step a = some t) :
    IdsSound t.log t.db.shardNum t.db.dbs := by
  obtain ⟨hn, ⟨c, msgs, lastSeq, rfl, hchan, hlog, hdbs, -⟩ | ⟨hlog, hdbs, -⟩⟩ := step_cases hr hp hu hst
  · rw [hn, hlog, hdbs]
    exact h.append hf.1 hf.2 hchan rfl
  · rw [hn, hlog, hdbs]
    exact h

theorem Kept.sound (ha : Apart channels) (h : Kept channels s) :
    s.RowsSound channels ∧ IdsSound s.log s.db.shardNum s.db.dbs := by
  refine h.invariant (fun s => s.RowsSound channels ∧ IdsSound s.log s.db.shardNum s.db.dbs) ?_ ?_
  · rintro _ ⟨n, pos, rfl⟩
    exact ⟨.start ⟨n, pos, rfl⟩, nodup_nil, by simp⟩
  · rintro s a t ⟨hr, hi⟩ ⟨hp, hf, hu⟩ hst
    exact ⟨hr.step ha hp hst, hi.step hr hp hf hu hst⟩

/-! ### Single messages -/

theorem filter_seq (h : Ordered msgs) (hm : m ∈ msgs) :
    (msgs.filter fun x => x.messageSeq.toUInt64 = m.messageSeq.toUInt64) = [m] := by
  induction msgs with
  | nil => exact absurd hm not_mem_nil
  | cons x xs ih =>
    have hx := (pairwise_cons.mp h.ascending).1
    have hne (y : Message) (hy : y ∈ xs) : x.messageSeq.toUInt64 ≠ y.messageSeq.toUInt64 := by
      intro he
      have hlt : x.messageSeq.toNat < y.messageSeq.toNat := hx y hy
      have hz := congrArg UInt64.toNat he
      rw [UInt32.toNat_toUInt64, UInt32.toNat_toUInt64] at hz
      omega
    rcases mem_cons.mp hm with rfl | hm
    · rw [filter_cons, if_pos (decide_eq_true rfl), filter_eq_nil_iff.mpr]
      intro y hy
      simpa using (hne y hy).symm
    · rw [filter_cons, if_neg (by simpa using hne m hm)]
      exact ih h.tail hm

theorem lastOf_withoutHeader (h : Ordered msgs) (hm : m ∈ msgs) :
    WukongDB.lastOf ((forgetFirstHeader [m]).take 1) = .ok m.withoutHeader := by
  have hpos := h.pos m hm
  have hne : (m.messageSeq == 0) = false := by
    rw [beq_eq_false_iff_ne]
    intro h0
    rw [h0] at hpos
    exact absurd hpos (by decide)
  change (if (m.messageID == 0 && m.messageSeq == 0) then _ else _) = _
  rw [hne, Bool.and_false]
  rfl

theorem RowsSound.loadMsg (h : s.RowsSound channels) (hc : channels c) (hm : m ∈ s.of c) :
    s.db.loadMsg c m.messageSeq.toUInt64 = .ok m.withoutHeader := by
  have ho := (h.follow c hc).ordered
  have hlt := m.messageSeq.toNat_lt
  have hone : ((s.of c).filter fun x => m.messageSeq.toUInt64 ≤ x.messageSeq.toUInt64 &&
      x.messageSeq.toUInt64 < m.messageSeq.toUInt64 + 1) = [m] := by
    rw [← filter_seq ho hm]
    refine filter_congr fun x _ => ?_
    rw [Bool.eq_iff_iff]
    simp only [Bool.and_eq_true, decide_eq_true_eq, UInt64.le_iff_toNat_le, UInt64.lt_iff_toNat_lt, ← UInt64.toNat_inj]
    rw [toNat_succ (by rw [UInt32.toNat_toUInt64]; omega)]
    omega
  rw [WukongDB.loadMsg, h.newIter hc, hone, iterator_one 1 _ [m] (hone ▸ ho.filter _)]
  exact lastOf_withoutHeader ho hm

theorem Row.columns_between (num seq : UInt64) (r : Row) :
    (primaryKey num seq + minColumnKey ≤ r.key && r.key < primaryKey num seq + maxColumnKey : Bool) =
      (decide (r.num = num) && decide (r.seq = seq)) := by
  have hc : r.column.1.code < maxColumnKey := by cases r.column.1 <;> decide
  have h1 := seq.toNat_lt
  have h2 := r.seq.toNat_lt
  rw [Bool.eq_iff_iff]
  simp only [Bool.and_eq_true, decide_eq_true_eq]
  rw [← UInt64.toNat_inj, ← UInt64.toNat_inj]
  simp only [Row.key, primaryKey, minColumnKey, maxColumnKey] at hc ⊢
  omega

theorem findMessage_eq (db : WukongDB) {i : Nat} {shards : List Nat} {num seq : UInt64}
    (hi : i ∈ shards) (h : (db.dbs i).messageIds id = some (num, seq))
    (hu : ∀ j, (db.dbs j).messageIds id ≠ none → j = i) : db.findMessage id shards = (do
      let msgs ← iteratorChannelMessages ((db.dbs i).newIter (primaryKey num seq + minColumnKey)
        (primaryKey num seq + maxColumnKey)) 0 fun _ => false
      WukongDB.lastOf msgs) := by
  induction shards with
  | nil => exact absurd hi not_mem_nil
  | cons j shards ih =>
    rw [WukongDB.findMessage]
    by_cases hj : j = i
    · subst hj
      rw [h]
    have hnone : (db.dbs j).messageIds id = none := by
      by_contra hne
      exact hj (hu j hne)
    rw [hnone]
    exact ih ((mem_cons.mp hi).resolve_left fun he => hj he.symm)

theorem findMessage_none (db : WukongDB) (h : ∀ j, (db.dbs j).messageIds id = none)
    (shards : List Nat) : db.findMessage id shards = .error .notFound := by
  induction shards with
  | nil => rfl
  | cons j shards ih => rw [WukongDB.findMessage, h, ih]

theorem getMessage_eq_ok (hr : s.RowsSound channels) (hi : IdsSound s.log s.db.shardNum s.db.dbs)
    (hm : m ∈ s.log) (hc : channels m.channel) : s.db.getMessage m.messageID.toUInt64 = .ok m.withoutHeader := by
  have hmem : m ∈ s.of m.channel := mem_filter.mpr ⟨hm, decide_eq_true rfl⟩
  have ho := (hr.follow _ hc).ordered
  have hid := (hi.ids (s.db.channelDbIndex m.channel) m.messageID.toUInt64 (channelToNum m.channel) m.messageSeq.toUInt64).mpr
    ⟨m, hm, rfl, rfl, rfl, rfl⟩
  have huniq : ∀ j, (s.db.dbs j).messageIds m.messageID.toUInt64 ≠ none → j = s.db.channelDbIndex m.channel := by
    intro j hj
    obtain ⟨⟨num, seq⟩, hp⟩ := ne_none_iff_exists'.mp hj
    obtain ⟨m', hm', he, hidx, -⟩ := (hi.ids j _ num seq).mp hp
    obtain rfl := inj_on_of_nodup_map hi.nodup hm' hm (toUInt64_inj he)
    exact hidx.symm
  have hin : s.db.channelDbIndex m.channel ∈ range s.db.shardNum :=
    mem_range.mpr (Nat.mod_lt _ s.db.pos)
  have hrows : (s.db.channelDb m.channel).newIter (primaryKey (channelToNum m.channel) m.messageSeq.toUInt64 + minColumnKey)
      (primaryKey (channelToNum m.channel) m.messageSeq.toUInt64 + maxColumnKey) = layout (channelToNum m.channel) [m] := by
    rw [← filter_seq ho hmem, ← filter_layout _ fun q => decide (q = m.messageSeq.toUInt64),
      ← hr.rows _ hc, rowsOf, List.filter_filter]
    refine filter_congr fun r _ => ?_
    rw [Row.columns_between, Bool.and_comm]
  rw [WukongDB.getMessage, findMessage_eq s.db hin hid huniq]
  change (do let msgs ← iteratorChannelMessages ((s.db.channelDb m.channel).newIter _ _) 0 _; WukongDB.lastOf msgs) = _
  rw [hrows, iterator_one 0 _ [m] (filter_seq ho hmem ▸ ho.filter _)]
  exact lastOf_withoutHeader ho hmem

theorem getMessage_eq_notFound (hi : IdsSound s.log s.db.shardNum s.db.dbs)
    (h : ∀ m ∈ s.log, m.messageID.toUInt64 ≠ id) : s.db.getMessage id = .error .notFound := by
  refine findMessage_none s.db (fun j => ?_) _
  rw [eq_none_iff_forall_ne_some]
  rintro ⟨num, seq⟩ hp
  obtain ⟨m, hm, he, -⟩ := (hi.ids j id num seq).mp hp
  exact h m hm he

theorem RowsSound.loadNextRangeMsgsForSize (h : s.RowsSound channels) (hc : channels c)
    (size : Message → UInt64) (start stop limitSize : UInt64) :
    s.db.loadNextRangeMsgsForSize size c start stop limitSize = .ok (takeSize size limitSize ((s.of c).filter fun m =>
      start.toNat ≤ m.messageSeq.toNat && (stop = 0 || m.messageSeq.toNat < stop.toNat)) 0) := by
  have hwin : ((s.of c).filter fun m => start ≤ m.messageSeq.toUInt64 &&
      m.messageSeq.toUInt64 < if stop = 0 then maxUint64 else stop) =
      (s.of c).filter fun m => start.toNat ≤ m.messageSeq.toNat && (stop = 0 || m.messageSeq.toNat < stop.toNat) :=
    filter_congr fun m _ => next_window start stop m
  rw [WukongDB.loadNextRangeMsgsForSize, h.newIter hc, hwin]
  exact parseMessages_layout size limitSize _ _ ((h.follow c hc).ordered.filter _)

/-- Every reader returns the stored messages of the channel, field for field: one by its number or
its id, and the requested windows, up to a limit on their number or their size. -/
structure ReadBack (size : Message → UInt64) (s : Stored) (c : Channel) : Prop where
  loadMsg : ∀ m ∈ s.of c, s.db.loadMsg c m.messageSeq.toUInt64 = .ok m
  getMessage : ∀ m ∈ s.of c, s.db.getMessage m.messageID.toUInt64 = .ok m
  prev : ∀ (start stop : UInt64) (limit : Nat), 1 ≤ start.toNat → (stop = 0 ∨ stop ≤ start) → 1 ≤ limit →
    start.toNat + 1 < 2 ^ 64 → (s.db.loadPrevRangeMsgs c start stop limit).1 = .ok (((s.of c).filter fun m =>
      max (max (stop.toNat + 1) (start.toNat + 1 - limit)) 1 ≤ m.messageSeq.toNat &&
        m.messageSeq.toNat ≤ start.toNat).take limit)
  next : ∀ (start stop : UInt64) (limit : Nat), 1 ≤ limit → (s.db.loadNextRangeMsgs c start stop limit).1 =
    .ok (((s.of c).filter fun m => start.toNat ≤ m.messageSeq.toNat &&
      (stop = 0 || m.messageSeq.toNat < stop.toNat)).take limit)
  forSize : ∀ start stop limitSize : UInt64, s.db.loadNextRangeMsgsForSize size c start stop limitSize =
    .ok (takeSize size limitSize ((s.of c).filter fun m => start.toNat ≤ m.messageSeq.toNat &&
      (stop = 0 || m.messageSeq.toNat < stop.toNat)) 0)

theorem forgetFirstHeader_eq (h : ∀ m ∈ msgs, m.header = 0) : forgetFirstHeader msgs = msgs := by
  cases msgs with
  | nil => rfl
  | cons m msgs =>
    have hm := h m mem_cons_self
    rw [forgetFirstHeader, Message.withoutHeader, ← hm]

/-- After any appends the messages of a channel are read back exactly when the header of every one
is zero: the readers that regroup the columns pass the first row, the header of their first
message. -/
theorem messages_read_back (size : Message → UInt64) (ha : Apart channels) (h : Kept channels s)
    (hc : channels c) : ReadBack size s c ↔ ∀ m ∈ s.of c, m.header = 0 := by
  obtain ⟨hr, hi⟩ := h.sound ha
  constructor
  · intro hread m hm
    have hload := hread.loadMsg m hm
    rw [hr.loadMsg hc hm] at hload
    exact (congrArg Message.header (Except.ok.inj hload)).symm
  · intro hz
    have hsame : ∀ m ∈ s.of c, m.withoutHeader = m := fun m hm => by rw [Message.withoutHeader, ← hz m hm]
    have hwin (p : Message → Bool) {limit : Nat} (hl : 1 ≤ limit) :
        takeLimit limit (forgetFirstHeader ((s.of c).filter p)) = ((s.of c).filter p).take limit := by
      rw [forgetFirstHeader_eq fun m hm => hz m (mem_filter.mp hm).1, takeLimit, if_neg (by omega)]
    refine ⟨fun m hm => ?_, fun m hm => ?_, fun start stop limit hs he hl ho => ?_,
      fun start stop limit hl => ?_, hr.loadNextRangeMsgsForSize hc size⟩
    · rw [hr.loadMsg hc hm, hsame m hm]
    · obtain ⟨hlog, hmc⟩ := mem_filter.mp hm
      rw [getMessage_eq_ok hr hi hlog ((of_decide_eq_true hmc).symm ▸ hc), hsame m hm]
    · rw [hr.loadPrevRangeMsgs hc hs he hl ho, hwin _ hl]
    · rw [hr.loadNextRangeMsgs hc, hwin _ hl]

private def group : Channel := ⟨[103], 2⟩

private def note (header : UInt8) (n : Nat) : Message :=
  { header := header, messageID := Int64.ofNat (n + 10), messageSeq := UInt32.ofNat n, channelID := group.id,
    channelType := group.type, fromUID := [117], payload := [1, 2] }

private theorem group_apart : Apart (· = group) := fun _ _ hc hc' _ => hc.trans hc'.symm

private theorem start_kept : Kept (· = group) { db := { shardNum := 3, pos := by decide } } := .init ⟨_, _, rfl⟩

/-- Two batches of messages without header bits. -/
theorem messages_read_back_plain : ∃ s, s.of group = [note 0 1, note 0 2, note 0 3] ∧ ReadBack (fun _ => 1) s group := by
  obtain ⟨s, hs, hof⟩ := start_kept.exists_of_run [.append group [note 0 1, note 0 2], .append group [note 0 3]]
    (fun s => s.of group = [note 0 1, note 0 2, note 0 3]) (by decide +kernel)
  refine ⟨s, hof, (messages_read_back (fun _ => 1) group_apart hs rfl).mpr ?_⟩
  rw [hof]
  decide

/-- A message with header bits comes back without them from all readers but one. -/
theorem messages_read_back_fails : ∃ s, Kept (· = group) s ∧ ¬ ReadBack (fun _ => 1) s group ∧ s.of group = [note 1 1] ∧
    s.db.loadMsg group 1 = .ok (note 0 1) ∧ s.db.getMessage 11 = .ok (note 0 1) ∧
    (s.db.loadPrevRangeMsgs group 1 0 10).1 = .ok [note 0 1] ∧ (s.db.loadNextRangeMsgs group 1 0 10).1 = .ok [note 0 1] ∧
    s.db.loadNextRangeMsgsForSize (fun _ => 1) group 1 0 10 = .ok [note 1 1] := by
  obtain ⟨s, hs, hp⟩ := start_kept.exists_of_run [.append group [note 1 1]]
    (fun s => s.of group = [note 1 1] ∧
      s.db.loadMsg group 1 = .ok (note 0 1) ∧ s.db.getMessage 11 = .ok (note 0 1) ∧
      (s.db.loadPrevRangeMsgs group 1 0 10).1 = .ok [note 0 1] ∧ (s.db.loadNextRangeMsgs group 1 0 10).1 = .ok [note 0 1] ∧
      s.db.loadNextRangeMsgsForSize (fun _ => 1) group 1 0 10 = .ok [note 1 1]) (by decide +kernel)
  refine ⟨s, hs, fun hread => ?_, hp⟩
  have hload := hread.loadMsg (note 1 1) (by rw [hp.1]; exact mem_cons_self)
  have hsame : Except.ok (note 0 1) = .ok (note 1 1) := hp.2.1.symm.trans hload
  exact absurd hsame (by decide)

end Stored
end WuKongIM.WKDB

import WuKongIM.WKDB.MessageIds

/-! The index of senders and its cache: the number of the last message that a user sent to a
channel. -/
namespace WuKongIM.WKDB
open Lib List Function WukongDB
open FromUidKey (key)
namespace Stored

variable {channels : Channel → Prop} {uids : Bytes → Prop} {s t : Stored} {c : Channel} {u : Bytes} {msgs : List Message}

def lastSeqOf (msgs : List Message) (uid : Bytes) : Nat :=
  (msgs.filter fun m => m.fromUID = uid).foldl (fun seq m => max seq m.messageSeq.toNat) 0

/-- The channels and the users in use are told apart by their numbers, hashes and cache keys. -/
structure Separate (channels : Channel → Prop) (uids : Bytes → Prop) : Prop where
  nums : Apart channels
  hashes : ∀ u u', uids u → uids u' → hashWithString u = hashWithString u' → u = u'
  keys : ∀ u u' c c', uids u → uids u' → channels c → channels c' → makeKey u c = makeKey u' c' → u = u' ∧ c = c'

/-- The users are of the given ones, and a message without a sender meets no cached number for
it. -/
def Sent (uids : Bytes → Prop) (s : Stored) : Action → Prop
  | .append c msgs => ∀ m ∈ msgs, uids m.fromUID ∧ (m.fromUID = [] → s.db.userLastMsgSeqCache (makeKey [] c) = none)
  | .getUserLastMsgSeq uid _ => uids uid
  | _ => True

instance (uids : Bytes → Prop) [DecidablePred uids] (s : Stored) (a : Action) : Decidable (s.Sent uids a) :=
  match a with
  | .append c msgs => inferInstanceAs (Decidable (∀ m ∈ msgs, uids m.fromUID ∧
      (m.fromUID = [] → s.db.userLastMsgSeqCache (makeKey [] c) = none)))
  | .getUserLastMsgSeq uid _ => inferInstanceAs (Decidable (uids uid))
  | .truncate .. | .getChannelLastMessageSeq _ | .evictChannelSeq _ | .evictUserLastMsgSeq _ => isTrue trivial

structure KeysSound (channels : Channel → Prop) (uids : Bytes → Prop) (log : List Message) (n : Nat) (dbs : Nat → Shard) :
    Prop where
  users : ∀ m ∈ log, uids m.fromUID ∧ channels m.channel
  ascending : ∀ i, Ascending key (dbs i).fromUids
  keys : ∀ i k, k ∈ (dbs i).fromUids ↔ ∃ m ∈ log, (channelToNum m.channel).toNat % n = i ∧
    k = ⟨hashWithString m.fromUID, channelToNum m.channel, m.messageSeq.toUInt64⟩

def CacheSound (channels : Channel → Prop) (uids : Bytes → Prop) (s : Stored) : Prop :=
  ∀ u c, uids u → channels c → ∀ seq ∈ s.db.userLastMsgSeqCache (makeKey u c), seq.toNat = lastSeqOf (s.of c) u

theorem FromUidKey.key_inj {k k' : FromUidKey} (h : k.key = k'.key) : k = k' := by
  have h1 := k.num.toNat_lt
  have h2 := k'.num.toNat_lt
  have h3 := k.seq.toNat_lt
  have h4 := k'.seq.toNat_lt
  simp only [key] at h h1 h2 h3 h4
  rw [FromUidKey.mk.injEq, ← UInt64.toNat_inj, ← UInt64.toNat_inj, ← UInt64.toNat_inj]
  omega

theorem mem_fromUids_foldl (num : UInt64) (msgs : List Message) (d : Shard) (hd : Ascending key d.fromUids) :
    Ascending key (msgs.foldl (Shard.writeMessage num) d).fromUids ∧
    ∀ k, k ∈ (msgs.foldl (Shard.writeMessage num) d).fromUids ↔
      k ∈ d.fromUids ∨ ∃ m ∈ msgs, k = ⟨hashWithString m.fromUID, num, m.messageSeq.toUInt64⟩ := by
  induction msgs generalizing d with
  | nil => exact ⟨hd, by simp⟩
  | cons m msgs ih =>
    obtain ⟨hasc, hmem⟩ := ih (d.writeMessage num m) (hd.put _)
    refine ⟨hasc, fun k => ?_⟩
    have hput : k ∈ (d.writeMessage num m).fromUids ↔
        k ∈ d.fromUids ∨ k = ⟨hashWithString m.fromUID, num, m.messageSeq.toUInt64⟩ := by
      refine (mem_put hd).trans ⟨?_, ?_⟩
      · rintro (h | ⟨h, -⟩)
        · exact .inr h
        · exact .inl h
      rintro (h | h)
      · by_cases he : k = ⟨hashWithString m.fromUID, num, m.messageSeq.toUInt64⟩
        · exact .inl he
        · exact .inr ⟨h, fun hk => he (FromUidKey.key_inj hk)⟩
      · exact .inl h
    rw [foldl_cons, hmem, hput]
    simp only [mem_cons, exists_eq_or_imp]
    exact or_assoc

theorem KeysSound.append {log msgs : List Message} {n : Nat} {dbs : Nat → Shard} (h : KeysSound channels uids log n dbs)
    (hc : channels c) (hu : ∀ m ∈ msgs, uids m.fromUID) (hchan : ∀ m ∈ msgs, m.channel = c) {d : Shard}
    (hd : d.fromUids = (msgs.foldl (Shard.writeMessage (channelToNum c)) (dbs ((channelToNum c).toNat % n))).fromUids) :
    KeysSound channels uids (log ++ msgs) n (update dbs ((channelToNum c).toNat % n) d) := by
  obtain ⟨hasc, hmem⟩ := mem_fromUids_foldl (channelToNum c) msgs _ (h.ascending ((channelToNum c).toNat % n))
  rw [← hd] at hasc hmem
  refine ⟨forall_mem_append.mpr ⟨h.users, fun m hm => ⟨hu m hm, (hchan m hm).symm ▸ hc⟩⟩, fun i => ?_, fun i k => ?_⟩
  · rw [update_apply]
    split
    · exact hasc
    · exact h.ascending i
  · rw [update_apply]
    simp only [mem_append, or_and_right, exists_or]
    split
    · rename_i hi
      subst hi
      rw [hmem]
      refine or_congr (h.keys _ k) (exists_congr fun m => and_congr_right fun hm => ?_)
      rw [hchan m hm]
      exact (and_iff_right rfl).symm
    · rename_i hi
      rw [h.keys]
      refine (or_iff_left ?_).symm
      rintro ⟨m, hm, hidx, -⟩
      rw [hchan m hm] at hidx
      exact hi hidx.symm

variable {l : List Message}

private theorem foldl_max_le {a q : Nat} (ha : a ≤ q) (h : ∀ m ∈ l, m.messageSeq.toNat ≤ q) :
    l.foldl (fun seq m => max seq m.messageSeq.toNat) a ≤ q := by
  induction l generalizing a with
  | nil => exact ha
  | cons x xs ih =>
    exact ih (Nat.max_le.mpr ⟨ha, h x mem_cons_self⟩) fun m hm => h m (mem_cons_of_mem x hm)

private theorem le_foldl_max {a : Nat} : a ≤ l.foldl (fun seq m => max seq m.messageSeq.toNat) a ∧
    ∀ m ∈ l, m.messageSeq.toNat ≤ l.foldl (fun seq m => max seq m.messageSeq.toNat) a := by
  induction l generalizing a with
  | nil => exact ⟨le_refl a, nofun⟩
  | cons x xs ih =>
    obtain ⟨h1, h2⟩ := ih
    exact ⟨le_trans (Nat.le_max_left ..) h1, forall_mem_cons.mpr ⟨le_trans (Nat.le_max_right ..) h1, h2⟩⟩

theorem lastSeqOf_le {q : Nat} (h : ∀ m ∈ msgs, m.fromUID = u → m.messageSeq.toNat ≤ q) : lastSeqOf msgs u ≤ q :=
  foldl_max_le (Nat.zero_le q) fun m hm =>
    h m (mem_filter.mp hm).1 (of_decide_eq_true (mem_filter.mp hm).2)

variable {m : Message}

theorem le_lastSeqOf (hm : m ∈ msgs) (hu : m.fromUID = u) : m.messageSeq.toNat ≤ lastSeqOf msgs u :=
  le_foldl_max.2 m (mem_filter.mpr ⟨hm, decide_eq_true hu⟩)

theorem lastSeqOf_append (m : Message) (h : ∀ x ∈ msgs, x.messageSeq.toNat < m.messageSeq.toNat) :
    lastSeqOf (msgs ++ [m]) u = if m.fromUID = u then m.messageSeq.toNat else lastSeqOf msgs u := by
  have hle : lastSeqOf msgs u ≤ m.messageSeq.toNat := lastSeqOf_le fun x hx _ => le_of_lt (h x hx)
  rw [lastSeqOf, filter_append, foldl_append]
  split
  · rename_i hu
    rw [filter_cons, if_pos (decide_eq_true hu)]
    exact Nat.max_eq_right hle
  · rename_i hu
    rw [filter_cons, if_neg fun hd => hu (of_decide_eq_true hd)]
    rfl

theorem FromUidKey.between (hash num : UInt64) (k : FromUidKey) (hk : k.seq < maxUint64) :
    (key ⟨hash, num, 0⟩ ≤ k.key && k.key < key ⟨hash, num, maxUint64⟩ : Bool) =
      (decide (k.hash = hash) && decide (k.num = num)) := by
  have h1 := k.num.toNat_lt
  have h2 := num.toNat_lt
  have hmax : maxUint64.toNat = 2 ^ 64 - 1 := rfl
  have hzero : (0 : UInt64).toNat = 0 := rfl
  rw [UInt64.lt_iff_toNat_lt] at hk
  rw [Bool.eq_iff_iff]
  simp only [Bool.and_eq_true, decide_eq_true_eq]
  rw [← UInt64.toNat_inj, ← UInt64.toNat_inj]
  simp only [key]
  omega

theorem queryUserLastMsgSeq_eq (hsep : Separate channels uids)
    (h : KeysSound channels uids s.log s.db.shardNum s.db.dbs) (hu : uids u) (hc : channels c) :
    ((s.db.channelDb c).queryUserLastMsgSeq (channelToNum c) u).toNat = lastSeqOf (s.of c) u := by
  -- the keys in the range are those of the messages from the user
  have hkey (k) : k ∈ ((s.db.channelDb c).fromUids.filter fun k =>
      key ⟨hashWithString u, channelToNum c, 0⟩ ≤ k.key &&
        k.key < key ⟨hashWithString u, channelToNum c, maxUint64⟩) ↔
      ∃ m ∈ s.of c, m.fromUID = u ∧ k = ⟨hashWithString u, channelToNum c, m.messageSeq.toUInt64⟩ := by
    have hsmall (m : Message) : m.messageSeq.toUInt64 < maxUint64 := by
      have := m.messageSeq.toNat_lt
      rw [UInt64.lt_iff_toNat_lt, UInt32.toNat_toUInt64, show maxUint64.toNat = 2 ^ 64 - 1 from rfl]
      omega
    rw [mem_filter]
    constructor
    · rintro ⟨hk, hb⟩
      obtain ⟨m, hm, -, rfl⟩ := (h.keys _ k).mp hk
      rw [FromUidKey.between _ _ _ (hsmall m), Bool.and_eq_true, decide_eq_true_eq, decide_eq_true_eq] at hb
      obtain ⟨hmu, hmc⟩ := h.users m hm
      have hfrom := hsep.hashes _ _ hmu hu hb.1
      have hchan := hsep.nums _ _ hmc hc hb.2
      refine ⟨m, mem_filter.mpr ⟨hm, decide_eq_true hchan⟩, hfrom, ?_⟩
      rw [hfrom, hchan]
    · rintro ⟨m, hm, rfl, rfl⟩
      obtain ⟨hlog, hchan⟩ := mem_filter.mp hm
      have hchan : m.channel = c := of_decide_eq_true hchan
      subst hchan
      refine ⟨(h.keys _ _).mpr ⟨m, hlog, rfl, rfl⟩, ?_⟩
      rw [FromUidKey.between _ _ _ (hsmall m), decide_eq_true rfl, decide_eq_true rfl]
      rfl
  rw [Shard.queryUserLastMsgSeq]
  have hasc := (h.ascending (s.db.channelDbIndex c)).filter fun k =>
    key ⟨hashWithString u, channelToNum c, 0⟩ ≤ k.key &&
      k.key < key ⟨hashWithString u, channelToNum c, maxUint64⟩
  split
  · rename_i k hk
    obtain ⟨m, hm, hmu, rfl⟩ := (hkey k).mp (mem_of_getLast? hk)
    refine le_antisymm ?_ (lastSeqOf_le fun x hx hxu => ?_)
    · exact le_lastSeqOf hm hmu
    · have hle := Ascending.le_getLast hasc hk ((hkey _).mpr ⟨x, hx, hxu, rfl⟩)
      simp only [key, UInt32.toNat_toUInt64] at hle ⊢
      omega
  · rename_i hnone
    rw [getLast?_eq_none_iff] at hnone
    have hempty : lastSeqOf (s.of c) u ≤ 0 := lastSeqOf_le fun m hm hmu => by
      have := (hkey _).mpr ⟨m, hm, hmu, rfl⟩
      rw [hnone] at this
      exact absurd this not_mem_nil
    exact (Nat.le_zero.mp hempty).symm

/-! ### The cache -/

variable {cache : Bytes → Option UInt64} {key : Bytes} {a : Action}

theorem updateIfGreater_ne (h : makeKey m.fromUID c ≠ key) : updateIfGreater c cache m key = cache key := by
  rw [updateIfGreater]
  split
  · rfl
  cases cache (makeKey m.fromUID c) with
  | none => exact update_of_ne h.symm ..
  | some q =>
    dsimp only
    split
    · exact update_of_ne h.symm ..
    · rfl

theorem foldl_updateIfGreater_ne (h : ∀ m ∈ msgs, makeKey m.fromUID c ≠ key) :
    msgs.foldl (updateIfGreater c) cache key = cache key := by
  induction msgs generalizing cache with
  | nil => rfl
  | cons m msgs ih =>
    rw [foldl_cons, ih fun x hx => h x (mem_cons_of_mem m hx), updateIfGreater_ne (h m mem_cons_self)]

theorem updateIfGreater_self (hm : m.fromUID ≠ []) (h : ∀ q ∈ cache (makeKey m.fromUID c), q.toNat < m.messageSeq.toNat) :
    updateIfGreater c cache m (makeKey m.fromUID c) = some m.messageSeq.toUInt64 := by
  rw [updateIfGreater, if_neg hm]
  cases hq : cache (makeKey m.fromUID c) with
  | none => exact update_self ..
  | some q =>
    have hgt : m.messageSeq.toUInt64 > q := by
      exact h q hq
    dsimp only
    rw [if_pos hgt]
    exact update_self ..

theorem foldl_updateIfGreater {old : List Message} (ho : Ordered (old ++ msgs))
    (hkey : ∀ m ∈ msgs, makeKey m.fromUID c = makeKey u c → m.fromUID = u)
    (hempty : u = [] → ∀ m ∈ msgs, m.fromUID = [] → cache (makeKey u c) = none)
    (h : ∀ q ∈ cache (makeKey u c), q.toNat = lastSeqOf old u) :
    ∀ q ∈ msgs.foldl (updateIfGreater c) cache (makeKey u c), q.toNat = lastSeqOf (old ++ msgs) u := by
  induction msgs generalizing cache old with
  | nil =>
    rw [append_nil]
    exact h
  | cons m msgs ih =>
    have hlt : ∀ x ∈ old, x.messageSeq.toNat < m.messageSeq.toNat := fun x hx =>
      (pairwise_append.mp ho.ascending).2.2 x hx m mem_cons_self
    have hlast := lastSeqOf_append (u := u) m hlt
    have hassoc : old ++ m :: msgs = (old ++ [m]) ++ msgs := (append_assoc old [m] msgs).symm
    rw [hassoc] at ho ⊢
    rw [foldl_cons]
    -- a message of another user does not touch the entry, and one of this user sets it
    by_cases hu : m.fromUID = u
    · subst hu
      by_cases hz : m.fromUID = []
      · have hsame : updateIfGreater c cache m = cache := by rw [updateIfGreater, if_pos hz]
        rw [hsame]
        have hnone := hempty hz m mem_cons_self hz
        refine ih ho (fun x hx => hkey x (mem_cons_of_mem m hx)) (fun _ _ _ _ => hnone) fun q hq => ?_
        rw [hnone] at hq
        cases hq
      · have hself : updateIfGreater c cache m (makeKey m.fromUID c) = _ := updateIfGreater_self hz fun q hq => by
          rw [h q hq]
          have hpos := ho.pos m (by simp)
          exact lt_of_le_of_lt (lastSeqOf_le (q := m.messageSeq.toNat - 1) fun x hx _ => by have := hlt x hx; omega) (by omega)
        refine ih ho (fun x hx => hkey x (mem_cons_of_mem m hx)) (fun hu => absurd hu hz) fun q hq => ?_
        rw [hself] at hq
        cases hq
        rw [hlast, if_pos rfl, UInt32.toNat_toUInt64]
    · have hne : makeKey m.fromUID c ≠ makeKey u c := fun he => hu (hkey m mem_cons_self he)
      have hsame : updateIfGreater c cache m (makeKey u c) = _ := updateIfGreater_ne hne
      refine ih ho (fun x hx => hkey x (mem_cons_of_mem m hx)) (fun hu x hx hxz => ?_) fun q hq => ?_
      · rw [hsame]
        exact hempty hu x (mem_cons_of_mem m hx) hxz
      · rw [hsame] at hq
        rw [hlast, if_neg hu]
        exact h q hq

section
variable (hsep : Separate channels uids)
include hsep

theorem CacheSound.append (h : s.CacheSound channels uids) (hr : s.RowsSound channels)
    (hp : s.Proper channels (.append c msgs)) (hs : s.Sent uids (.append c msgs))
    (hchan : ∀ m ∈ msgs, m.channel = c) (hlog : t.log = s.log ++ msgs)
    (hcache : t.db.userLastMsgSeqCache = msgs.foldl (updateIfGreater c) s.db.userLastMsgSeqCache) :
    t.CacheSound channels uids := by
  have hc := hp.1 c rfl
  have hfollow : Follow 0 (s.of c ++ msgs) := follow_append (hr.follow c hc) (by rw [Nat.zero_add]; exact hp.2)
  intro u c' hu hc'
  have hof : t.of c' = s.of c' ++ if c' = c then msgs else [] := by
    rw [of, hlog]
    exact of_append s.log s.db hchan c'
  rw [hcache, hof]
  by_cases hcc : c' = c
  · subst hcc
    rw [if_pos rfl]
    refine foldl_updateIfGreater hfollow.ordered ?_ ?_ (h u c' hu hc')
    · exact fun m hm he => (hsep.keys _ _ _ _ (hs m hm).1 hu hc' hc' he).1
    · rintro rfl m hm hz
      exact (hs m hm).2 hz
  · rw [if_neg hcc, append_nil, foldl_updateIfGreater_ne]
    · exact h u c' hu hc'
    · exact fun m hm he => hcc (hsep.keys _ _ _ _ (hs m hm).1 hu hc hc' he).2.symm

abbrev Indexed (channels : Channel → Prop) (uids : Bytes → Prop) : Stored → Prop :=
  Reach Start step fun s a => (s.Proper channels a ∧ s.Fresh a ∧ s.Uncut a) ∧ s.Sent uids a

structure IndexSound (channels : Channel → Prop) (uids : Bytes → Prop) (s : Stored) : Prop where
  rows : s.RowsSound channels
  ids : IdsSound s.log s.db.shardNum s.db.dbs
  keys : KeysSound channels uids s.log s.db.shardNum s.db.dbs
  cache : s.CacheSound channels uids

theorem IndexSound.step (h : s.IndexSound channels uids) (hp : s.Proper channels a) (hf : s.Fresh a)
    (hu : s.Uncut a) (hs : s.Sent uids a) (hst : s.step a = some t) :
    t.IndexSound channels uids := by
  refine ⟨h.rows.step hsep.nums hp hst, h.ids.step h.rows hp hf hu hst, ?_, ?_⟩
  · obtain ⟨hn, ⟨c, msgs, lastSeq, rfl, hchan, hlog, hdbs, -⟩ | ⟨hlog, hdbs, -⟩⟩ := step_cases h.rows hp hu hst
    · rw [hn, hlog, hdbs]
      exact h.keys.append (hp.1 c rfl) (fun m hm => (hs m hm).1) hchan rfl
    · rw [hn, hlog, hdbs]
      exact h.keys
  · obtain ⟨-, ⟨c, msgs, lastSeq, rfl, hchan, hlog, -, hcache⟩ | ⟨hlog, -, hcache⟩⟩ := step_cases h.rows hp hu hst
    · exact h.cache.append hsep h.rows hp hs hchan hlog hcache
    intro u c' hu' hc' q hq
    rw [of, hlog]
    obtain hq | ⟨uid, c, rfl, hkey, rfl⟩ := hcache _ q hq
    · exact h.cache u c' hu' hc' q hq
    · obtain ⟨rfl, rfl⟩ := hsep.keys _ _ _ _ hu' hs hc' (hp.1 c rfl) hkey
      exact queryUserLastMsgSeq_eq hsep h.keys hu' hc'

theorem Indexed.sound (h : Indexed channels uids s) : s.IndexSound channels uids := by
  refine h.invariant (IndexSound channels uids) ?_ ?_
  · rintro _ ⟨n, pos, rfl⟩
    exact ⟨.start ⟨n, pos, rfl⟩, ⟨nodup_nil, by simp⟩, ⟨by simp, fun _ => Pairwise.nil, by simp⟩,
      nofun⟩
  · rintro s a t hi ⟨⟨hp, hf, hu⟩, hs⟩ hst
    exact hi.step hsep hp hf hu hs hst

structure QueriesRight (channels : Channel → Prop) (uids : Bytes → Prop) (s : Stored) : Prop where
  found : ∀ m ∈ s.log, ∃ r, s.db.getMessage m.messageID.toUInt64 = .ok r ∧ r.messageID = m.messageID
  absent : ∀ id, (∀ m ∈ s.log, m.messageID.toUInt64 ≠ id) → s.db.getMessage id = .error .notFound
  lastSeq : ∀ u c, uids u → channels c → (s.db.getUserLastMsgSeq u c).1.toNat = lastSeqOf (s.of c) u

/-- In every run in which no truncation removes a message, the index of the ids and the last numbers
of the users stay right, whatever the caches hold. -/
theorem indexes_sound (h : Indexed channels uids s) : QueriesRight channels uids s := by
  have hs := h.sound hsep
  refine ⟨fun m hm => ?_, fun id hid => getMessage_eq_notFound hs.ids hid, fun u c hu hc => ?_⟩
  · exact ⟨m.withoutHeader, getMessage_eq_ok hs.rows hs.ids hm (hs.keys.users m hm).2, rfl⟩
  rw [getUserLastMsgSeq]
  split
  · rename_i q hq
    exact hs.cache u c hu hc q hq
  · exact queryUserLastMsgSeq_eq hsep hs.keys hu hc

end

private def room : Channel := ⟨[114], 2⟩

private def letter (id : Nat) (seq : UInt32) (uid : Bytes) : Message :=
  { messageID := Int64.ofNat id, messageSeq := seq, channelID := room.id, channelType := room.type, fromUID := uid }

private theorem room_separate : Separate (· = room) (· = [117]) where
  nums _ _ hc hc' _ := hc.trans hc'.symm
  hashes _ _ hu hu' _ := hu.trans hu'.symm
  keys _ _ _ _ hu hu' hc hc' _ := ⟨hu.trans hu'.symm, hc.trans hc'.symm⟩

/-- A query before and a query after a second message. -/
theorem indexes_sound_queried : ∃ s, s.of room = [letter 11 1 [117], letter 12 2 [117]] ∧
    QueriesRight (· = room) (· = [117]) s := by
  have hr : Indexed (· = room) (· = [117]) { db := { shardNum := 2, pos := by decide } } := .init ⟨_, _, rfl⟩
  obtain ⟨s, hs, hp⟩ := hr.exists_of_run [.append room [letter 11 1 [117]],
      .getUserLastMsgSeq [117] room, .truncate room 1, .append room [letter 12 2 [117]]]
    (fun s => s.of room = [letter 11 1 [117], letter 12 2 [117]]) (by decide +kernel)
  exact ⟨s, hp, indexes_sound room_separate hs⟩

/-- The second message is truncated and its place taken by one of another user: its id leads to that
one, and the user still has its number. -/
theorem indexes_sound_fails : ∃ s : Stored, Reach Start step (fun s a => s.Proper (· = room) a ∧ s.Fresh a) s ∧
    s.log = [letter 11 1 [117], letter 13 2 [118]] ∧ s.db.getMessage 12 = .ok (letter 13 2 [118]) ∧
    (s.db.getUserLastMsgSeq [117] room).1 = 2 ∧ lastSeqOf (s.of room) [117] = 1 := by
  have hr : Reach Start step (fun s a => s.Proper (· = room) a ∧ s.Fresh a) { db := { shardNum := 2, pos := by decide } } :=
    .init ⟨_, _, rfl⟩
  exact hr.exists_of_run [.append room [letter 11 1 [117], letter 12 2 [117]], .truncate room 1,
      .append room [letter 13 2 [118]]] _ (by decide +kernel)

end Stored
end WuKongIM.WKDB

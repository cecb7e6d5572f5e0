import WuKongIM.Lib.Joined
import WuKongIM.Lib.Run
import WuKongIM.WKDB.MessageScan

/-! The message tables against the log that they stand for: the messages of each channel in
order. -/
namespace WuKongIM.WKDB
open Lib List Function
open Row (key)

theorem toNat_succ {x : UInt64} (h : x.toNat + 1 < 2 ^ 64) : (x + 1).toNat = x.toNat + 1 := by
  exact Nat.mod_eq_of_lt h

theorem Row.between (num a b : UInt64) (r : Row) : (primaryKey num a ≤ r.key && r.key < primaryKey num b : Bool) =
      (decide (r.num = num) && (a ≤ r.seq && r.seq < b)) := by
  have hc := r.column.1.code_lt
  have h3 := b.toNat_lt
  have h5 := r.seq.toNat_lt
  rw [Bool.eq_iff_iff]
  simp only [Bool.and_eq_true, decide_eq_true_eq]
  rw [← UInt64.toNat_inj, UInt64.le_iff_toNat_le, UInt64.lt_iff_toNat_lt]
  simp only [key, primaryKey]
  omega

variable {r : Row} {msgs : List Message} {num : UInt64} {rows : List Row} {k : Nat} {r' : Row}

theorem Row.key_inj (h : r.key = r'.key) : r.num = r'.num ∧ r.seq = r'.seq := by
  have hc := r.column.1.code_lt
  have hc' := r'.column.1.code_lt
  have h1 := r.seq.toNat_lt
  have h2 := r'.seq.toNat_lt
  rw [← UInt64.toNat_inj, ← UInt64.toNat_inj]
  simp only [key, primaryKey] at h
  omega

theorem Row.key_lt (hn : r.num = r'.num) (hs : r.seq.toNat < r'.seq.toNat) : r.key < r'.key := by
  have hc := r.column.1.code_lt
  have hn := congrArg UInt64.toNat hn
  simp only [key, primaryKey]
  omega

theorem channelToKey_inj {c c' : Channel} (h : channelToKey c = channelToKey c') : c = c' := by
  rw [channelToKey, channelToKey, append_assoc, append_assoc] at h
  obtain ⟨ht, hid⟩ := joined_inj (notMem_itoa (.inl (by decide))) (notMem_itoa (.inl (by decide))) h
  cases c
  cases itoa_inj ht
  cases hid
  rfl

def rowsOf (num : UInt64) (rows : List Row) : List Row := rows.filter fun r => r.num = num

theorem newIter_primaryKey (s : Shard) (num a b : UInt64) :
    s.newIter (primaryKey num a) (primaryKey num b) = (rowsOf num s.rows).filter fun r => a ≤ r.seq && r.seq < b := by
  rw [rowsOf, filter_filter]
  refine filter_congr fun r _ => ?_
  rw [Row.between, Bool.and_comm]

theorem mem_layout (h : r ∈ layout num msgs) : r.num = num ∧ ∃ m ∈ msgs, r.seq = m.messageSeq.toUInt64 := by
  obtain ⟨m, hm, hr⟩ := mem_flatMap.mp h
  obtain ⟨c, -, rfl⟩ := mem_map.mp hr
  exact ⟨rfl, m, hm, rfl⟩

theorem layout_append (num : UInt64) (msgs msgs' : List Message) :
    layout num (msgs ++ msgs') = layout num msgs ++ layout num msgs' := flatMap_append

theorem filter_layout (num : UInt64) (p : UInt64 → Bool) (msgs : List Message) :
    (layout num msgs).filter (fun r => p r.seq) = layout num (msgs.filter fun m => p m.messageSeq.toUInt64) := by
  induction msgs with
  | nil => rfl
  | cons m msgs ih =>
    have hcons (ms : List Message) : layout num (m :: ms) = m.block num ++ layout num ms := flatMap_cons
    have hblock : (m.block num).filter (fun r => p r.seq) = if p m.messageSeq.toUInt64 then m.block num else [] := by
      split
      · rename_i hp
        exact filter_eq_self.mpr (forall_mem_map.mpr fun c _ => hp)
      · rename_i hp
        exact filter_eq_nil_iff.mpr (forall_mem_map.mpr fun c _ => hp)
    rw [hcons, filter_append, hblock, ih, filter_cons]
    split
    · rw [hcons]
    · rfl

variable {old : List Message} {num' : UInt64} {m : Message}

theorem rowsOf_putAll (m : Message) (ha : Ascending key rows)
    (hr : rowsOf num rows = layout num old) (hm : ∀ x ∈ old, x.messageSeq.toNat < m.messageSeq.toNat) :
    rowsOf num (putAll key (m.rows num) rows) = layout num (old ++ [m]) := by
  have hkeep : (m.rows num).filter (fun r => r.num = num) = m.rows num := by
    exact filter_eq_self.mpr (forall_mem_map.mpr fun c _ => decide_eq_true rfl)
  have hbeyond : ∀ a ∈ m.rows num, ∀ b ∈ layout num old, b.key < a.key := by
    intro a ha b hb
    obtain ⟨c, -, rfl⟩ := mem_map.mp ha
    obtain ⟨hn, x, hx, hs⟩ := mem_layout hb
    refine Row.key_lt hn ?_
    rw [hs]
    exact hm x hx
  have hnew : putAll key (m.rows num) [] = layout num [m] := by
    have hmap : putAll key (m.columns.map (Row.mk num m.messageSeq.toUInt64)) (map (Row.mk num _) []) =
        (putAll (fun c => c.1.code) m.columns []).map (Row.mk num m.messageSeq.toUInt64) :=
      putAll_map (fun a b => by simp only [key]; omega) (fun a b => by simp only [key]; omega) m.columns []
    rw [layout, flatMap_singleton]
    exact hmap
  have hfilter := filter_putAll (p := fun r : Row => decide (r.num = num))
    (fun a b h => by rw [(Row.key_inj h).1]) (m.rows num) ha
  have hrows : rows.filter (fun r => r.num = num) = layout num old ++ [] := by rw [append_nil]; exact hr
  rw [rowsOf, hfilter, hkeep, hrows, putAll_append hbeyond, hnew, layout_append]

theorem rowsOf_putAll_ne (m : Message) (ha : Ascending key rows)
    (hne : num' ≠ num) : rowsOf num' (putAll key (m.rows num) rows) = rowsOf num' rows := by
  have hdrop : (m.rows num).filter (fun r => r.num = num') = [] := by
    exact filter_eq_nil_iff.mpr (forall_mem_map.mpr fun c _ => by simpa using hne.symm)
  have hfilter := filter_putAll (p := fun r : Row => decide (r.num = num'))
    (fun a b h => by rw [(Row.key_inj h).1]) (m.rows num) ha
  rw [rowsOf, hfilter, hdrop]
  rfl

theorem rows_writeMessage (num : UInt64) (s : Shard) (m : Message) :
    (s.writeMessage num m).rows = putAll key (m.rows num) s.rows := by
  rw [Shard.writeMessage]

theorem rows_foldl (num : UInt64) (msgs : List Message) (s : Shard) :
    (msgs.foldl (Shard.writeMessage num) s).rows = msgs.foldl (fun rows m => putAll key (m.rows num) rows) s.rows := by
  induction msgs generalizing s with
  | nil => rfl
  | cons m msgs ih => rw [foldl_cons, foldl_cons, ih, rows_writeMessage]

theorem ascending_writes (msgs : List Message) (ha : Ascending key rows) :
    Ascending key (msgs.foldl (fun rows m => putAll key (m.rows num) rows) rows) := by
  induction msgs generalizing rows with
  | nil => exact ha
  | cons m msgs ih => exact ih (ha.putAll _)

theorem rowsOf_writes (msgs : List Message)
    (ha : Ascending key rows) (hr : rowsOf num rows = layout num old) (h : Ordered (old ++ msgs)) :
    rowsOf num (msgs.foldl (fun rows m => putAll key (m.rows num) rows) rows) = layout num (old ++ msgs) := by
  induction msgs generalizing rows old with
  | nil => rw [append_nil]; exact hr
  | cons m msgs ih =>
    have hm : ∀ x ∈ old, x.messageSeq.toNat < m.messageSeq.toNat := fun x hx =>
      (pairwise_append.mp h.ascending).2.2 x hx m mem_cons_self
    have happ : old ++ m :: msgs = (old ++ [m]) ++ msgs := (append_assoc old [m] msgs).symm
    rw [happ] at h ⊢
    exact ih (ha.putAll _) (rowsOf_putAll m ha hr hm) h

theorem rowsOf_writes_ne (msgs : List Message) (ha : Ascending key rows) (hne : num' ≠ num) :
    rowsOf num' (msgs.foldl (fun rows m => putAll key (m.rows num) rows) rows) = rowsOf num' rows := by
  induction msgs generalizing rows with
  | nil => rfl
  | cons m msgs ih =>
    rw [foldl_cons, ih (ha.putAll _), rowsOf_putAll_ne m ha hne]

/-! ### Numbered messages -/

def Follow (k : Nat) (msgs : List Message) : Prop :=
  msgs.map (fun m => m.messageSeq.toNat) = List.range' (k + 1) msgs.length
  deriving Decidable

section
variable (h : Follow k msgs)
include h

theorem follow_append {msgs' : List Message} (h' : Follow (k + msgs.length) msgs') : Follow k (msgs ++ msgs') := by
  refine consecutive_append.mpr ⟨h, ?_⟩
  rwa [Nat.add_right_comm]

theorem Follow.bounds : ∀ m ∈ msgs, k < m.messageSeq.toNat ∧ m.messageSeq.toNat ≤ k + msgs.length := by
  intro m hm
  have := Consecutive.bounds h hm
  omega

theorem Follow.getLast (hm : msgs.getLast? = some m) : m.messageSeq.toNat = k + msgs.length := by
  have := Consecutive.getLast h hm
  omega

theorem Follow.ordered : Ordered msgs :=
  ⟨Consecutive.ascending h, fun m hm => Nat.zero_lt_of_lt (h.bounds m hm).1⟩

theorem Follow.filter_le (q : Nat) : msgs.filter (fun m => m.messageSeq.toNat ≤ q) = msgs.take (q - k) := by
  rw [← Nat.add_sub_add_right q 1 k]
  exact Consecutive.filter_le h q

theorem Follow.take (n : Nat) : Follow k (msgs.take n) := Consecutive.take h n

end

/-! ### Runs -/

structure Stored where
  db : WukongDB
  log : List Message := []

namespace Stored

def of (s : Stored) (c : Channel) : List Message := s.log.filter fun m => m.channel = c

/-- What is done to the tables. The caches may drop any entry at any time. -/
inductive Action where
  | append (c : Channel) (msgs : List Message)
  | truncate (c : Channel) (messageSeq : UInt64)
  | getChannelLastMessageSeq (c : Channel)
  | getUserLastMsgSeq (uid : Bytes) (c : Channel)
  | evictChannelSeq (key : Bytes)
  | evictUserLastMsgSeq (key : Bytes)

def cutLog (log : List Message) (c : Channel) (seq : UInt64) : List Message :=
  log.filter fun m => !(m.channel = c && seq.toNat < m.messageSeq.toNat)

/-- An append adds messages to the log, and a truncation removes those of the channel beyond a
number. A call that fails changes nothing, so it is no step. -/
def step (s : Stored) : Action → Option Stored
  | .append c msgs => (s.db.appendMessages c msgs).toOption.map fun db => { db := db, log := s.log ++ msgs }
  | .truncate c messageSeq =>
    (s.db.truncateLogTo c messageSeq).toOption.map fun db => { db := db, log := cutLog s.log c messageSeq }
  | .getChannelLastMessageSeq c => some { s with db := (s.db.getChannelLastMessageSeq c).2 }
  | .getUserLastMsgSeq uid c => some { s with db := (s.db.getUserLastMsgSeq uid c).2 }
  | .evictChannelSeq key =>
    some { s with db := { s.db with channelSeqCache := update s.db.channelSeqCache key none } }
  | .evictUserLastMsgSeq key =>
    some { s with db := { s.db with userLastMsgSeqCache := update s.db.userLastMsgSeqCache key none } }

def Action.channel : Action → Option Channel
  | .append c _ | .truncate c _ | .getChannelLastMessageSeq c | .getUserLastMsgSeq _ c => some c
  | .evictChannelSeq _ | .evictUserLastMsgSeq _ => none

/-- The channels are of the given ones, and appended messages follow the last one of their
channel. -/
def Proper (channels : Channel → Prop) (s : Stored) (a : Action) : Prop :=
  (∀ c ∈ a.channel, channels c) ∧
    match a with
    | .append c msgs => Follow (s.of c).length msgs
    | _ => True

instance (channels : Channel → Prop) [DecidablePred channels] (s : Stored) (a : Action) : Decidable (s.Proper channels a) :=
  match a with
  | .append c msgs => inferInstanceAs (Decidable ((∀ c' ∈ some c, channels c') ∧ Follow (s.of c).length msgs))
  | .truncate c _ | .getChannelLastMessageSeq c | .getUserLastMsgSeq _ c =>
    inferInstanceAs (Decidable ((∀ c' ∈ some c, channels c') ∧ True))
  | .evictChannelSeq _ | .evictUserLastMsgSeq _ => inferInstanceAs (Decidable ((∀ c' ∈ none, channels c') ∧ True))

def Apart (channels : Channel → Prop) : Prop :=
  ∀ c c', channels c → channels c' → channelToNum c = channelToNum c' → c = c'

def Start (s : Stored) : Prop := ∃ n pos, s = { db := { shardNum := n, pos := pos } }

/-- The rows, the last numbers and their cache agree with the log. -/
structure RowsSound (channels : Channel → Prop) (s : Stored) : Prop where
  ascending : ∀ i, Ascending key (s.db.dbs i).rows
  rows : ∀ c, channels c → rowsOf (channelToNum c) (s.db.channelDb c).rows = layout (channelToNum c) (s.of c)
  follow : ∀ c, channels c → Follow 0 (s.of c)
  last : ∀ c, channels c → (((s.db.channelDb c).lastSeqs (channelToNum c)).getD 0).toNat = (s.of c).length
  cache : ∀ c, channels c → ∀ seq ∈ s.db.channelSeqCache (channelToKey c), seq.toNat = (s.of c).length

variable {channels : Channel → Prop} {s t : Stored} {c c' : Channel}

section
variable (h : s.RowsSound channels)
include h

theorem RowsSound.getChannelLastMessageSeq (hc : channels c) :
    (s.db.getChannelLastMessageSeq c).1.toNat = (s.of c).length := by
  have hlast := h.last c hc
  rw [WukongDB.getChannelLastMessageSeq]
  split
  · rename_i seq hseq
    exact h.cache c hc seq hseq
  · split <;> rename_i hdb <;> rw [hdb] at hlast <;> exact hlast

theorem RowsSound.withCache (cache : Bytes → Option UInt64)
    (hcache : ∀ c, channels c → ∀ seq ∈ cache (channelToKey c), seq.toNat = (s.of c).length) :
    RowsSound channels { s with db := { s.db with channelSeqCache := cache } } :=
  { h with cache := hcache }

theorem RowsSound.evictChannelSeq (key : Bytes) : RowsSound channels
    { s with db := { s.db with channelSeqCache := update s.db.channelSeqCache key none } } := by
  refine h.withCache _ fun c hc seq hseq => ?_
  rw [update_apply] at hseq
  split at hseq
  · cases hseq
  · exact h.cache c hc seq hseq

theorem RowsSound.readLast (hc : channels c) : RowsSound channels { s with db := (s.db.getChannelLastMessageSeq c).2 } := by
  have hlast := h.last c hc
  rw [WukongDB.getChannelLastMessageSeq]
  split
  · exact h
  split
  · exact h
  rename_i seq hdb
  rw [hdb] at hlast
  refine h.withCache _ fun c' hc' seq' hseq' => ?_
  rw [update_apply] at hseq'
  split at hseq'
  · rename_i hkey
    cases hseq'
    rw [channelToKey_inj hkey]
    exact hlast
  · exact h.cache c' hc' seq' hseq'

end

theorem channelDb_commit {β : Type} (db : WukongDB) (batch : Shard → Shard) (view : Shard → β)
    (h : view (batch (db.channelDb c')) = view (db.channelDb c')) :
    view ((db.commit c batch).channelDb c') = view (db.channelDb c') := by
  change view (update db.dbs (db.channelDbIndex c) (batch (db.channelDb c)) (db.channelDbIndex c')) = _
  rw [update_apply]
  split
  · rename_i hi
    have hsame : db.channelDb c = db.channelDb c' := congrArg db.dbs hi.symm
    rw [hsame]
    exact h
  · rfl

theorem channelDb_commit_self (db : WukongDB) (batch : Shard → Shard) :
    (db.commit c batch).channelDb c = batch (db.channelDb c) := update_self ..

variable {db : WukongDB} {seq : UInt64} {db' : WukongDB}

theorem ascending_commit (h : ∀ i, Ascending key (db.dbs i).rows) (batch : Shard → Shard)
    (hb : ∀ s, Ascending key s.rows → Ascending key (batch s).rows) :
      ∀ i, Ascending key ((db.commit c batch).dbs i).rows := by
  intro i
  change Ascending key (update db.dbs (db.channelDbIndex c) (batch (db.channelDb c)) i).rows
  rw [update_apply]
  split
  · exact hb _ (h _)
  · exact h i

theorem RowsSound.commit (h : s.RowsSound channels) (ha : Apart channels) (hc : channels c)
    (batch : Shard → Shard) {log : List Message} (seq : UInt64) (cached : Option UInt64)
    (hother : ∀ c', c' ≠ c → { s with log := log }.of c' = s.of c')
    (hasc : ∀ s, Ascending key s.rows → Ascending key (batch s).rows)
    (hrows : rowsOf (channelToNum c) (batch (s.db.channelDb c)).rows = layout (channelToNum c) ({ s with log := log }.of c))
    (hrest : ∀ s num, Ascending key s.rows → num ≠ channelToNum c →
      rowsOf num (batch s).rows = rowsOf num s.rows ∧ (batch s).lastSeqs num = s.lastSeqs num)
    (hlast : (batch (s.db.channelDb c)).lastSeqs (channelToNum c) = some seq)
    (hfollow : Follow 0 ({ s with log := log }.of c)) (hseq : seq.toNat = ({ s with log := log }.of c).length)
    (hcached : ∀ q ∈ cached, q = seq) (users : Bytes → Option UInt64) :
    RowsSound channels { db := { s.db.commit c batch with
      channelSeqCache := update s.db.channelSeqCache (channelToKey c) cached
      userLastMsgSeqCache := users }, log := log } := by
  have hnum : ∀ c', channels c' → c' ≠ c → channelToNum c' ≠ channelToNum c := fun c' hc' hne he =>
    hne (ha c' c hc' hc he)
  refine ⟨ascending_commit h.ascending batch hasc, fun c' hc' => ?_, fun c' hc' => ?_, fun c' hc' => ?_, fun c' hc' => ?_⟩
  · by_cases hcc : c' = c
    · subst hcc
      change rowsOf _ ((s.db.commit c' batch).channelDb c').rows = _
      rw [channelDb_commit_self]
      exact hrows
    · have hkeep := (hrest (s.db.channelDb c') _ (h.ascending _) (hnum c' hc' hcc)).1
      change rowsOf _ ((s.db.commit c batch).channelDb c').rows = layout _ ({ s with log := log }.of c')
      rw [channelDb_commit s.db batch (fun s => rowsOf (channelToNum c') s.rows) hkeep, hother c' hcc]
      exact h.rows c' hc'
  · by_cases hcc : c' = c
    · subst hcc
      exact hfollow
    · change Follow 0 ({ s with log := log }.of c')
      rw [hother c' hcc]
      exact h.follow c' hc'
  · by_cases hcc : c' = c
    · subst hcc
      change ((((s.db.commit c' batch).channelDb c').lastSeqs (channelToNum c')).getD 0).toNat = _
      rw [channelDb_commit_self, hlast]
      exact hseq
    · have hkeep := (hrest (s.db.channelDb c') _ (h.ascending _) (hnum c' hc' hcc)).2
      change ((((s.db.commit c batch).channelDb c').lastSeqs (channelToNum c')).getD 0).toNat =
        ({ s with log := log }.of c').length
      rw [channelDb_commit s.db batch (fun s => s.lastSeqs (channelToNum c')) hkeep, hother c' hcc]
      exact h.last c' hc'
  · intro q hq
    change q ∈ update s.db.channelSeqCache (channelToKey c) cached (channelToKey c') at hq
    rw [update_apply] at hq
    split at hq
    · rename_i hkey
      rw [channelToKey_inj hkey, hcached q hq]
      exact hseq
    rename_i hkey
    have hcc : c' ≠ c := fun he => hkey (he ▸ rfl)
    change q.toNat = ({ s with log := log }.of c').length
    rw [hother c' hcc]
    exact h.cache c' hc' q hq

theorem appendMessages_eq_ok (h : db.appendMessages c msgs = .ok db') :
    (∀ m ∈ msgs, m.channel = c) ∧ ∃ lastMsg, msgs.getLast? = some lastMsg ∧
      db' = { db.commit c fun s => (msgs.foldl (Shard.writeMessage (channelToNum c)) s).setChannelLastMessageSeq
                (channelToNum c) lastMsg.messageSeq.toUInt64 with
        channelSeqCache := update db.channelSeqCache (channelToKey c) (some lastMsg.messageSeq.toUInt64)
        userLastMsgSeqCache := msgs.foldl (WukongDB.updateIfGreater c) db.userLastMsgSeqCache } := by
  rw [WukongDB.appendMessages] at h
  split at h
  · cases h
  rename_i hfind
  split at h
  · cases h
  rename_i lastMsg hlast
  refine ⟨fun m hm => ?_, lastMsg, hlast, (Except.ok.inj h).symm⟩
  simpa using find?_eq_none.mp hfind m hm

theorem lastSeqs_foldl (num : UInt64) (msgs : List Message) (s : Shard) :
    (msgs.foldl (Shard.writeMessage num) s).lastSeqs = s.lastSeqs := by
  induction msgs generalizing s with
  | nil => rfl
  | cons m msgs ih => exact ih (s.writeMessage num m)

theorem of_append (log : List Message) (db : WukongDB) (h : ∀ m ∈ msgs, m.channel = c)
    (c' : Channel) : ({ db := db, log := log ++ msgs } : Stored).of c' =
      ({ db := db, log := log } : Stored).of c' ++ if c' = c then msgs else [] := by
  rw [of, filter_append, of]
  split
  · rename_i hc
    rw [filter_eq_self.mpr fun m hm => decide_eq_true ((h m hm).trans hc.symm)]
  rename_i hc
  have hnone : msgs.filter (fun m => m.channel = c') = [] := by
    refine filter_eq_nil_iff.mpr fun m hm => ?_
    simpa [h m hm] using fun he : c = c' => hc he.symm
  rw [hnone]

theorem RowsSound.append (h : s.RowsSound channels) (ha : Apart channels)
    (hp : s.Proper channels (.append c msgs)) (hst : s.db.appendMessages c msgs = .ok db) :
    RowsSound channels { db := db, log := s.log ++ msgs } := by
  obtain ⟨hchan, lastMsg, hlast, rfl⟩ := appendMessages_eq_ok hst
  have hc := hp.1 c rfl
  have hof := of_append s.log s.db hchan
  have hself : { s with log := s.log ++ msgs }.of c = s.of c ++ msgs := by
    have := hof c
    rwa [if_pos rfl] at this
  have hfollow : Follow 0 (s.of c ++ msgs) := follow_append (h.follow c hc) (by rw [Nat.zero_add]; exact hp.2)
  refine h.commit ha hc _ lastMsg.messageSeq.toUInt64 (some lastMsg.messageSeq.toUInt64) ?_ ?_ ?_ ?_ ?_ ?_ ?_ ?_ _
  · intro c' hne
    have := hof c'
    rwa [if_neg hne, append_nil] at this
  · intro t ht
    change Ascending key (msgs.foldl (Shard.writeMessage (channelToNum c)) t).rows
    rw [rows_foldl]
    exact ascending_writes msgs ht
  · change rowsOf _ (msgs.foldl (Shard.writeMessage (channelToNum c)) (s.db.channelDb c)).rows = _
    rw [rows_foldl, hself]
    exact rowsOf_writes msgs (h.ascending _) (h.rows c hc) hfollow.ordered
  · intro t num ht hne
    constructor
    · change rowsOf num (msgs.foldl (Shard.writeMessage (channelToNum c)) t).rows = _
      rw [rows_foldl]
      exact rowsOf_writes_ne msgs ht hne
    · change update (msgs.foldl (Shard.writeMessage (channelToNum c)) t).lastSeqs _ _ num = _
      rw [update_of_ne hne, lastSeqs_foldl]
  · exact update_self ..
  · rw [hself]
    exact hfollow
  · rw [hself, UInt32.toNat_toUInt64]
    rw [hp.2.getLast hlast, length_append]
  · rintro q ⟨⟩
    rfl

theorem truncateLogTo_eq_ok (h : db.truncateLogTo c seq = .ok db') :
    ((db.getChannelLastMessageSeq c).1 ≤ seq ∧ db' = (db.getChannelLastMessageSeq c).2) ∨
    (seq < (db.getChannelLastMessageSeq c).1 ∧
      db' = { (db.getChannelLastMessageSeq c).2.commit c fun s => (s.deleteRange (primaryKey (channelToNum c) (seq + 1))
                (primaryKey (channelToNum c) maxUint64)).setChannelLastMessageSeq (channelToNum c) seq with
        channelSeqCache := update (db.getChannelLastMessageSeq c).2.channelSeqCache (channelToKey c) none }) := by
  rw [WukongDB.truncateLogTo] at h
  split at h
  · cases h
  dsimp only at h
  split at h
  · rename_i hge
    exact .inl ⟨hge, (Except.ok.inj h).symm⟩
  · rename_i hlt
    exact .inr ⟨UInt64.not_le.mp hlt, (Except.ok.inj h).symm⟩

theorem rowsOf_deleteRange (t : Shard) (hr : rowsOf num t.rows = layout num msgs) (hlt : seq.toNat + 1 < 2 ^ 64) :
    rowsOf num (t.deleteRange (primaryKey num (seq + 1)) (primaryKey num maxUint64)).rows =
      layout num (msgs.filter fun m => m.messageSeq.toNat ≤ seq.toNat) := by
  have hsplit : rowsOf num (t.deleteRange (primaryKey num (seq + 1)) (primaryKey num maxUint64)).rows =
      (rowsOf num t.rows).filter fun r => !(seq + 1 ≤ r.seq && r.seq < maxUint64) := by
    rw [rowsOf, Shard.deleteRange, filter_filter, rowsOf, filter_filter]
    refine filter_congr fun r _ => ?_
    rw [Row.between]
    cases decide (r.num = num) <;> simp
  rw [hsplit, hr, filter_layout num fun q => !(seq + 1 ≤ q && q < maxUint64)]
  congr 1
  refine filter_congr fun m _ => ?_
  have hm := m.messageSeq.toNat_lt
  have hmax : maxUint64.toNat = 2 ^ 64 - 1 := rfl
  rw [Bool.eq_iff_iff]
  simp only [Bool.not_eq_true', Bool.and_eq_false_iff, decide_eq_false_iff_not, decide_eq_true_eq,
    UInt64.le_iff_toNat_le, UInt64.lt_iff_toNat_lt, UInt32.toNat_toUInt64, toNat_succ hlt, hmax]
  omega

theorem of_cutLog_ne (s : Stored) (hne : c' ≠ c) : { s with log := cutLog s.log c seq }.of c' = s.of c' := by
  rw [of, cutLog, filter_filter]
  refine filter_congr fun m _ => ?_
  by_cases hm : m.channel = c'
  · simp [hm, hne]
  · simp [hm]

theorem of_cutLog (s : Stored) (c : Channel) (seq : UInt64) :
    { s with log := cutLog s.log c seq }.of c = (s.of c).filter fun m => m.messageSeq.toNat ≤ seq.toNat := by
  rw [of, cutLog, filter_filter, of, filter_filter]
  refine filter_congr fun m _ => ?_
  by_cases hm : m.channel = c
  · simp only [hm, decide_true, Bool.true_and, Bool.and_true, ← decide_not, not_lt]
  · simp [hm]

theorem RowsSound.cutLog_of_le (h : s.RowsSound channels) (hc : channels c)
    (hle : (s.of c).length ≤ seq.toNat) : cutLog s.log c seq = s.log := by
  refine filter_eq_self.mpr fun m hm => ?_
  by_cases hmc : m.channel = c
  · have hb := ((h.follow c hc).bounds m (mem_filter.mpr ⟨hm, decide_eq_true hmc⟩)).2
    have : ¬ seq.toNat < m.messageSeq.toNat := by omega
    simp [this]
  · simp [hmc]

theorem RowsSound.truncate (h : s.RowsSound channels) (ha : Apart channels) (hc : channels c)
    (hst : s.db.truncateLogTo c seq = .ok db) : RowsSound channels { db := db, log := cutLog s.log c seq } := by
  have hlast := h.getChannelLastMessageSeq hc
  have h1 := h.readLast hc
  obtain ⟨hle, rfl⟩ | ⟨hlt, rfl⟩ := truncateLogTo_eq_ok hst
  · rw [UInt64.le_iff_toNat_le, hlast] at hle
    rw [h.cutLog_of_le hc hle]
    exact h1
  rw [UInt64.lt_iff_toNat_lt] at hlt
  have hfollow := h.follow c hc
  have hsmall : seq.toNat + 1 < 2 ^ 64 := by
    have := (s.db.getChannelLastMessageSeq c).1.toNat_lt
    omega
  have hself := of_cutLog s c seq
  have hcut : (s.of c).filter (fun m => m.messageSeq.toNat ≤ seq.toNat) = (s.of c).take seq.toNat :=
    hfollow.filter_le seq.toNat
  refine h1.commit ha hc _ seq none (fun c' hne => of_cutLog_ne s hne) ?_ ?_ ?_ ?_ ?_ ?_ ?_ _
  · exact fun t ht => ht.filter _
  · refine (rowsOf_deleteRange _ (h1.rows c hc) hsmall).trans ?_
    exact congrArg (layout (channelToNum c)) hself.symm
  · intro t num ht hne
    refine ⟨?_, update_of_ne hne ..⟩
    change rowsOf num (t.rows.filter _) = _
    rw [rowsOf, filter_filter]
    refine filter_congr fun r _ => ?_
    rw [Row.between]
    by_cases hn : r.num = num
    · subst hn
      simp [hne]
    · simp [hn]
  · exact update_self ..
  · change Follow 0 ({ s with log := cutLog s.log c seq }.of c)
    rw [hself, hcut]
    exact hfollow.take _
  · change seq.toNat = ({ s with log := cutLog s.log c seq }.of c).length
    rw [hself, hcut, length_take]
    omega
  · exact nofun

theorem ok_of_toOption {ε α : Type} {x : Except ε α} {a : α} (h : x.toOption = some a) : x = .ok a := by
  cases x with
  | error e => cases h
  | ok b => rw [Option.some.inj h]

theorem RowsSound.step (h : s.RowsSound channels) (ha : Apart channels) {a : Action}
    (hp : s.Proper channels a) (hst : s.step a = some t) : t.RowsSound channels := by
  cases a with
  | append c msgs =>
    obtain ⟨db, hdb, rfl⟩ := Option.map_eq_some_iff.mp hst
    exact h.append ha hp (ok_of_toOption hdb)
  | truncate c seq =>
    obtain ⟨db, hdb, rfl⟩ := Option.map_eq_some_iff.mp hst
    exact h.truncate ha (hp.1 c rfl) (ok_of_toOption hdb)
  | getChannelLastMessageSeq c =>
    cases hst
    exact h.readLast (hp.1 c rfl)
  | getUserLastMsgSeq uid c =>
    cases hst
    rw [WukongDB.getUserLastMsgSeq]
    split
    · exact h
    · exact { h with }
  | evictChannelSeq key =>
    cases hst
    exact h.evictChannelSeq key
  | evictUserLastMsgSeq key =>
    cases hst
    exact { h with }

theorem RowsSound.start (h : s.Start) : s.RowsSound channels := by
  obtain ⟨n, pos, rfl⟩ := h
  exact ⟨fun _ => Pairwise.nil, fun _ _ => rfl, fun _ _ => rfl, fun _ _ => rfl, nofun⟩

abbrev Reached (channels : Channel → Prop) : Stored → Prop := Reach Start step (Proper channels)

theorem Reached.rowsSound (ha : Apart channels) (h : Reached channels s) : s.RowsSound channels :=
  h.invariant (RowsSound channels) (fun _ hs => .start hs) fun _ _ _ hs hp hst => hs.step ha hp hst

end Stored
end WuKongIM.WKDB

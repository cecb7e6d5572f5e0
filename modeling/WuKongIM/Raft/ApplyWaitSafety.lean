import Mathlib.Data.List.Nodup
import WuKongIM.Lib.Positions
import WuKongIM.Raft.ApplyWaits

/-! No wake-up of a waiting call is lost, repeated or given too early. An open registration owns its
progress: the object carries the registration's data and channel, and nobody else has it. -/
namespace WuKongIM.RaftGroup
open Lib List Option Function

variable {α : Type} {l : List α} {reuse : Option Nat} {m i : Nat} {key : Key}

private theorem getElem_set_iff {i j : Nat} {a b c : α} (hi : l[i]? = some c) :
    (l.set i a)[j]? = some b ↔ (j ≠ i ∧ l[j]? = some b) ∨ (j = i ∧ b = a) := by
  grind

private theorem modify_eq_set {a : α} (hi : l[i]? = some a) (f : α → α) : l.modify i f = l.set i (f a) := by
  apply ext_getElem?
  grind

def Waiter.object (w : Waiter) (i : Nat) : Progress :=
  { key := w.key, maxIndex := w.maxIndex, waitC := some i, waitApplied := true, done := decide (w.sent = 1) }

namespace Waits

variable {v v' : Waits} {p bucket idx : Nat} {w w' : Waiter}

/-- The registrations, the objects and the buckets agree. -/
structure Sound (v : Waits) : Prop where
  sent : ∀ (i : Nat) w, v.waiters[i]? = some w → w.sent ≤ 1
  left : ∀ (i : Nat) w, v.waiters[i]? = some w → w.left = false → w.closed = false
  unbuffered : ∀ (i : Nat) w, v.waiters[i]? = some w → w.sent = 0 → w.buffered = false
  owns : ∀ (i : Nat) w, v.waiters[i]? = some w → w.closed = false →
    v.heap[w.progress]? = some (w.object i)
  waits : ∀ (i : Nat) w, v.waiters[i]? = some w → w.closed = false → w.sent = 0 →
    w.progress ∈ (v.buckets (bucketIndex w.key)).progresses
  listed : ∀ bucket, ∀ p ∈ (v.buckets bucket).progresses,
    ∃ (i : Nat) (w : Waiter), v.waiters[i]? = some w ∧ w.progress = p ∧ w.closed = false ∧ bucketIndex w.key = bucket
  nodup : ∀ bucket, (v.buckets bucket).progresses.Nodup
  pooled : ∀ bucket, ∀ p ∈ (v.buckets bucket).pool, p < v.heap.length ∧
    ∀ (i : Nat) w, v.waiters[i]? = some w → w.progress = p → w.closed = true
  pools : ∀ bucket, (v.buckets bucket).pool.Nodup
  apart : ∀ bucket bucket' p, p ∈ (v.buckets bucket).pool → p ∈ (v.buckets bucket').pool → bucket = bucket'

/-- What a registration leaves, signalled at once when `done`. -/
def enlist (v : Waits) (key : Key) (maxIndex p : Nat) (done : Bool) : Waits where
  heap := v.heap.set p
    { key := key, maxIndex := maxIndex, waitC := some v.waiters.length, waitApplied := true, done := done }
  waiters := v.waiters ++
    [{ key := key, maxIndex := maxIndex, progress := p, sent := done.toNat, buffered := done }]
  buckets := if done then v.buckets else update v.buckets (bucketIndex key)
    { v.buckets (bucketIndex key) with progresses := (v.buckets (bucketIndex key)).progresses ++ [p] }

theorem waitApply_eq (v : Waits) (key : Key) (m a : Nat) (reuse : Option Nat) : v.waitApply key m a reuse =
      (v.getProgress (bucketIndex key) reuse).map fun r => r.1.enlist key m r.2 (decide (m ≤ a)) := by
  unfold waitApply
  dsimp only
  cases v.getProgress (bucketIndex key) reuse with
  | none => rfl
  | some r =>
    by_cases hm : m ≤ a
    · simp [hm, send, enlist]
    · simp [hm, enlist]

abbrev newcomer (key : Key) (m p : Nat) (done : Bool) : Waiter :=
  { key := key, maxIndex := m, progress := p, sent := done.toNat, buffered := done }

theorem getElem_enlist (v : Waits) (key : Key) (m p : Nat) (done : Bool) (i : Nat) (w : Waiter) :
    (v.enlist key m p done).waiters[i]? = some w ↔
      v.waiters[i]? = some w ∨ (i = v.waiters.length ∧ w = newcomer key m p done) := by
  rcases Nat.lt_trichotomy i v.waiters.length with hlt | rfl | hgt
  · simp [enlist, getElem?_append_left hlt, Nat.ne_of_lt hlt]
  · simp [enlist, eq_comm]
  · rw [getElem?_eq_none (by simpa [enlist, Nat.succ_le_iff] using hgt), getElem?_eq_none (Nat.le_of_lt hgt)]
    simp [Nat.ne_of_gt hgt]

theorem forall_enlist {P : Nat → Waiter → Prop} {done : Bool} (hnew : P v.waiters.length (newcomer key m p done))
    (h : ∀ i w, v.waiters[i]? = some w → P i w) : ∀ i w, (v.enlist key m p done).waiters[i]? = some w → P i w := by
  intro i w hi
  obtain hi | ⟨rfl, rfl⟩ := (getElem_enlist ..).mp hi
  · exact h i w hi
  · exact hnew

theorem pool_enlist (v : Waits) (key : Key) (m p : Nat) (done : Bool) (b : Nat) :
    ((v.enlist key m p done).buckets b).pool = (v.buckets b).pool := by
  cases done with
  | true => rfl
  | false =>
    simp only [enlist, Bool.false_eq_true, if_false, update_apply]
    split
    · rename_i hb
      rw [hb]
    · rfl

theorem progresses_enlist (v : Waits) (key : Key) (m p : Nat) (done : Bool) (b : Nat) :
    ((v.enlist key m p done).buckets b).progresses = if done = false ∧
      b = bucketIndex key then (v.buckets b).progresses ++ [p] else (v.buckets b).progresses := by
  cases done with
  | true => rfl
  | false =>
    simp only [enlist, Bool.false_eq_true, if_false, update_apply, true_and]
    split
    · rename_i hb
      rw [hb]
    · rfl

/-- An object that no open registration and no pool has. -/
structure Free (v : Waits) (p : Nat) : Prop where
  lt : p < v.heap.length
  closed : ∀ (i : Nat) w, v.waiters[i]? = some w → w.progress = p → w.closed = true
  pool : ∀ bucket, p ∉ (v.buckets bucket).pool

def signal (v : Waits) (i : Nat) (w : Waiter) : Waits :=
  { v with
    heap := v.heap.set w.progress { w.object i with done := true }
    waiters := v.waiters.set i { w with sent := 1, buffered := true } }

def release (v : Waits) (i : Nat) (w : Waiter) : Waits where
  heap := v.heap.set w.progress {}
  waiters := v.waiters.set i { w with closed := true, left := true }
  buckets := update v.buckets (bucketIndex w.key)
    { progresses := (v.buckets (bucketIndex w.key)).progresses.erase w.progress
      pool := (v.buckets (bucketIndex w.key)).pool ++ [w.progress] }

/-- What notifying a key with an index may do to a registration. -/
def Wakes (key : Key) (idx : Nat) (w w' : Waiter) : Prop :=
  w' = w ∨ (w.key = key ∧ w.maxIndex ≤ idx ∧ w' = { w with sent := 1, buffered := true })

theorem Wakes.kept (h : Wakes key idx w w') : w'.key = w.key ∧ w'.maxIndex = w.maxIndex ∧
    w'.progress = w.progress ∧ w'.closed = w.closed := by
  obtain rfl | ⟨-, -, rfl⟩ := h <;> exact ⟨rfl, rfl, rfl, rfl⟩

theorem Wakes.sent (h : Wakes key idx w w') (hs : w.sent = 1) : w'.sent = 1 := by
  obtain rfl | ⟨-, -, rfl⟩ := h
  · exact hs
  · rfl

/-- What notifying a key with an index may have done. -/
structure Signals (key : Key) (idx : Nat) (v v' : Waits) : Prop where
  buckets : v'.buckets = v.buckets
  length : v'.waiters.length = v.waiters.length
  waiters : ∀ (i : Nat) w w', v.waiters[i]? = some w → v'.waiters[i]? = some w' → Wakes key idx w w'

theorem Signals.refl (key : Key) (idx : Nat) (v : Waits) : Signals key idx v v :=
  ⟨rfl, rfl, fun _ _ _ hw hw' => .inl (some.inj (hw'.symm.trans hw))⟩

section
variable (h : Signals key idx v v')
include h

theorem Signals.before (hw : v'.waiters[i]? = some w') : ∃ w, v.waiters[i]? = some w ∧ Wakes key idx w w' := by
  have hlt := h.length ▸ (List.getElem?_eq_some_iff.mp hw).1
  have hget := getElem?_eq_getElem hlt
  exact ⟨_, hget, h.waiters i _ _ hget hw⟩

theorem Signals.after (hw : v.waiters[i]? = some w) : ∃ w', v'.waiters[i]? = some w' ∧ Wakes key idx w w' := by
  have hlt := h.length.symm ▸ (List.getElem?_eq_some_iff.mp hw).1
  have hget := getElem?_eq_getElem hlt
  exact ⟨_, hget, h.waiters i _ _ hw hget⟩

theorem Signals.trans {u : Waits} (h' : Signals key idx v' u) : Signals key idx v u := by
  refine ⟨h'.buckets.trans h.buckets, h'.length.trans h.length, fun i w w'' hw hw'' => ?_⟩
  obtain ⟨w', hw', hcase⟩ := h.after hw
  obtain rfl | ⟨hk, hm, rfl⟩ := h'.waiters i w' w'' hw' hw''
  · exact hcase
  · obtain rfl | ⟨hk', hm', rfl⟩ := hcase
    · exact .inr ⟨hk, hm, rfl⟩
    · exact .inr ⟨hk', hm', rfl⟩

end

namespace Sound

variable (h : v.Sound)
include h

theorem progress_lt (hi : v.waiters[i]? = some w) (hc : w.closed = false) : w.progress < v.heap.length :=
  (List.getElem?_eq_some_iff.mp (h.owns i w hi hc)).1

theorem owner_unique {j : Nat} (hi : v.waiters[i]? = some w) (hc : w.closed = false)
    (hj : v.waiters[j]? = some w') (hc' : w'.closed = false) (hp : w'.progress = w.progress) : j = i := by
  have h1 := h.owns i w hi hc
  have h2 := h.owns j w' hj hc'
  rw [hp, h1] at h2
  have hw : (w.object i).waitC = (Waiter.object w' j).waitC := congrArg Progress.waitC (some.inj h2)
  exact (some.inj hw).symm

theorem withBuckets (f : Nat → Bucket)
    (hf : ∀ b, (f b).progresses.Sublist (v.buckets b).progresses ∧ (f b).pool.Sublist (v.buckets b).pool)
    (hw : ∀ (i : Nat) w, v.waiters[i]? = some w → w.closed = false → w.sent = 0 →
      w.progress ∈ (f (bucketIndex w.key)).progresses) : { v with buckets := f }.Sound where
  sent := h.sent
  left := h.left
  unbuffered := h.unbuffered
  owns := h.owns
  waits := hw
  listed b p hp := h.listed b p ((hf b).1.subset hp)
  nodup b := (hf b).1.nodup (h.nodup b)
  pooled b p hp := h.pooled b p ((hf b).2.subset hp)
  pools b := (hf b).2.nodup (h.pools b)
  apart b b' p hp hp' := h.apart b b' p ((hf b).2.subset hp) ((hf b').2.subset hp')

theorem getProgress (hr : ∀ k ∈ reuse, k < (v.buckets bucket).pool.length) :
    ∃ r, v.getProgress bucket reuse = some r ∧ r.1.Sound ∧ r.1.Free r.2 ∧ r.1.waiters = v.waiters := by
  cases reuse with
  | none =>
    refine ⟨_, rfl, ?_, ⟨by simp, ?_, ?_⟩, rfl⟩
    · refine { h with owns := ?_, pooled := ?_ }
      · intro i w hi hc
        rw [getElem?_append_left (h.progress_lt hi hc)]
        exact h.owns i w hi hc
      · intro b p hp
        refine ⟨?_, (h.pooled b p hp).2⟩
        rw [length_append]
        exact Nat.lt_add_right _ (h.pooled b p hp).1
    · intro i w hi hp
      cases hc : w.closed with
      | true => rfl
      | false => exact absurd (h.progress_lt hi hc) (by omega)
    · intro b hp
      exact absurd (h.pooled b _ hp).1 (Nat.lt_irrefl _)
  | some k =>
    have hk := hr k rfl
    have hmem := getElem_mem hk
    obtain ⟨hlt, hclosed⟩ := h.pooled bucket _ hmem
    refine ⟨_, congrArg (Option.map _) (getElem?_eq_getElem hk), ?_, ⟨hlt, hclosed, ?_⟩, rfl⟩
    · refine h.withBuckets _ ?_ ?_
      · rw [forall_update_iff v.buckets (p := fun b x => x.progresses.Sublist (v.buckets b).progresses ∧
          x.pool.Sublist (v.buckets b).pool)]
        exact ⟨⟨.refl _, eraseIdx_sublist _ _⟩, fun b _ => ⟨.refl _, .refl _⟩⟩
      intro i w hi hc hs
      rw [update_apply]
      split
      · rename_i hb
        exact hb ▸ h.waits i w hi hc hs
      · exact h.waits i w hi hc hs
    · rw [forall_update_iff v.buckets (p := fun _ x => (v.buckets bucket).pool[k] ∉ x.pool)]
      refine ⟨?_, fun b hb hp => hb (h.apart b bucket _ hp hmem)⟩
      rw [← Nodup.erase_getElem (h.pools bucket) k]
      exact Nodup.not_mem_erase (h.pools bucket)

theorem enlist (hp : v.Free p) (key : Key) (m : Nat) (done : Bool) : (v.enlist key m p done).Sound := by
  have hfresh : ∀ b, p ∉ (v.buckets b).progresses := by
    intro b hb
    obtain ⟨i, w, hi, hwp, hc, -⟩ := h.listed b p hb
    exact absurd (hp.closed i w hi hwp) (by simp [hc])
  refine ⟨?_, ?_, ?_, ?_, ?_, ?_, ?_, ?_, ?_, ?_⟩
  · exact forall_enlist (by cases done <;> simp) h.sent
  · exact forall_enlist (fun _ => rfl) h.left
  · exact forall_enlist (by cases done <;> simp) h.unbuffered
  · intro i w hi hc
    obtain hi' | ⟨rfl, rfl⟩ := (getElem_enlist ..).mp hi
    · have hne : p ≠ w.progress := by
        rintro rfl
        exact absurd (hp.closed i w hi' rfl) (by simp [hc])
      rw [Waits.enlist, getElem?_set_ne hne]
      exact h.owns i w hi' hc
    · rw [Waits.enlist, getElem?_set_self hp.lt]
      cases done <;> rfl
  · intro i w hi hc hs
    rw [progresses_enlist]
    obtain hi | ⟨rfl, rfl⟩ := (getElem_enlist ..).mp hi
    · have hold := h.waits i w hi hc hs
      split
      · exact mem_append_left _ hold
      · exact hold
    · cases done with
      | true => cases hs
      | false => simp
  · intro b q hq
    rw [progresses_enlist] at hq
    have hcase : q ∈ (v.buckets b).progresses ∨ (q = p ∧ b = bucketIndex key) := by
      split at hq
      · rename_i hb
        rcases mem_append.mp hq with hq | hq
        · exact .inl hq
        · exact .inr ⟨mem_singleton.mp hq, hb.2⟩
      · exact .inl hq
    obtain hq | ⟨rfl, rfl⟩ := hcase
    · obtain ⟨i, w, hi, hw⟩ := h.listed b q hq
      exact ⟨i, w, (getElem_enlist ..).mpr (.inl hi), hw⟩
    · exact ⟨_, _, (getElem_enlist ..).mpr (.inr ⟨rfl, rfl⟩), rfl, rfl, rfl⟩
  · intro b
    rw [progresses_enlist]
    split
    · rw [← concat_eq_append]
      exact Nodup.concat (hfresh b) (h.nodup b)
    · exact h.nodup b
  · intro b q hq
    rw [pool_enlist] at hq
    obtain ⟨hlt, hclosed⟩ := h.pooled b q hq
    refine ⟨by simpa [Waits.enlist] using hlt, forall_enlist (fun hw => ?_) hclosed⟩
    subst hw
    exact absurd hq (hp.pool b)
  · intro b
    rw [pool_enlist]
    exact h.pools b
  · intro b b' q hq hq'
    rw [pool_enlist] at hq hq'
    exact h.apart b b' q hq hq'

section
variable (hi : v.waiters[i]? = some w)
include hi

theorem notify_eq (hc : w.closed = false) (key : Key) (idx : Nat) : notify key idx v w.progress =
      some (if w.key = key ∧ w.sent = 0 ∧ w.maxIndex ≤ idx then v.signal i w else v) := by
  rw [notify, h.owns i w hi hc]
  by_cases hk : w.key = key
  · by_cases hs : w.sent = 0
    · by_cases hm : w.maxIndex ≤ idx
      · simp [Waiter.object, hk, hs, hm, send, hi, hc, h.unbuffered i w hi hs, signal]
      · simp [Waiter.object, hm]
    · have hs1 : w.sent = 1 := by
        have := h.sent i w hi
        omega
      simp [Waiter.object, hs1]
  · simp [Waiter.object, hk]

/-- A registration is replaced by one with the same object. -/
theorem replace {heap : List Progress} (hlen : heap.length = v.heap.length)
    (hp : w'.progress = w.progress) (hk : w'.key = w.key) (hc : w'.closed = w.closed) (hsent : w'.sent ≤ 1)
    (hl : w'.left = false → w.left = false) (hs : w'.sent = 0 → w.sent = 0 ∧ (w'.buffered → w.buffered))
    (howns : ∀ (j : Nat) u, (v.waiters.set i w')[j]? = some u → u.closed = false → heap[u.progress]? = some (u.object j)) :
    { v with heap := heap, waiters := v.waiters.set i w' }.Sound where
  sent := forall_set hsent h.sent
  left := forall_set (fun hleft => hc.trans (h.left i w hi (hl hleft))) h.left
  unbuffered := forall_set (fun hzero => Bool.eq_false_iff.mpr fun hb =>
    Bool.eq_false_iff.mp (h.unbuffered i w hi (hs hzero).1) ((hs hzero).2 hb)) h.unbuffered
  owns := howns
  waits := forall_set (fun hopen hzero => by
    rw [hp, hk]
    exact h.waits i w hi (hc ▸ hopen) (hs hzero).1) h.waits
  listed b q hq := by
    obtain ⟨j, u, hj, hup, huc, hub⟩ := h.listed b q hq
    by_cases hji : j = i
    · subst hji
      cases hj.symm.trans hi
      exact ⟨j, w', (getElem_set_iff hi).mpr (.inr ⟨rfl, rfl⟩), hp.trans hup, hc.trans huc, hk ▸ hub⟩
    · exact ⟨j, u, (getElem_set_iff hi).mpr (.inl ⟨hji, hj⟩), hup, huc, hub⟩
  nodup := h.nodup
  pooled b q hq := by
    obtain ⟨hlt, hclosed⟩ := h.pooled b q hq
    exact ⟨hlen ▸ hlt, forall_set (fun hw => hc.trans (hclosed i w hi (hp.symm.trans hw))) hclosed⟩
  pools := h.pools
  apart := h.apart

theorem signal_sound (hc : w.closed = false) : (v.signal i w).Sound := by
  refine h.replace hi length_set rfl rfl rfl (Nat.le_refl 1) id (fun hzero => by cases hzero) fun j u hj hu => ?_
  obtain ⟨hne, hj⟩ | ⟨rfl, rfl⟩ := (getElem_set_iff hi).mp hj
  · have hp : w.progress ≠ u.progress := fun he => hne (h.owner_unique hi hc hj hu he.symm)
    rw [getElem?_set_ne hp]
    exact h.owns j u hj hu
  · rw [getElem?_set_self (h.progress_lt hi hc)]
    rfl

end

theorem foldlM_notify (key : Key) (idx : Nat) (ps : List Nat)
    (hps : ∀ p ∈ ps, ∃ (i : Nat) (w : Waiter), v.waiters[i]? = some w ∧ w.progress = p ∧ w.closed = false) :
    ∃ v', ps.foldlM (notify key idx) v = some v' ∧ v'.Sound ∧ Signals key idx v v' ∧
      ∀ (i : Nat) w, v'.waiters[i]? = some w → w.closed = false → w.progress ∈ ps → w.key = key →
        w.maxIndex ≤ idx → w.sent = 1 := by
  induction ps generalizing v with
  | nil => exact ⟨v, rfl, h, .refl _ _ _, nofun⟩
  | cons p ps ih =>
    obtain ⟨i, w, hi, rfl, hc⟩ := hps p mem_cons_self
    -- one turn of the loop
    obtain ⟨u, hu, hus, husig, hone⟩ : ∃ u, notify key idx v w.progress = some u ∧ u.Sound ∧ Signals key idx v u ∧
        ∀ u', u.waiters[i]? = some u' → w.key = key → w.maxIndex ≤ idx → u'.sent = 1 := by
      refine ⟨_, h.notify_eq hi hc key idx, ?_⟩
      split
      · rename_i hcond
        refine ⟨h.signal_sound hi hc, ⟨rfl, length_set, fun j w0 w' hj hj' => ?_⟩, fun u' hu' _ _ => ?_⟩
        · obtain ⟨-, hj'⟩ | ⟨rfl, rfl⟩ := (getElem_set_iff hi).mp hj'
          · exact .inl (some.inj (hj'.symm.trans hj))
          · cases hj.symm.trans hi
            exact .inr ⟨hcond.1, hcond.2.2, rfl⟩
        · obtain ⟨hne, -⟩ | ⟨-, rfl⟩ := (getElem_set_iff hi).mp hu'
          · exact absurd rfl hne
          · rfl
      · rename_i hcond
        refine ⟨h, .refl _ _ _, fun u' hu' hk hm => ?_⟩
        cases hi.symm.trans hu'
        have hle := h.sent i w hi
        have hne : w.sent ≠ 0 := fun hs => hcond ⟨hk, hs, hm⟩
        omega
    have hps' : ∀ p ∈ ps, ∃ (i : Nat) (w : Waiter), u.waiters[i]? = some w ∧ w.progress = p ∧ w.closed = false := by
      intro q hq
      obtain ⟨j, w0, hj, hw0, hc0⟩ := hps q (mem_cons_of_mem _ hq)
      obtain ⟨w', hj', hwakes⟩ := husig.after hj
      exact ⟨j, w', hj', hwakes.kept.2.2.1.trans hw0, hwakes.kept.2.2.2.trans hc0⟩
    obtain ⟨v', hv', hsound, hsig, hall⟩ := ih hus hps'
    refine ⟨v', ?_, hsound, husig.trans hsig, ?_⟩
    · rw [foldlM_cons, hu]
      exact hv'
    intro j w' hj hc' hp hk hm
    rcases mem_cons.mp hp with hp | hp
    · -- the object of this turn has one owner
      obtain ⟨u', hu', hwakes⟩ := hsig.before hj
      obtain ⟨w0, hw0, hwakes0⟩ := husig.before hu'
      obtain ⟨hk1, hm1, hp1, hc1⟩ := hwakes.kept
      obtain ⟨hk0, hm0, hp0, hc0⟩ := hwakes0.kept
      obtain rfl : j = i := h.owner_unique hi hc hw0 (by rw [← hc0, ← hc1, hc']) (by rw [← hp0, ← hp1, hp])
      cases hw0.symm.trans hi
      exact hwakes.sent (hone u' hu' (by rw [← hk0, ← hk1, hk]) (by rw [← hm0, ← hm1]; exact hm))
    · exact hall j w' hj hc' hp hk hm

/-- Notifying a key does not fail, and wakes all that wait for the key and no more than the
index. -/
theorem didApply (key : Key) (idx : Nat) : ∃ v', v.didApply key idx = some v' ∧ v'.Sound ∧
      (∀ (i : Nat) w', v'.waiters[i]? = some w' → ∃ w, v.waiters[i]? = some w ∧ Wakes key idx w w') ∧
      ∀ (i : Nat) w, v'.waiters[i]? = some w → w.closed = false → w.key = key → w.maxIndex ≤ idx → w.sent = 1 := by
  have hps : ∀ p ∈ (v.buckets (bucketIndex key)).progresses,
      ∃ (i : Nat) (w : Waiter), v.waiters[i]? = some w ∧ w.progress = p ∧ w.closed = false := by
    intro p hp
    obtain ⟨i, w, hi, hw, hc, -⟩ := h.listed _ p hp
    exact ⟨i, w, hi, hw, hc⟩
  obtain ⟨u, hu, hus, hsig, hall⟩ := h.foldlM_notify key idx _ hps
  refine ⟨u.clean (bucketIndex key), by rw [Waits.didApply, hu]; rfl, ?_, fun i w' hw' => hsig.before hw', ?_⟩
  · refine hus.withBuckets _ ?_ ?_
    · rw [forall_update_iff u.buckets (p := fun b x => x.progresses.Sublist (u.buckets b).progresses ∧
        x.pool.Sublist (u.buckets b).pool)]
      exact ⟨⟨filter_sublist, .refl _⟩, fun b _ => ⟨.refl _, .refl _⟩⟩
    intro i w hi hc hs
    have hmem := hus.waits i w hi hc hs
    rw [update_apply]
    split
    · rename_i hb
      refine mem_filter.mpr ⟨hb ▸ hmem, ?_⟩
      simp [hus.owns i w hi hc, Waiter.object, hs]
    · exact hmem
  · intro i w hi hc hk hm
    rcases Nat.eq_zero_or_pos w.sent with hs | hs
    · have hmem := hus.waits i w hi hc hs
      rw [hsig.buckets, hk] at hmem
      exact hall i w hi hc hmem hk hm
    · have hle := hus.sent i w hi
      omega

variable (hi : v.waiters[i]? = some w)
include hi

theorem put_eq (hc : w.closed = false) :
    ((v.put w.progress).map fun v => { v with waiters := v.waiters.modify i fun w => { w with left := true } }) =
      some (v.release i w) := by
  have hlt := (List.getElem?_eq_some_iff.mp hi).1
  rw [put, h.owns i w hi hc]
  simp [Waiter.object, close, hi, hc, release, modify_eq_set (getElem?_set_self hlt)]

theorem release_sound (hc : w.closed = false) : (v.release i w).Sound := by
  -- every other open registration is as it was
  have hopen : ∀ {j : Nat} {w' : Waiter}, (v.release i w).waiters[j]? = some w' →
      w'.closed = false → v.waiters[j]? = some w' ∧ w'.progress ≠ w.progress := by
    intro j w' hj hc'
    obtain ⟨hne, hj⟩ | ⟨rfl, rfl⟩ := (getElem_set_iff hi).mp hj
    · exact ⟨hj, fun he => hne (h.owner_unique hi hc hj hc' he)⟩
    · cases hc'
  have hlist (b p) : p ∈ ((v.release i w).buckets b).progresses ↔ p ∈ (v.buckets b).progresses ∧ p ≠ w.progress := by
    simp only [release, update_apply]
    split
    · rename_i hb
      subst hb
      rw [Nodup.mem_erase_iff (h.nodup _), and_comm]
    rename_i hb
    refine ⟨fun hp => ⟨hp, ?_⟩, fun hp => hp.1⟩
    rintro rfl
    obtain ⟨j, u, hj, hup, huc, hub⟩ := h.listed b _ hp
    obtain rfl := h.owner_unique hi hc hj huc hup
    cases hj.symm.trans hi
    exact hb hub.symm
  have hpool (b p) : p ∈ ((v.release i w).buckets b).pool ↔
      p ∈ (v.buckets b).pool ∨ (b = bucketIndex w.key ∧ p = w.progress) := by
    simp only [release, update_apply]
    split
    · rename_i hb
      subst hb
      simp
    · rename_i hb
      simp [hb]
  have hunpooled : ∀ b, w.progress ∉ (v.buckets b).pool := by
    intro b hp
    have := (h.pooled b _ hp).2 i w hi rfl
    simp [hc] at this
  refine ⟨?_, ?_, ?_, ?_, ?_, ?_, ?_, ?_, ?_, ?_⟩
  · exact forall_set (h.sent i w hi) h.sent
  · exact forall_set (fun hleft => by cases hleft) h.left
  · exact forall_set (h.unbuffered i w hi) h.unbuffered
  · intro j w' hj hc'
    obtain ⟨hj, hne⟩ := hopen hj hc'
    rw [release, getElem?_set_ne hne.symm]
    exact h.owns j w' hj hc'
  · intro j w' hj hc' hs
    obtain ⟨hj, hne⟩ := hopen hj hc'
    exact (hlist _ _).mpr ⟨h.waits j w' hj hc' hs, hne⟩
  · intro b p hp
    obtain ⟨hp, hne⟩ := (hlist b p).mp hp
    obtain ⟨j, u, hj, hup, hu⟩ := h.listed b p hp
    refine ⟨j, u, (getElem_set_iff hi).mpr (.inl ⟨?_, hj⟩), hup, hu⟩
    rintro rfl
    cases hj.symm.trans hi
    exact hne hup.symm
  · intro b
    simp only [release, update_apply]
    split
    · exact Nodup.erase _ (h.nodup _)
    · exact h.nodup b
  · intro b p hp
    have hlen : (v.release i w).heap.length = v.heap.length := length_set
    rw [hlen]
    rcases (hpool b p).mp hp with hp | ⟨-, rfl⟩
    · obtain ⟨hlt, hcl⟩ := h.pooled b p hp
      exact ⟨hlt, forall_set (fun _ => rfl) hcl⟩
    · refine ⟨h.progress_lt hi hc, fun j w' hj hw' => ?_⟩
      cases hc' : w'.closed with
      | true => rfl
      | false => exact absurd hw' (hopen hj hc').2
  · intro b
    simp only [release, update_apply]
    split
    · rw [← concat_eq_append]
      exact Nodup.concat (hunpooled _) (h.pools _)
    · exact h.pools b
  · intro b b' p hp hp'
    rcases (hpool b p).mp hp with hp | ⟨hb, rfl⟩ <;> rcases (hpool b' _).mp hp' with hp' | ⟨hb', he⟩
    · exact h.apart b b' p hp hp'
    · exact absurd (he ▸ hp) (hunpooled b)
    · exact absurd hp' (hunpooled b')
    · rw [hb, hb']

theorem touch (hobj : w'.object = w.object) (hp : w'.progress = w.progress) (hs : w'.sent = w.sent)
    (hc : w'.closed = w.closed)
    (hl : w'.left = false → w.left = false) (hb : w'.buffered → w.buffered) :
      { v with waiters := v.waiters.set i w' }.Sound := by
  refine h.replace hi rfl hp (congrArg Progress.key (congrFun hobj 0)) hc (hs ▸ h.sent i w hi) hl
    (fun hzero => ⟨hs ▸ hzero, hb⟩) (forall_set (fun hu => ?_) h.owns)
  rw [hp, hobj]
  exact h.owns i w hi (hc ▸ hu)

end Sound
end Waits
namespace ApplyWaits
open Waits

variable {s t : ApplyWaits}

abbrev Reached : ApplyWaits → Prop :=
  Reach (fun s => ∃ published, s = { published := published }) step fun _ _ => True

/-- Signals are given for published indexes only, and what was notified wakes all that it
concerns. -/
structure Sound (s : ApplyWaits) : Prop where
  waits : s.waits.Sound
  early : ∀ (i : Nat) w, s.waits.waiters[i]? = some w → w.sent = 1 → w.maxIndex ≤ s.published w.key
  lost : ∀ (i : Nat) w, s.waits.waiters[i]? = some w → w.closed = false → w.maxIndex ≤ s.notified w.key → w.sent = 1
  notified : ∀ key, s.notified key ≤ s.published key
  owed : ∀ o ∈ s.owed, o.2 ≤ s.published o.1

theorem start_sound (published : Key → Nat) : ({ published := published } : ApplyWaits).Sound where
  waits := by constructor <;> simp
  early := by simp
  lost := by simp
  notified _ := Nat.zero_le _
  owed := by simp

section
variable (h : s.Sound)
include h

theorem Sound.touch {w w' : Waiter} (hi : s.waits.waiters[i]? = some w)
    {v : Waits} (hv : v.Sound) (hset : v.waiters = s.waits.waiters.set i w') (hk : w'.key = w.key)
    (hm : w'.maxIndex = w.maxIndex) (hs : w'.sent = w.sent)
    (hc : w'.closed = false → w.closed = false) : { s with waits := v }.Sound := by
  refine ⟨hv, ?_, ?_, h.notified, h.owed⟩
  · rw [hset]
    refine forall_set (fun hu => ?_) h.early
    rw [hk, hm]
    exact h.early i w hi (hs ▸ hu)
  · rw [hset]
    exact forall_set (fun huc hu => hs.trans (h.lost i w hi (hc huc) (by rwa [← hk, ← hm]))) h.lost

theorem Sound.waitApply
    (hr : ∀ k ∈ reuse, k < (s.waits.buckets (bucketIndex key)).pool.length) :
    ∃ v, s.waits.waitApply key m (s.published key) reuse = some v ∧ { s with waits := v }.Sound := by
  obtain ⟨r, hget, hrs, hfree, hsame⟩ := h.waits.getProgress hr
  refine ⟨r.1.enlist key m r.2 (decide (m ≤ s.published key)), by rw [waitApply_eq, hget]; rfl,
    hrs.enlist hfree _ _ _, ?_, ?_, h.notified, h.owed⟩
  · refine forall_enlist (fun hs => ?_) (hsame ▸ h.early)
    by_contra hlt
    simp [show ¬ m ≤ s.published key from hlt] at hs
  · refine forall_enlist (fun _ hm => ?_) (hsame ▸ h.lost)
    have hle : m ≤ s.published key := Nat.le_trans hm (h.notified key)
    simp [hle]

theorem Sound.publish {applied : Nat} (hge : s.published key ≤ applied) :
    { s with published := update s.published key applied, owed := some (key, applied) }.Sound := by
  have hmono : ∀ k, s.published k ≤ update s.published key applied k := by
    rw [forall_update_iff]
    exact ⟨hge, fun _ _ => Nat.le_refl _⟩
  refine ⟨h.waits, fun i w hi hs => ?_, h.lost, fun k => ?_, ?_⟩
  · exact Nat.le_trans (h.early i w hi hs) (hmono _)
  · exact Nat.le_trans (h.notified k) (hmono k)
  · rintro o ⟨⟩
    exact Nat.le_of_eq (update_self key applied s.published).symm

theorem Sound.didApply {idx : Nat} (hpub : idx ≤ s.published key) : ∃ v, s.waits.didApply key idx = some v ∧
      { s with waits := v, notified := update s.notified key idx, owed := none }.Sound := by
  obtain ⟨v, hv, hvs, hback, hall⟩ := h.waits.didApply key idx
  refine ⟨v, hv, hvs, ?_, ?_, ?_, by simp⟩
  · intro i w' hw' hs
    obtain ⟨w, hw, rfl | ⟨rfl, hm, rfl⟩⟩ := hback i w' hw'
    · exact h.early i w' hw hs
    · exact Nat.le_trans hm hpub
  · intro i w' hw' hc hm
    dsimp only at hm
    by_cases hk : w'.key = key
    · refine hall i w' hw' hc hk ?_
      rwa [hk, update_self] at hm
    · rw [update_of_ne hk] at hm
      obtain ⟨w, hw, hwakes⟩ := hback i w' hw'
      obtain ⟨hkw, hmw, -, hcw⟩ := hwakes.kept
      exact hwakes.sent (h.lost i w hw (hcw ▸ hc) (by rwa [← hkw, ← hmw]))
  · rw [forall_update_iff s.notified (p := fun k x => x ≤ s.published k)]
    exact ⟨hpub, fun k _ => h.notified k⟩

theorem Sound.perform {a : Action} (ha : s.Enabled a) : ∃ t, s.perform a = some t ∧ t.Sound := by
  cases a with
  | waitApply key m reuse =>
    obtain ⟨v, hv, hsound⟩ := h.waitApply ha
    exact ⟨_, by rw [ApplyWaits.perform, hv]; rfl, hsound⟩
  | stepApplyResp key index =>
    refine ⟨_, rfl, h.publish ?_⟩
    split <;> omega
  | didApply =>
    obtain ⟨⟨key, idx⟩, ho⟩ := ne_none_iff_exists'.mp ha
    obtain ⟨v, hv, hsound⟩ := h.didApply (h.owed _ ho)
    exact ⟨_, by rw [ApplyWaits.perform, ho, bind_some, hv]; rfl, hsound⟩
  | receive i =>
    obtain ⟨w, hi, -, -⟩ := ha
    exact ⟨_, rfl, h.touch hi (by rw [modify_eq_set hi]; exact h.waits.touch hi rfl rfl rfl rfl id nofun)
      (modify_eq_set hi _) rfl rfl rfl id⟩
  | put i =>
    obtain ⟨w, hi, hl⟩ := ha
    have hc := h.waits.left i w hi hl
    obtain ⟨v, hv, hrel⟩ := map_eq_some_iff.mp (h.waits.put_eq hi hc)
    refine ⟨{ s with waits := s.waits.release i w }, ?_,
      h.touch hi (h.waits.release_sound hi hc) rfl rfl rfl rfl nofun⟩
    rw [ApplyWaits.perform, hi, bind_some, hv, ← hrel]
    rfl
  | leave i =>
    obtain ⟨w, hi, -⟩ := ha
    exact ⟨_, rfl, h.touch hi (by rw [modify_eq_set hi]; exact h.waits.touch hi rfl rfl rfl rfl nofun id)
      (modify_eq_set hi _) rfl rfl rfl id⟩

end

theorem sound (h : Reached s) : s.Sound := by
  refine h.invariant Sound ?_ ?_
  · rintro _ ⟨published, rfl⟩
    exact start_sound published
  intro s a t hs _ hst
  rw [step] at hst
  split at hst
  · rename_i ha
    obtain ⟨t', ht', hsound⟩ := hs.perform ha
    cases ht'.symm.trans hst
    exact hsound
  · cases hst

/-- In every interleaving a registration is signalled at most once and only when its index is
published, a registration that has not been put back is signalled once its key was notified of its
index, and no send, close or notification fails. -/
theorem wakeups_exact (h : Reached s) :
    (∀ w ∈ s.waits.waiters, w.sent ≤ 1 ∧ (w.sent = 1 → w.maxIndex ≤ s.published w.key) ∧
      (w.closed = false → w.maxIndex ≤ s.notified w.key → w.sent = 1)) ∧
    ∀ a, s.Enabled a → (s.perform a).isSome := by
  have hs := sound h
  refine ⟨fun w hw => ?_, fun a ha => ?_⟩
  · obtain ⟨i, hi⟩ := mem_iff_getElem?.mp hw
    exact ⟨hs.waits.sent i w hi, hs.early i w hi, hs.lost i w hi⟩
  · obtain ⟨t, ht, -⟩ := hs.perform ha
    rw [ht]
    rfl

/-- Two keys: a notification wakes the first registration and not the second, and a third one, with
the object of the first, is signalled at once. -/
theorem wakeups_exact_reused : ∃ s : ApplyWaits, s.waits.waiters.map (·.sent) = [1, 0, 1] ∧ s.notified [1] = 4 ∧
    (∀ w ∈ s.waits.waiters, w.sent ≤ 1 ∧ (w.sent = 1 → w.maxIndex ≤ s.published w.key) ∧
      (w.closed = false → w.maxIndex ≤ s.notified w.key → w.sent = 1)) ∧
    ∀ a, s.Enabled a → (s.perform a).isSome := by
  have hr : Reached { published := fun _ => 2 } := .init ⟨_, rfl⟩
  obtain ⟨s, hs, hp⟩ := hr.exists_of_run
    [.waitApply [1] 3 none, .waitApply [2] 3 none, .stepApplyResp [1] 4, .didApply, .receive 0,
      .put 0, .waitApply [1] 4 (some 0)]
    (fun s => s.waits.waiters.map (·.sent) = [1, 0, 1] ∧ s.notified [1] = 4) (by decide +kernel)
  exact ⟨s, hp.1, hp.2, wakeups_exact hs⟩

end ApplyWaits
end WuKongIM.RaftGroup

import Mathlib.Algebra.BigOperators.Group.List.Basic
import Mathlib.Algebra.GroupWithZero.Nat
import Mathlib.Data.List.Nodup

/-! Jobs are given out one after the other to holders whose load does not exceed a limit. The
holders are looked through in any order, and the first one with room takes the job. -/
namespace WuKongIM.Lib
open List
variable {α κ : Type} [DecidableEq κ]

variable (limit : ℕ) (allowed : κ → Bool)

def takes (e : κ × ℕ) : Bool := allowed e.1 && decide (e.2 ≤ limit)

def room (loads : List (κ × ℕ)) : ℕ := (loads.map fun e => if allowed e.1 then limit + 1 - e.2 else 0).sum

def bump (loads : List (κ × ℕ)) (k : κ) : List (κ × ℕ) := loads.map fun e => if e.1 = k then (e.1, e.2 + 1) else e

variable {limit : ℕ} {allowed : κ → Bool} {loads : List (κ × ℕ)} {e : κ × ℕ} {good : α → κ → Prop}

theorem keys_bump (loads : List (κ × ℕ)) (k : κ) : (bump loads k).map Prod.fst = loads.map Prod.fst := by
  rw [bump, map_map]
  refine map_congr_left fun e _ => ?_
  dsimp only [Function.comp_apply]
  split <;> rfl

omit [DecidableEq κ] in
theorem room_cons (e : κ × ℕ) (loads : List (κ × ℕ)) : room limit allowed
    (e :: loads) = (if allowed e.1 then limit + 1 - e.2 else 0) + room limit allowed loads := by
  rw [room, map_cons, sum_cons, room]

omit [DecidableEq κ] in
theorem room_eq_zero : room limit allowed loads = 0 ↔ ∀ e ∈ loads, takes limit allowed e = false := by
  induction loads with
  | nil => simp [room]
  | cons e loads ih =>
    have hhead : (if allowed e.1 then limit + 1 - e.2 else 0) = 0 ↔ takes limit allowed e = false := by
      cases h : allowed e.1 with
      | false => simp [takes, h]
      | true =>
        simp only [takes, h, if_true, Bool.true_and, decide_eq_false_iff_not]
        omega
    rw [room_cons, Nat.add_eq_zero_iff, hhead, ih, forall_mem_cons]

theorem bump_of_not_mem {k : κ} (h : k ∉ loads.map Prod.fst) : bump loads k = loads := by
  refine (map_congr_left fun e he => if_neg fun heq => h ?_).trans (map_id loads)
  exact heq ▸ mem_map_of_mem he

theorem room_bump (hnodup : (loads.map Prod.fst).Nodup) (he : e ∈ loads) (htakes : takes limit allowed e) :
    room limit allowed (bump loads e.1) + 1 = room limit allowed loads := by
  induction loads with
  | nil => cases he
  | cons first loads ih =>
    rw [map_cons, nodup_cons] at hnodup
    rcases mem_cons.mp he with rfl | he
    · have hrest : bump (e :: loads) e.1 = (e.1, e.2 + 1) :: loads := by
        have hsame := bump_of_not_mem hnodup.1
        rw [bump] at hsame ⊢
        rw [map_cons, if_pos rfl, hsame]
      obtain ⟨hallowed, hle⟩ := Bool.and_eq_true_iff.mp htakes
      have hle := of_decide_eq_true hle
      rw [hrest, room_cons, room_cons, if_pos hallowed, if_pos hallowed]
      omega
    · have hne : first.1 ≠ e.1 := fun heq => hnodup.1 (heq ▸ mem_map_of_mem he)
      have hrest : bump (first :: loads) e.1 = first :: bump loads e.1 := by
        rw [bump, map_cons, if_neg hne, bump]
      rw [hrest, room_cons, room_cons, ← ih hnodup.2 he]
      omega

theorem takes_of_takes_bump {k : κ} {e' : κ × ℕ} (he' : e' ∈ bump loads k)
    (htakes : takes limit allowed e') : ∃ e ∈ loads, e.1 = e'.1 ∧ takes limit allowed e := by
  obtain ⟨e, he, rfl⟩ := mem_map.mp he'
  by_cases hk : e.1 = k
  · rw [if_pos hk] at htakes ⊢
    obtain ⟨hallowed, hle⟩ := Bool.and_eq_true_iff.mp htakes
    exact ⟨e, he, rfl, Bool.and_eq_true_iff.mpr ⟨hallowed, decide_eq_true (Nat.le_of_succ_le (of_decide_eq_true hle))⟩⟩
  · rw [if_neg hk] at htakes ⊢
    exact ⟨e, he, rfl, htakes⟩

/-- The orders in which the holders are looked through, one for each job. -/
structure Orders (α κ : Type) where
  walk : α → List (κ × ℕ) → List (κ × ℕ)
  perm : ∀ job loads, (walk job loads).Perm loads

def allot (limit : ℕ) (allowed : κ → Bool) (o : Orders α κ) : List α → List (κ × ℕ) → List (α × Option κ)
  | [], _ => []
  | job :: jobs, loads =>
    match (o.walk job loads).find? (takes limit allowed) with
    | some e => (job, some e.1) :: allot limit allowed o jobs (bump loads e.1)
    | none => (job, none) :: allot limit allowed o jobs loads

theorem jobs_allot (o : Orders α κ) (jobs : List α) (loads : List (κ × ℕ)) :
    (allot limit allowed o jobs loads).map Prod.fst = jobs := by
  induction jobs generalizing loads with
  | nil => rfl
  | cons job jobs ih =>
    rw [allot]
    split
    all_goals rw [map_cons, ih]

omit [DecidableEq κ] in
theorem exists_takes_of_room (h : 0 < room limit allowed loads) : ∃ e ∈ loads, takes limit allowed e = true := by
  by_contra hnone
  refine Nat.ne_of_gt h (room_eq_zero.mpr fun e he => ?_)
  exact Bool.eq_false_iff.mpr fun htakes => hnone ⟨e, he, htakes⟩

omit [DecidableEq κ] in
theorem find?_takes (o : Orders α κ) (job : α) (h : (o.walk job loads).find? (takes limit allowed) = some e) :
    e ∈ loads ∧ takes limit allowed e = true :=
  ⟨(o.perm job loads).subset (mem_of_find?_eq_some h), find?_some h⟩

omit [DecidableEq κ] in
theorem find?_takes_eq_none (o : Orders α κ) (job : α) :
    (o.walk job loads).find? (takes limit allowed) = none ↔ room limit allowed loads = 0 := by
  rw [find?_eq_none, room_eq_zero]
  constructor
  · intro h e he
    exact Bool.eq_false_iff.mpr (h e ((o.perm job loads).symm.subset he))
  · intro h e he
    exact Bool.eq_false_iff.mp (h e ((o.perm job loads).subset he))

def Served (good : α → κ → Prop) (given : List (α × Option κ)) : Prop := ∀ p ∈ given, ∃ k, p.2 = some k ∧ good p.1 k

/-- There is room for all jobs, and every holder with room is good for each of them. -/
structure Servable (limit : ℕ) (allowed : κ → Bool) (good : α → κ → Prop) (jobs : List α) (loads : List (κ × ℕ)) : Prop where
  room : jobs.length ≤ room limit allowed loads
  good : ∀ job ∈ jobs, ∀ e ∈ loads, takes limit allowed e = true → good job e.1

variable {job : α} {jobs : List α}

theorem Servable.tail_bump (hnodup : (loads.map Prod.fst).Nodup)
    (h : Servable limit allowed good (job :: jobs) loads) (he : e ∈ loads)
    (htakes : takes limit allowed e) : Servable limit allowed good jobs (bump loads e.1) where
  room := by
    have hroom := h.room
    have hbump := room_bump hnodup he htakes
    rw [length_cons] at hroom
    omega
  good next hnext e' he' htakes' := by
    obtain ⟨e, he, hkey, htakes⟩ := takes_of_takes_bump he' htakes'
    exact hkey ▸ h.good next (mem_cons_of_mem _ hnext) e he htakes

theorem served_of_servable (o : Orders α κ) (hnodup : (loads.map Prod.fst).Nodup)
    (h : Servable limit allowed good jobs loads) : Served good (allot limit allowed o jobs loads) := by
  induction jobs generalizing loads with
  | nil => exact nofun
  | cons job jobs ih =>
    intro p hp
    rw [allot] at hp
    split at hp
    · next e hfind =>
      obtain ⟨he, htakes⟩ := find?_takes o job hfind
      rcases mem_cons.mp hp with rfl | hp
      · exact ⟨e.1, rfl, h.good job mem_cons_self e he htakes⟩
      · exact ih ((keys_bump loads e.1).symm ▸ hnodup) (h.tail_bump hnodup he htakes) p hp
    · next hfind =>
      have hzero := (find?_takes_eq_none o job).mp hfind
      have hroom := h.room
      rw [hzero] at hroom
      cases hroom

variable [DecidableEq α]

/-- The same orders, but one job is offered to one holder first. -/
def Orders.prefer (o : Orders α κ) (job : α) (e : κ × ℕ) : Orders α κ where
  walk job' loads := if job' = job ∧ e ∈ loads then e :: loads.erase e else o.walk job' loads
  perm job' loads := by
    split
    · next h => exact (perm_cons_erase h.2).symm
    · exact o.perm job' loads

theorem allot_prefer_of_not_mem (o : Orders α κ) (e : κ × ℕ) (hjob : job ∉ jobs) (loads : List (κ × ℕ)) :
    allot limit allowed (o.prefer job e) jobs loads = allot limit allowed o jobs loads := by
  induction jobs generalizing loads with
  | nil => rfl
  | cons next jobs ih =>
    obtain ⟨hne, hrest⟩ := not_or.mp (mt mem_cons.mpr hjob)
    have hwalk : (o.prefer job e).walk next loads = o.walk next loads := if_neg fun h => hne h.1.symm
    rw [allot, allot, hwalk]
    split
    all_goals rw [ih hrest]

theorem allot_prefer (o : Orders α κ) (hjob : job ∉ jobs) (he : e ∈ loads)
    (htakes : takes limit allowed e) : allot limit allowed (o.prefer job e) (job :: jobs) loads =
      (job, some e.1) :: allot limit allowed o jobs (bump loads e.1) := by
  have hwalk : (o.prefer job e).walk job loads = e :: loads.erase e := if_pos ⟨rfl, he⟩
  rw [allot, hwalk, find?_cons_of_pos htakes]
  dsimp only
  rw [allot_prefer_of_not_mem o e hjob]

/-- In some order the job goes to any holder with room, and in some order that holder still has room
for a later job. -/
theorem servable_of_served (hjobs : jobs.Nodup) (hnodup : (loads.map Prod.fst).Nodup)
    (h : ∀ o, Served good (allot limit allowed o jobs loads)) : Servable limit allowed good jobs loads := by
  induction jobs generalizing loads with
  | nil => exact ⟨Nat.zero_le _, nofun⟩
  | cons job jobs ih =>
    obtain ⟨hjob, hjobs⟩ := nodup_cons.mp hjobs
    let given : Orders α κ := ⟨fun _ loads => loads, fun _ loads => .refl loads⟩
    have hroom : 0 < room limit allowed loads := by
      refine Nat.pos_of_ne_zero fun hzero => ?_
      have hserved := h given
      rw [allot, (find?_takes_eq_none given job).mpr hzero] at hserved
      obtain ⟨k, hk, -⟩ := hserved (job, none) mem_cons_self
      cases hk
    have hfirst {e : κ × ℕ} (he : e ∈ loads) (htakes : takes limit allowed e) (o : Orders α κ) :
        Served good ((job, some e.1) :: allot limit allowed o jobs (bump loads e.1)) :=
      allot_prefer o hjob he htakes ▸ h (o.prefer job e)
    have hrest {e : κ × ℕ} (he : e ∈ loads) (htakes : takes limit allowed e) :
        Servable limit allowed good jobs (bump loads e.1) :=
      ih hjobs ((keys_bump loads e.1).symm ▸ hnodup) fun o p hp => hfirst he htakes o p (mem_cons_of_mem _ hp)
    constructor
    · obtain ⟨e, he, htakes⟩ := exists_takes_of_room hroom
      have hlen := (hrest he htakes).room
      have hbump := room_bump hnodup he htakes
      rw [length_cons]
      omega
    · intro next hnext e he htakes
      rcases mem_cons.mp hnext with rfl | hnext
      · obtain ⟨k, hk, hgood⟩ := hfirst he htakes given (next, some e.1) mem_cons_self
        cases hk
        exact hgood
      by_cases hother : ∃ e' ∈ loads, takes limit allowed e' ∧ e'.1 ≠ e.1
      · -- the first job goes to another holder
        obtain ⟨e', he', htakes', hne⟩ := hother
        have hstill : e ∈ bump loads e'.1 := mem_map.mpr ⟨e, he, if_neg (Ne.symm hne)⟩
        exact (hrest he' htakes').good next hnext e hstill htakes
      · -- it is the only one with room, and keeps some of it
        have hlen := (hrest he htakes).room
        obtain ⟨e', he', htakes'⟩ := exists_takes_of_room (Nat.lt_of_lt_of_le (length_pos_of_mem hnext) hlen)
        obtain ⟨e'', he'', hkey, htakes''⟩ := takes_of_takes_bump he' htakes'
        have hsame : e''.1 = e.1 := by
          by_contra hne
          exact hother ⟨e'', he'', htakes'', hne⟩
        exact hsame ▸ hkey ▸ (hrest he htakes).good next hnext e' he' htakes'

end WuKongIM.Lib

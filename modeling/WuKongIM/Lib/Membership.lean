import Mathlib.Data.List.Nodup

/-! The members of a replicated group: replicas, one of which leads, and learners, which become
replicas. -/
namespace WuKongIM.Lib
open List
variable {ν μ : Type}

structure Membership (ν : Type) where
  leader : ν
  replicas : List ν
  learners : List ν
  migrateFrom : ν
  migrateTo : ν

namespace Membership

/-- A learner is there only for a move. A group may also move to a replica, which needs no learner,
unless that is excluded. -/
structure WellFormed (nobody : ν) (strict : Prop) (m : Membership ν) : Prop where
  leader : m.leader ∈ m.replicas
  replicas : m.replicas.Nodup
  learners : m.learners.Nodup
  disjoint : m.replicas.Disjoint m.learners
  target : m.learners = [] ∨ m.migrateTo ≠ nobody ∧ m.learners = [m.migrateTo]
  moving : strict → m.migrateTo ≠ nobody → m.learners = [m.migrateTo]

variable {nobody : ν} {strict : Prop} {m : Membership ν} {l : ν} {f : ν → μ}

/-- Without learners, and without a move if moves need them, only the replicas count. -/
theorem wellFormed_iff_of_learners (hlearners : m.learners = []) : m.WellFormed nobody strict ↔
    m.leader ∈ m.replicas ∧ m.replicas.Nodup ∧ (strict → m.migrateTo = nobody) := by
  constructor
  · intro h
    refine ⟨h.leader, h.replicas, fun hstrict => ?_⟩
    by_contra hmoving
    have hone := h.moving hstrict hmoving
    rw [hlearners] at hone
    cases hone
  · rintro ⟨hleader, hreplicas, hidle⟩
    refine ⟨hleader, hreplicas, hlearners ▸ .nil, ?_, .inl hlearners, fun hstrict hmoving => absurd (hidle hstrict) hmoving⟩
    rw [hlearners]
    exact fun _ _ => not_mem_nil

def map (f : ν → μ) (m : Membership ν) : Membership μ where
  leader := f m.leader
  replicas := m.replicas.map f
  learners := m.learners.map f
  migrateFrom := f m.migrateFrom
  migrateTo := f m.migrateTo

theorem map_map_of_leftInverse {g : μ → ν} (h : Function.LeftInverse g f) (m : Membership ν) : (m.map f).map g = m := by
  simp [map, h.comp_eq_id, h _]

def lead (m : Membership ν) (l : ν) : Membership ν := { m with leader := l }

theorem wellFormed_lead_iff (hleader : m.leader ∈ m.replicas) (hl : l ∈ m.replicas) :
    (m.lead l).WellFormed nobody strict ↔ m.WellFormed nobody strict :=
  ⟨fun h => { h with leader := hleader }, fun h => { h with leader := hl }⟩

section
variable [DecidableEq ν]

/-- The member to which the group moves takes the place of the one it comes from. -/
def promote (nobody : ν) (m : Membership ν) : Membership ν where
  leader := if m.migrateFrom = m.leader then m.migrateTo else m.leader
  replicas :=
    let replicas := if m.migrateTo ∈ m.replicas then m.replicas else m.replicas ++ [m.migrateTo]
    if m.migrateFrom ≠ m.migrateTo then replicas.erase m.migrateFrom else replicas
  learners := m.learners.erase m.migrateTo
  migrateFrom := nobody
  migrateTo := nobody

theorem promote_map [DecidableEq μ] (hf : f.Injective) (nobody : ν) (m : Membership ν) :
    (m.map f).promote (f nobody) = (m.promote nobody).map f := by
  have hmem : f m.migrateTo ∈ m.replicas.map f ↔ m.migrateTo ∈ m.replicas := mem_map_of_injective hf
  simp only [promote, map, mk.injEq, hf.eq_iff, hf.ne_iff, hmem, and_true]
  refine ⟨?_, ?_, (map_erase hf m.learners).symm⟩
  · split <;> rfl
  · by_cases hin : m.migrateTo ∈ m.replicas <;> by_cases hmoves : m.migrateFrom = m.migrateTo <;>
      simp [hin, hmoves, map_erase hf]

end

variable (h : m.WellFormed nobody strict)
include h

theorem WellFormed.learners_of_idle (hidle : m.migrateTo = nobody) : m.learners = [] :=
  h.target.resolve_right fun hmoving => hmoving.1 hidle

def enlist (m : Membership ν) (source target : ν) : Membership ν :=
  { m with migrateFrom := source, migrateTo := target, learners := m.learners ++ [target] }

theorem WellFormed.enlist_iff (source target : ν) :
    (m.enlist source target).WellFormed nobody strict ↔ m.learners = [] ∧ target ∉ m.replicas ∧ target ≠ nobody := by
  constructor
  · intro h'
    rcases h'.target with hnone | ⟨hset, hone⟩
    · exact absurd (append_eq_nil_iff.mp hnone).2 (cons_ne_nil _ _)
    · have hlearners : m.learners ++ [target] = [] ++ [target] := hone
      refine ⟨append_cancel_right hlearners, fun hmem => ?_, hset⟩
      exact h'.disjoint hmem (mem_append_right _ mem_cons_self)
  · rintro ⟨hlearners, hnew, hset⟩
    have hone : (m.enlist source target).learners = [target] := by rw [enlist, hlearners, nil_append]
    refine ⟨h.leader, h.replicas, ?_, ?_, .inr ⟨hset, hone⟩, fun _ _ => hone⟩
    · rw [hone]
      exact nodup_singleton target
    · rw [hone]
      exact fun n hn hn' => hnew (mem_singleton.mp hn' ▸ hn)

def moveTo (m : Membership ν) (source target : ν) : Membership ν := { m with migrateFrom := source, migrateTo := target }

theorem WellFormed.moveTo_iff (hidle : m.migrateTo = nobody) {target : ν} (hset : target ≠ nobody)
    (source : ν) : (m.moveTo source target).WellFormed nobody strict ↔ ¬strict := by
  have hlearners : (m.moveTo source target).learners = [] := h.learners_of_idle hidle
  rw [wellFormed_iff_of_learners hlearners]
  exact ⟨fun h' hstrict => hset (h'.2.2 hstrict), fun hnot => ⟨h.leader, h.replicas, fun hstrict => absurd hstrict hnot⟩⟩

/-- A replica leads, and the move is over. -/
def settle (nobody : ν) (m : Membership ν) (l : ν) : Membership ν :=
  { m with leader := l, migrateFrom := nobody, migrateTo := nobody }

theorem WellFormed.settle_iff (hl : l ∈ m.replicas) :
    (m.settle nobody l).WellFormed nobody strict ↔ m.learners = [] := by
  constructor
  · intro h'
    exact h'.learners_of_idle rfl
  · intro hlearners
    exact (wellFormed_iff_of_learners (m := m.settle nobody l) hlearners).mpr ⟨hl, h.replicas, fun _ => rfl⟩

theorem WellFormed.promote [DecidableEq ν] : (m.promote nobody).WellFormed nobody strict := by
  have hlearners : (m.promote nobody).learners = [] := by
    rcases h.target with hnone | ⟨-, hone⟩
    · rw [Membership.promote, hnone, erase_nil]
    · rw [Membership.promote, hone, erase_cons_head]
  obtain ⟨replicas, hreplicas⟩ : ∃ replicas, replicas = if m.migrateTo ∈ m.replicas then m.replicas
    else m.replicas ++ [m.migrateTo] :=
    ⟨_, rfl⟩
  have htarget : m.migrateTo ∈ replicas := by
    rw [hreplicas]
    split
    · next hin => exact hin
    · simp
  have hleader : m.leader ∈ replicas := by
    rw [hreplicas]
    split
    · exact h.leader
    · exact mem_append_left _ h.leader
  have hnodup : replicas.Nodup := by
    rw [hreplicas]
    split
    · exact h.replicas
    · next hnew => exact concat_eq_append ▸ h.replicas.concat hnew
  rw [wellFormed_iff_of_learners hlearners]
  simp only [Membership.promote, ← hreplicas]
  refine ⟨?_, ?_, fun _ => trivial⟩
  · by_cases hmoves : m.migrateFrom = m.migrateTo
    · rw [if_neg (not_not.mpr hmoves)]
      split
      · exact htarget
      · exact hleader
    · rw [if_pos hmoves]
      split
      · exact (mem_erase_of_ne (Ne.symm hmoves)).mpr htarget
      · next hother => exact (mem_erase_of_ne (Ne.symm hother)).mpr hleader
  · split
    · exact hnodup.erase _
    · exact hnodup

end Membership
end WuKongIM.Lib

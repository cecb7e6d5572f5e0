import Mathlib.Algebra.Group.Nat.Defs
import WuKongIM.Lib.Upserts
import WuKongIM.Nodes.SlotElection

/-! What becomes of the slots that an election is held for. -/
namespace WuKongIM.Nodes
open Lib List Option

variable {v : ClusterView} {slots : List Slot}

theorem ids_foldlM_askForSlot {requests result : List (NodeId × List SlotId) × List SlotId}
    (h : slots.foldlM (askForSlot v) requests = some result) :
    result.2 = requests.2 ++ (slots.filter fun s => s.status = .candidate).map Slot.id := by
  induction slots generalizing requests with
  | nil =>
    cases h
    simp
  | cons slot slots ih =>
    obtain ⟨next, hnext, hrest⟩ := bind_eq_some_iff.mp h
    rw [ih hrest]
    rw [askForSlot] at hnext
    split at hnext
    · next hstatus =>
      cases hnext
      simp [hstatus]
    · next hstatus =>
      obtain ⟨asked, -, rfl⟩ := map_eq_some_iff.mp hnext
      simp [not_not.mp hstatus]

theorem slotLeaders_spec (v : ClusterView) (w : Walks) (respond : List (NodeId × List SlotId) → List SlotLogInfoResp)
    (slots : List Slot) : ((slotLeaders v w respond slots).map Prod.fst).Nodup ∧
      ∀ e ∈ slotLeaders v w respond slots, ∃ s ∈ slots, s.id = e.1 ∧ s.status = .candidate := by
  rw [slotLeaders]
  cases hrequests : electionRequests v slots with
  | none => exact ⟨.nil, nofun⟩
  | some requests =>
    obtain ⟨asked, ids⟩ := requests
    dsimp only
    split
    · exact ⟨.nil, nofun⟩
    split
    · exact ⟨.nil, nofun⟩
    refine ⟨nodup_setEntries _ .nil, fun e he => ?_⟩
    have hids : ids = [] ++ _ := ids_foldlM_askForSlot hrequests
    have hkey : e.1 ∈ ids := by
      have hmem := mem_keys_setEntries.mp (mem_map_of_mem he)
      simpa using hmem
    rw [hids] at hkey
    obtain ⟨s, hs, hid⟩ := mem_map.mp hkey
    obtain ⟨hmem, hstatus⟩ := mem_filter.mp hs
    exact ⟨s, hmem, hid, of_decide_eq_true hstatus⟩

theorem id_electedSlot (slot : Slot) (l : NodeId) : (electedSlot slot l).id = slot.id := by
  rw [electedSlot]
  split <;> rfl

variable {new : Slot} {elected : SlotId × NodeId}

theorem newSlot_eq_some (h : newSlot slots elected = some new) :
    ∃ slot, (slots.find? fun s => s.id = elected.1) = some slot ∧ elected.2 ≠ 0 ∧
      slot.leader ≠ elected.2 ∧ new = electedSlot slot elected.2 := by
  rw [newSlot] at h
  split at h
  · cases h
  rename_i hzero
  obtain ⟨slot, hslot, h⟩ := bind_eq_some_iff.mp h
  split at h
  · next hleader => exact ⟨slot, hslot, hzero, hleader, (some.inj h).symm⟩
  · cases h

theorem id_newSlot (h : newSlot slots elected = some new) : new.id = elected.1 := by
  obtain ⟨slot, hslot, -, -, rfl⟩ := newSlot_eq_some h
  rw [id_electedSlot]
  have hid := find?_some hslot
  exact of_decide_eq_true hid

def CandidacyEnded (s : Slot) (l : NodeId) (after : Config) : Prop :=
  ∃ s', after.slot s.id = some s' ∧ s'.status = .normal ∧ s'.leader = l ∧ s'.expectLeader = 0 ∧ s.term < s'.term

theorem electedSlot_fields (slot : Slot) (l : NodeId) :
    (electedSlot slot l).status = .normal ∧ (electedSlot slot l).leader = l ∧
      (electedSlot slot l).expectLeader = 0 ∧ (electedSlot slot l).term = slot.term + 1 := by
  rw [electedSlot]
  split <;> simp

theorem lt_add_one_iff (term : UInt32) : term < term + 1 ↔ term.toNat + 1 < 2 ^ 32 := by
  rw [UInt32.lt_iff_toNat_lt, UInt32.toNat_add]
  have hone : (1 : UInt32).toNat = 1 := rfl
  omega

variable (w : Walks) (respond : List (NodeId × List SlotId) → List SlotLogInfoResp)

theorem mem_election : new ∈ handleSlotElection v w respond slots ↔
    ∃ e ∈ slotLeaders v w respond slots, newSlot slots e = some new := by
  rw [handleSlotElection, mem_filterMap]
  exact exists_congr fun e => and_congr_left fun _ => (w.leaders_perm _).mem_iff

theorem unique_election (hnew : new ∈ handleSlotElection v w respond slots) :
    ∀ n ∈ handleSlotElection v w respond slots, n.id = new.id → n = new := by
  intro n hn hid
  obtain ⟨e, he, hnew⟩ := (mem_election w respond).mp hnew
  obtain ⟨e', he', hn⟩ := (mem_election w respond).mp hn
  have hkey : e'.1 = e.1 := (id_newSlot hn).symm.trans (hid.trans (id_newSlot hnew))
  have hsame : e' = e := inj_on_of_nodup_map (slotLeaders_spec v w respond slots).1 he' he hkey
  rw [hsame, hnew] at hn
  exact (some.inj hn).symm

/-- A slot that elects a leader leaves the election with it, exactly when the leader is not the one
it had before and its term does not run over; a slot that elects none is left as it is. -/
theorem slot_election_ends_candidacy (v : ClusterView) (w : Walks)
    (respond : List (NodeId × List SlotId) → List SlotLogInfoResp)
    (hids : (v.config.slots.map Slot.id).Nodup) (s : Slot) (hs : s ∈ v.config.slots) :
    (∀ l, (s.id, l) ∈ slotLeaders v w respond (electionSlots v.config) → l ≠ 0 →
      s.status = .candidate ∧
        (CandidacyEnded s l (v.config.updateSlots (handleSlotElection v w respond (electionSlots v.config))) ↔
          l ≠ s.leader ∧ s.term.toNat + 1 < 2 ^ 32)) ∧
    ((∀ l, (s.id, l) ∈ slotLeaders v w respond (electionSlots v.config) → l = 0) →
      (v.config.updateSlots (handleSlotElection v w respond (electionSlots v.config))).slot s.id = some s) := by
  have hslot : v.config.slot s.id = some s := find?_of_mem hids hs
  constructor
  · intro l helected hl
    obtain ⟨s', hs', hid, hstatus⟩ := (slotLeaders_spec v w respond _).2 _ helected
    obtain ⟨hmem, -⟩ := mem_filter.mp hs'
    obtain rfl : s' = s := inj_on_of_nodup_map hids hmem hs hid
    refine ⟨hstatus, ?_⟩
    have hfind : ((electionSlots v.config).find? fun s => s.id = s'.id) = some s' :=
      find?_of_mem ((filter_sublist.map _).nodup hids) hs'
    by_cases hleader : s'.leader = l
    · -- the old leader is elected again, and the slot is not proposed
      have hnot (n : Slot) (hn : n ∈ handleSlotElection v w respond (electionSlots v.config)) : n.id ≠ s'.id := by
        intro hid
        obtain ⟨e, he, hn⟩ := (mem_election w respond).mp hn
        have hkey : e.1 = s'.id := (id_newSlot hn).symm.trans hid
        have hsame : e = (s'.id, l) := inj_on_of_nodup_map (slotLeaders_spec v w respond _).1 he helected hkey
        subst hsame
        obtain ⟨slot, hslot, -, hne, -⟩ := newSlot_eq_some hn
        rw [hfind] at hslot
        exact hne (Option.some.inj hslot ▸ hleader)
      refine iff_of_false ?_ fun h => h.1 hleader.symm
      rintro ⟨after, hafter, hnormal, -⟩
      rw [Config.slot_of_not_mem hnot, hslot] at hafter
      cases hafter
      rw [hstatus] at hnormal
      cases hnormal
    · have hnew : electedSlot s' l ∈ handleSlotElection v w respond (electionSlots v.config) := by
        refine (mem_election w respond).mpr ⟨_, helected, ?_⟩
        rw [newSlot, if_neg hl, hfind, bind_some, if_pos hleader]
      have hafter := Config.slot_of_mem (c := v.config) hnew (unique_election w respond hnew)
      rw [id_electedSlot, hslot] at hafter
      obtain ⟨hnormal, hl', hexpect, hterm⟩ := electedSlot_fields s' l
      rw [and_iff_right (Ne.symm hleader), ← lt_add_one_iff, ← hterm]
      constructor
      · rintro ⟨after, h, -, -, -, hlt⟩
        rw [hafter] at h
        cases h
        exact hlt
      · intro hlt
        exact ⟨_, hafter, hnormal, hl', hexpect, hlt⟩
  · intro hnone
    rw [Config.slot_of_not_mem, hslot]
    intro n hn hid
    obtain ⟨e, he, hn⟩ := (mem_election w respond).mp hn
    have hkey : e = (s.id, e.2) := Prod.ext ((id_newSlot hn).symm.trans hid) rfl
    obtain ⟨slot, -, hne, -⟩ := newSlot_eq_some hn
    rw [hkey] at he
    exact hne (hnone _ he)

private def inOrder : Walks where
  first _ m := m
  second _ m := m
  leaders m := m
  first_perm _ := .refl
  second_perm _ := .refl
  leaders_perm := .refl

private def unled (leader : NodeId) : Slot where
  id := 7
  leader := leader
  term := 2
  replicas := [1, 2, 3]
  expectLeader := 2
  status := .candidate

private def threeOnline (slot : Slot) : ClusterView where
  config := { nodes := [⟨1, true, true, .joined⟩, ⟨2, true, true, .joined⟩, ⟨3, true, true, .joined⟩], slots := [slot] }
  nodeConfigVersion _ := 0
  slotMaxReplicaCount := 3

private def oneLeads (_ : List (NodeId × List SlotId)) : List SlotLogInfoResp :=
  [⟨1, [⟨⟨12, 2, 2⟩, 7⟩]⟩, ⟨2, [⟨⟨10, 2, 2⟩, 7⟩]⟩, ⟨3, [⟨⟨10, 2, 2⟩, 7⟩]⟩]

/-- The leader was away and is elected again; its slot stays a candidate. -/
theorem slot_election_ends_candidacy_fails :
    ¬∀ (v : ClusterView) (w : Walks) (respond : List (NodeId × List SlotId) → List SlotLogInfoResp) (s : Slot) (l : NodeId),
      (v.config.slots.map Slot.id).Nodup → s ∈ v.config.slots →
      (s.id, l) ∈ slotLeaders v w respond (electionSlots v.config) → l ≠ 0 →
      CandidacyEnded s l (v.config.updateSlots (handleSlotElection v w respond (electionSlots v.config))) := by
  intro h
  obtain ⟨after, hafter, hnormal, -⟩ := h (threeOnline (unled 1)) inOrder oneLeads (unled 1) 1 (by decide) (by decide)
    (by decide +kernel) (by decide)
  have hsame : ((threeOnline (unled 1)).config.updateSlots
      (handleSlotElection (threeOnline (unled 1)) inOrder oneLeads (electionSlots (threeOnline (unled 1)).config))).slot 7 =
        some (unled 1) := by decide +kernel
  cases hsame.symm.trans hafter
  cases hnormal

theorem slot_election_ends_candidacy_of_other :
    CandidacyEnded (unled 3) 1 ((threeOnline (unled 3)).config.updateSlots
      (handleSlotElection (threeOnline (unled 3)) inOrder oneLeads (electionSlots (threeOnline (unled 3)).config))) := by
  have h := slot_election_ends_candidacy (threeOnline (unled 3)) inOrder oneLeads (by decide) (unled 3) (by decide)
  exact (h.1 1 (by decide +kernel) (by decide)).2.mpr ⟨by decide, by decide⟩

end WuKongIM.Nodes

import WuKongIM.Lib.Upserts
import WuKongIM.Nodes.NodeJoining

/-! Which slots move to a node that joins, and what their commands do to the configuration. -/
namespace WuKongIM.Nodes
open Lib List

variable {c : Config}

variable {joiningId nodeId : NodeId} {slots news : List Slot} {slot : Slot}

/-- Different slots, each on its way to the node. -/
def Moving (joiningId : NodeId) (slots news : List Slot) : Prop :=
  (news.map Slot.id).Nodup ∧ ∀ new ∈ news, ∃ s ∈ slots, ∃ source, new = s.migrating source joiningId

theorem Moving.concat (h : Moving joiningId slots news) (hslot : slot ∈ slots)
    (hnew : slot.id ∉ news.map Slot.id) (source : NodeId) :
      Moving joiningId slots (news ++ [slot.migrating source joiningId]) := by
  constructor
  · rw [map_append, map_singleton, ← concat_eq_append]
    exact h.1.concat hnew
  · exact forall_mem_append.mpr ⟨h.2, forall_mem_singleton.mpr ⟨slot, hslot, source, rfl⟩⟩

theorem moving_giveSlot {g : Giving} (h : Moving joiningId slots g.migrateSlots) (hslot : slot ∈ slots) :
    Moving joiningId slots (giveSlot joiningId nodeId g slot).migrateSlots := by
  rw [giveSlot]
  split
  · exact h
  rename_i hnew
  split
  · exact h.concat hslot hnew slot.leader
  · split
    · exact h.concat hslot hnew nodeId
    · exact h

theorem moving_giveSlots (fromLeaders : List (NodeId × ℕ)) (nodes : List Node) (h : Moving joiningId slots news)
    (fromCounts : List (NodeId × ℕ)) : Moving joiningId slots (giveSlots joiningId slots fromLeaders nodes news fromCounts) := by
  induction nodes generalizing news fromCounts with
  | nil => exact h
  | cons node nodes ih =>
    rw [giveSlots]
    split
    · exact ih h fromCounts
    refine ih ?_ _
    have hfold (g : Giving) (hg : Moving joiningId slots g.migrateSlots) (rest : List Slot)
      (hrest : ∀ slot ∈ rest, slot ∈ slots) :
        Moving joiningId slots (rest.foldl (giveSlot joiningId node.id) g).migrateSlots := by
      induction rest generalizing g with
      | nil => exact hg
      | cons slot rest ih =>
        obtain ⟨hslot, hrest⟩ := forall_mem_cons.mp hrest
        exact ih _ (moving_giveSlot hg hslot) hrest
    exact hfold _ h slots fun _ => id

theorem moving_joiningSlots (hids : (c.slots.map Slot.id).Nodup) {firstSlot : Slot}
    (h : joiningSlots c joiningId firstSlot = some news) : Moving joiningId c.slots news := by
  rw [joiningSlots] at h
  split at h
  · cases h
    constructor
    · rw [map_map]
      exact hids
    · exact forall_mem_map.mpr fun s hs => ⟨s, hs, joiningId, rfl⟩
  split at h
  · cases h
  · cases h
    have hnone : Moving joiningId c.slots [] := ⟨.nil, nofun⟩
    exact moving_giveSlots _ _ hnone _

theorem joining_eq_some (hids : (c.slots.map Slot.id).Nodup)
    (h : handleNodeJoining c = some (joiningId, news)) : Moving joiningId c.slots news := by
  rw [handleNodeJoining] at h
  split at h
  · split at h
    · cases h
    · cases h
    · next hslots =>
      cases h
      exact moving_joiningSlots hids hslots
  · cases h

theorem ids_replaceSlot (slots : List Slot) (new : Slot) : (replaceSlot slots new).map Slot.id = slots.map Slot.id := by
  induction slots with
  | nil => rfl
  | cons s rest ih =>
    rw [replaceSlot]
    split
    · next hid => rw [map_cons, map_cons, hid]
    · rw [map_cons, map_cons, ih]

theorem slot_updateNodeJoined (nodeId : NodeId) {news : List Slot}
    (h : ∀ new ∈ news, new.id ∈ c.slots.map Slot.id) (id : SlotId) :
    (c.updateNodeJoined nodeId news).slot id = (c.updateSlots news).slot id := by
  have hgen (slots : List Slot) (hslots : slots.map Slot.id = c.slots.map Slot.id) :
      news.foldl replaceOrAddSlot slots = news.foldl replaceSlot slots := by
    induction news generalizing slots with
    | nil => rfl
    | cons new news ih =>
      have hreplace : replaceOrAddSlot slots new = replaceSlot slots new := if_pos (hslots ▸ h new mem_cons_self)
      rw [foldl_cons, hreplace]
      exact ih (fun new hnew => h new (mem_cons_of_mem _ hnew)) _ ((ids_replaceSlot slots new).trans hslots)
  rw [Config.slot, Config.slot, Config.updateNodeJoined, Config.updateSlots, hgen c.slots rfl]

theorem id_startMigrate (s : Slot) (fromNodeId toNodeId : NodeId) : (s.startMigrate fromNodeId toNodeId).id = s.id := by
  rw [Slot.startMigrate]
  split <;> rfl

theorem slot_updateSlotMigrate (hids : (c.slots.map Slot.id).Nodup) {s : Slot} (hs : s ∈ c.slots) (slotId : SlotId)
    (fromNodeId toNodeId : NodeId) : (c.updateSlotMigrate slotId fromNodeId toNodeId).slot s.id =
      some (if s.id = slotId ∧ s.migrateFrom = 0 ∧ s.migrateTo = 0 then s.startMigrate fromNodeId toNodeId else s) := by
  have hgen (slots : List Slot) (hids : (slots.map Slot.id).Nodup) (hs : s ∈ slots) :
      ((startMigrate slotId fromNodeId toNodeId slots).find? fun s' => s'.id = s.id) =
        some (if s.id = slotId ∧ s.migrateFrom = 0 ∧ s.migrateTo = 0 then s.startMigrate fromNodeId toNodeId else s) := by
    induction slots with
    | nil => cases hs
    | cons slot rest ih =>
      obtain ⟨hnew, hids⟩ := nodup_cons.mp hids
      rw [startMigrate]
      rcases mem_cons.mp hs with rfl | hs
      · split
        · exact find?_cons_of_pos (decide_eq_true (id_startMigrate s fromNodeId toNodeId))
        · exact find?_cons_of_pos (decide_eq_true rfl)
      have hother : slot.id ≠ s.id := fun hid => hnew (hid ▸ mem_map_of_mem hs)
      split
      · next h =>
        -- the slot with the number is an earlier one
        rw [if_neg fun h' => hother (h.1.trans h'.1.symm), find?_cons_of_neg]
        · exact find?_of_mem hids hs
        · simpa [id_startMigrate] using hother
      · rw [find?_cons_of_neg (by simpa using hother)]
        exact ih hids hs
  exact hgen c.slots hids hs

end WuKongIM.Nodes

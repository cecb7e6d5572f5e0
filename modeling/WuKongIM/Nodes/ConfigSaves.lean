import Mathlib.Data.List.Induction
import WuKongIM.Nodes.SlotElection
import WuKongIM.Raft.RoleChange

/-! How the configurations of slots and channels are given to raft and come back from it, and how a
channel gets more replicas. -/
namespace WuKongIM.Nodes

def slotToConfig (nodeId : NodeId) (st : Slot) : Raft.Config where
  migrateFrom := st.migrateFrom.toNat
  migrateTo := st.migrateTo.toNat
  replicas := st.replicas.map UInt64.toNat
  learners := st.learners.map UInt64.toNat
  term := st.term.toNat
  leader := st.leader.toNat
  role := if st.status = .candidate then .candidate else if nodeId ∈ st.learners then .learner
    else if st.leader = nodeId then .leader else .follower

def updateSlotByConfig (st : Slot) (cfg : Raft.Config) : Slot :=
  { st with
    leader := .ofNat cfg.leader
    term := .ofNat cfg.term
    replicas := cfg.replicas.map .ofNat
    learners := cfg.learners.map .ofNat
    migrateFrom := .ofNat cfg.migrateFrom
    migrateTo := .ofNat cfg.migrateTo }

/-- The slot as it is now gets the configuration of raft, which may be of an older slot. -/
def onSaveSlotConfig (c : Config) (slotId : SlotId) (cfg : Raft.Config) : Config :=
  match c.slot slotId with
  | none => c
  | some slot => c.updateSlots [updateSlotByConfig slot cfg]

def channelConfigToRaftConfig (nodeId : NodeId) (cfg : ChannelClusterConfig) : Raft.Config where
  migrateFrom := cfg.migrateFrom.toNat
  migrateTo := cfg.migrateTo.toNat
  replicas := cfg.replicas.map UInt64.toNat
  learners := cfg.learners.map UInt64.toNat
  term := cfg.term.toNat
  leader := cfg.leaderId.toNat
  role := if nodeId ∈ cfg.learners then .learner else if cfg.leaderId = nodeId then .leader else .follower
  version := cfg.confVersion.toNat

def updateChannelCfgByConfig (cfg : ChannelClusterConfig) (c : Raft.Config) : ChannelClusterConfig :=
  { cfg with
    leaderId := .ofNat c.leader
    term := .ofNat c.term
    replicas := c.replicas.map .ofNat
    learners := c.learners.map .ofNat
    migrateFrom := .ofNat c.migrateFrom
    migrateTo := .ofNat c.migrateTo }

/-- A configuration is saved with the index of its command in the log. -/
def ChannelClusterConfig.saved (cfg : ChannelClusterConfig) (logIndex : UInt64) :
    ChannelClusterConfig := { cfg with confVersion := logIndex }

/-- New replicas learn first, until there are enough; the move is to the last one. -/
def addLearners : List NodeId → ChannelClusterConfig → ChannelClusterConfig
  | [], cfg => cfg
  | newReplicaId :: newReplicaIds, cfg =>
    let cfg := { cfg with migrateFrom := newReplicaId, migrateTo := newReplicaId, learners := cfg.learners ++ [newReplicaId] }
    if cfg.learners.length + cfg.replicas.length ≥ cfg.replicaMaxCount.toNat then cfg else addLearners newReplicaIds cfg

variable (nodes : List NodeId)

def newReplicas (cfg : ChannelClusterConfig) : List NodeId := nodes.filter fun n => n ∉ cfg.replicas

variable (shuffle : List NodeId → List NodeId)

/-- `nodes` are the voting nodes that are online; without any of them there is an error, which
leaves the configuration. -/
def joinNewRepliceIfNeed (cfg : ChannelClusterConfig) : Option ChannelClusterConfig :=
  if cfg.replicas.length ≥ cfg.replicaMaxCount.toNat then none
  else if cfg.learners.length > 0 then none
  else if nodes.length = 0 then none
  else if cfg.replicas.length ≥ nodes.length then none
  else some (addLearners (shuffle (newReplicas nodes cfg)) cfg)

variable (online : NodeId → Bool) (respond : List NodeId → List Reply) (cfg : ChannelClusterConfig)

/-- What an election for the channel changes; an error changes nothing. -/
def switchedLeader : Option ChannelClusterConfig := (switchLeaderIfNeed online respond cfg).toOption.join

/-- `getOrCreateChannelClusterConfigFromLocal`, for a channel that has a configuration: what is to
be saved. -/
def refreshed : Option ChannelClusterConfig :=
  let grown := joinNewRepliceIfNeed nodes shuffle cfg
  let switched := switchedLeader online respond (grown.getD cfg)
  if grown.isSome || switched.isSome then some (switched.getD (grown.getD cfg)) else none

/-- `Slot.Equal`: the members are looked up in the other slot, in any order. -/
def Slot.equal (s v : Slot) : Bool :=
  s.id = v.id && s.replicas.length = v.replicas.length && s.learners.length = v.learners.length &&
    s.migrateFrom = v.migrateFrom && s.migrateTo = v.migrateTo && s.leader = v.leader && s.expectLeader = v.expectLeader &&
    s.term = v.term && s.status = v.status && s.replicas.all (· ∈ v.replicas) && s.learners.all (· ∈ v.learners)

/-- The raft of a slot on this node: the slot it was made with, and the configuration it was told
last. -/
structure SlotRaft where
  slot : Slot
  told : Raft.Config

section
open Function List
variable (nodeId : NodeId) (rafts : SlotId → Option SlotRaft)

def addOrUpdateSlotRaft (slot : Slot) : SlotId → Option SlotRaft :=
  update rafts slot.id <|
    if slot.leader = 0 then rafts slot.id
    else if nodeId ∉ slot.replicas ∧ nodeId ∉ slot.learners then none
    else match rafts slot.id with
      | none => some ⟨slot, slotToConfig nodeId slot⟩
      | some raft => some (if raft.slot.equal slot then raft else { raft with told := slotToConfig nodeId slot })

def onConfigChange (cfg : Config) : SlotId → Option SlotRaft :=
  cfg.slots.foldl (fun rafts slot => if slot.leader = 0 then rafts else addOrUpdateSlotRaft nodeId rafts slot) rafts

def raftsAfter (slots : List Slot) : SlotId → Option SlotRaft := slots.foldl (addOrUpdateSlotRaft nodeId) fun _ => none

/-- The versions of a slot that were delivered, one after the other. -/
def versions (cfgs : List Config) (id : SlotId) : List Slot :=
  (cfgs.flatMap (·.slots)).filter (·.id = id)

/-- The version that a raft made with `first` was told of last: the last one with a leader that
does not pass for `first`. -/
def toldVersion (first : Slot) (delivered : List Slot) : Slot :=
  (delivered.filter fun u => u.leader ≠ 0 && !first.equal u).getLastD first

variable {nodeId} {v : Slot} {id : SlotId}

private theorem foldl_onConfigChange (cfgs : List Config) :
    cfgs.foldl (onConfigChange nodeId) (fun _ => none) =
      raftsAfter nodeId (cfgs.flatMap (·.slots)) := by
  have hskip (rafts : SlotId → Option SlotRaft) (slot : Slot) :
      (if slot.leader = 0 then rafts else addOrUpdateSlotRaft nodeId rafts slot) =
        addOrUpdateSlotRaft nodeId rafts slot := by
    split
    · next h => rw [addOrUpdateSlotRaft, if_pos h, update_eq_self]
    · rfl
  rw [raftsAfter, foldl_flatMap]
  congr 1
  funext rafts cfg
  simp only [onConfigChange, hskip]

theorem Slot.equal_self (s : Slot) : s.equal s = true := by
  simp [equal]

private theorem toldVersion_snoc (first u : Slot) (delivered : List Slot) :
    toldVersion first (delivered ++ [u]) =
      if u.leader ≠ 0 ∧ first.equal u = false then u else toldVersion first delivered := by
  rw [toldVersion, filter_append]
  by_cases h : u.leader ≠ 0 ∧ first.equal u = false
  · rw [if_pos h, filter_cons_of_pos (by simpa using h), filter_nil, getLastD_concat]
  · rw [if_neg h, filter_cons_of_neg (by simpa using h), filter_nil, append_nil, toldVersion]

private theorem leader_toldVersion {first : Slot} (hfirst : first.leader ≠ 0)
    (delivered : List Slot) : (toldVersion first delivered).leader ≠ 0 := by
  rw [toldVersion, getLastD_eq_getLast?]
  cases h : (delivered.filter fun u => u.leader ≠ 0 && !first.equal u).getLast? with
  | none => exact hfirst
  | some u =>
    have := (mem_filter.mp (mem_of_getLast? h)).2
    simp_all

/-- The raft of a slot keeps the first version with a leader, and knows the last one that does not
pass for it. -/
theorem raftsAfter_eq (slots : List Slot)
    (hmember : ∀ u ∈ slots.filter (·.id = id), nodeId ∈ u.replicas ∨ nodeId ∈ u.learners) :
    raftsAfter nodeId slots id =
      ((slots.filter (·.id = id)).find? (·.leader ≠ 0)).map fun first =>
        ⟨first, slotToConfig nodeId (toldVersion first (slots.filter (·.id = id)))⟩ := by
  induction slots using reverseRecOn with
  | nil => rfl
  | append_singleton slots u ih =>
    rw [filter_append] at hmember ⊢
    have ih := ih fun w hw => hmember w (mem_append_left _ hw)
    rw [raftsAfter, foldl_concat, ← raftsAfter, addOrUpdateSlotRaft]
    by_cases hid : u.id = id
    · subst hid
      rw [filter_cons_of_pos (by simp), filter_nil] at hmember ⊢
      have hin := hmember u (mem_append_right _ (mem_singleton_self u))
      rw [update_self, ih, find?_append]
      by_cases hleader : u.leader = 0
      · rw [if_pos hleader]
        cases (slots.filter (·.id = u.id)).find? (·.leader ≠ 0) with
        | none => simp [hleader]
        | some first => simp [hleader, toldVersion_snoc]
      · rw [if_neg hleader, if_neg (by tauto)]
        cases hfirst : (slots.filter (·.id = u.id)).find? (·.leader ≠ 0) with
        | none =>
          have htold : toldVersion u (slots.filter (·.id = u.id)) = u := by
            rw [toldVersion, filter_eq_nil_iff.mpr (by simp_all), getLastD_nil]
          simp [hleader, toldVersion_snoc, u.equal_self, htold]
        | some first => cases heq : first.equal u <;> simp [toldVersion_snoc, hleader, heq]
    · rw [filter_cons_of_neg (by simpa using hid), filter_nil, append_nil,
        update_of_ne (Ne.symm hid), ih]

/-- The raft of a slot is told the latest version of it if that has a leader and, where it passes
for the version that the raft was made with, what was told last comes to the same. -/
theorem slot_raft_told_iff (cfgs : List Config) (id : SlotId)
    (hlatest : (versions cfgs id).getLast? = some v)
    (hmember : ∀ u ∈ versions cfgs id, nodeId ∈ u.replicas ∨ nodeId ∈ u.learners) :
    (cfgs.foldl (onConfigChange nodeId) (fun _ => none) id).map (·.told) =
        some (slotToConfig nodeId v) ↔
      v.leader ≠ 0 ∧ ∀ first ∈ (versions cfgs id).find? (·.leader ≠ 0), first.equal v →
        slotToConfig nodeId (toldVersion first (versions cfgs id)) = slotToConfig nodeId v := by
  rw [foldl_onConfigChange, raftsAfter_eq _ hmember, ← versions]
  obtain ⟨before, hbefore⟩ := getLast?_eq_some_iff.mp hlatest
  rw [Option.map_map]
  cases hfirst : (versions cfgs id).find? (·.leader ≠ 0) with
  | none =>
    have hleader : v.leader = 0 := by
      simpa using find?_eq_none.mp hfirst v (mem_of_getLast? hlatest)
    simp [hleader]
  | some first =>
    have hled := leader_toldVersion (by simpa using find?_some hfirst) (versions cfgs id)
    simp only [Option.map_some, Function.comp_apply, Option.some.injEq, Option.mem_def]
    constructor
    · intro htold
      refine ⟨fun hv => hled (UInt64.toNat_inj.mp ?_), fun _ h _ => h ▸ htold⟩
      rw [← hv]
      exact congrArg Raft.Config.leader htold
    · rintro ⟨hleader, htold⟩
      cases heq : first.equal v with
      | true => exact htold first rfl heq
      | false => rw [hbefore, toldVersion_snoc, if_pos ⟨hleader, heq⟩]
end

private def held : Slot := { id := 1, leader := 1, term := 1, replicas := [1, 2] }

private def handed : Slot := { held with leader := 2, term := 2 }

theorem slot_raft_told_handed :
    ([{ slots := [held] }, { slots := [handed] }].foldl (onConfigChange 1) (fun _ => none) 1).map
        (·.told) = some (slotToConfig 1 handed) :=
  (slot_raft_told_iff [{ slots := [held] }, { slots := [handed] }] 1 rfl (by decide)).mpr
    (by decide)

/-- The slot comes back to what it was when its raft was made. -/
theorem slot_raft_told_back :
    ([{ slots := [held] }, { slots := [handed] }, { slots := [held] }].foldl (onConfigChange 1)
        (fun _ => none) 1).map (·.told) ≠ some (slotToConfig 1 held) := by
  decide

end WuKongIM.Nodes

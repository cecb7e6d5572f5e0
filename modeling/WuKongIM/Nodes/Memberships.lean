import WuKongIM.Nodes.Candidacy
import WuKongIM.Nodes.ConfigSaves
import WuKongIM.Nodes.ElectedReplicas
import WuKongIM.Nodes.SlotMoves

/-! The members of slots and channels through all changes of their configurations. -/
namespace WuKongIM.Nodes
open Lib List Membership

def Slot.membership (s : Slot) : Membership NodeId where
  leader := s.leader
  replicas := s.replicas
  learners := s.learners
  migrateFrom := s.migrateFrom
  migrateTo := s.migrateTo

def ChannelClusterConfig.membership (cfg : ChannelClusterConfig) : Membership NodeId where
  leader := cfg.leaderId
  replicas := cfg.replicas
  learners := cfg.learners
  migrateFrom := cfg.migrateFrom
  migrateTo := cfg.migrateTo

variable {strict : Prop} {joiningId : NodeId} {v : ClusterView} {old s : Slot} {cfg : ChannelClusterConfig}

/-- The slot that comes of a change is well-formed, and its term is not smaller. -/
def SlotKept (strict : Prop) (s s' : Slot) : Prop := s'.membership.WellFormed 0 strict ∧ s.term ≤ s'.term

/-- The same of a channel, whose version is not smaller either. -/
def ChannelKept (strict : Prop) (cfg cfg' : ChannelClusterConfig) : Prop :=
  cfg'.membership.WellFormed 0 strict ∧ cfg.term ≤ cfg'.term ∧ cfg.confVersion ≤ cfg'.confVersion

section
variable (hs : s.membership.WellFormed 0 strict)
include hs

private theorem slotKept_migrating (source : NodeId) (hset : joiningId ≠ 0) :
    SlotKept strict s (s.migrating source joiningId) ↔ s.learners = [] ∧ joiningId ∉ s.replicas := by
  have hiff : (s.migrating source joiningId).membership.WellFormed 0 strict ↔ _ := hs.enlist_iff source joiningId
  rw [SlotKept, hiff]
  constructor
  · rintro ⟨⟨hlearners, hnew, -⟩, -⟩
    exact ⟨hlearners, hnew⟩
  · rintro ⟨hlearners, hnew⟩
    exact ⟨⟨hlearners, hnew, hset⟩, UInt32.le_refl _⟩

private theorem slotKept_startMigrate (hidle : s.migrateTo = 0) (source : NodeId) {target : NodeId}
    (hset : target ≠ 0) : SlotKept strict s (s.startMigrate source target) ↔ target ∉ s.replicas ∨ ¬strict := by
  rw [Slot.startMigrate]
  split
  · next hin =>
    have hiff : WellFormed 0 strict (Slot.membership { s with migrateFrom := source, migrateTo := target }) ↔ _ :=
      hs.moveTo_iff hidle hset source
    rw [SlotKept, hiff]
    exact ⟨fun h => .inr h.1, fun h => ⟨h.resolve_left (not_not.mpr hin), UInt32.le_refl _⟩⟩
  · next hnew =>
    rw [slotKept_migrating hs source hset]
    exact iff_of_true ⟨hs.learners_of_idle hidle, hnew⟩ (.inl hnew)

end

variable {cfg' : Raft.Config} {member : Nat} {type : Raft.EventType}

theorem membership_slotToConfig (nodeId : NodeId) (st : Slot) :
    (slotToConfig nodeId st).membership = st.membership.map UInt64.toNat := rfl

theorem membership_toRaftConfig (nodeId : NodeId) (cfg : ChannelClusterConfig) :
    (channelConfigToRaftConfig nodeId cfg).membership = cfg.membership.map UInt64.toNat := rfl

theorem toNat_injective : Function.Injective UInt64.toNat := fun _ _ h => UInt64.toNat_inj.mp h

theorem ofNat_toNat_leftInverse : Function.LeftInverse UInt64.ofNat UInt64.toNat := fun _ => UInt64.ofNat_toNat

theorem ofNat_succ32 (term : UInt32) : UInt32.ofNat (Raft.succ32 term.toNat) = term + 1 := by
  apply UInt32.toNat_inj.mp
  rw [UInt32.toNat_ofNat', UInt32.toNat_add, Raft.succ32, Raft.maxUint32]
  have := term.toNat_lt
  have hone : (1 : UInt32).toNat = 1 := rfl
  split <;> omega

/-- When a change of roles leaves the members in order. `term` is the term of the configuration that
is changed, `oldTerm` and `learners` are those of the configuration that raft had. -/
def RoleChangeSafe (type : Raft.EventType) (learners : List NodeId) (term oldTerm : UInt32) : Prop :=
  if type = .followerToLeaderReq then learners = [] ∧ term ≤ oldTerm + 1 else term ≤ oldTerm

theorem roleChange_kept {cfg : Raft.Config} {m : Membership NodeId} (hmembers : cfg.membership = m.map UInt64.toNat)
    (hwf : m.WellFormed 0 strict) {oldTerm : UInt32} (hterm : cfg.term = oldTerm.toNat)
    (h : Raft.roleChange cfg type member = some cfg') (term : UInt32) :
    (cfg'.membership.map UInt64.ofNat).WellFormed 0 strict ∧ term ≤ UInt32.ofNat cfg'.term ↔
      RoleChangeSafe type m.learners term oldTerm := by
  have hlearn (hlearn : Raft.learnTo cfg member = some cfg') :
      (cfg'.membership.map UInt64.ofNat).WellFormed 0 strict ∧ term ≤ UInt32.ofNat cfg'.term ↔ term ≤ oldTerm := by
    obtain ⟨-, hpromote, hsame⟩ := Raft.learnTo_eq_some hlearn
    have hzero : (m.map UInt64.toNat).promote 0 = (m.promote 0).map UInt64.toNat := promote_map toNat_injective 0 m
    rw [hpromote, hmembers, hzero, map_map_of_leftInverse ofNat_toNat_leftInverse, hsame, hterm, UInt32.ofNat_toNat]
    exact and_iff_right hwf.promote
  cases type with
  | learnerToLeaderReq | learnerToFollowerReq => exact hlearn h
  | followerToLeaderReq =>
    obtain ⟨hreplica, hsettle, hnext⟩ := Raft.followerToLeader_eq_some h
    have hreplicas : cfg.replicas = m.replicas.map UInt64.toNat := congrArg replicas hmembers
    rw [hreplicas] at hreplica
    obtain ⟨l, hl, rfl⟩ := mem_map.mp hreplica
    have hzero : (m.map UInt64.toNat).settle 0 l.toNat = (m.settle 0 l).map UInt64.toNat := rfl
    rw [hsettle, hmembers, hzero, map_map_of_leftInverse ofNat_toNat_leftInverse, hnext, hterm,
      hwf.settle_iff hl, ofNat_succ32]
    rfl
  | _ => cases h

variable {nodeId : NodeId} {nodes : List NodeId} {shuffle : List NodeId → List NodeId}

theorem slotKept_roleChange (hold : old.membership.WellFormed 0 strict)
    (h : Raft.roleChange (slotToConfig nodeId old) type member = some cfg') (s : Slot) :
    SlotKept strict s (updateSlotByConfig s cfg') ↔ RoleChangeSafe type old.learners s.term old.term :=
  roleChange_kept (membership_slotToConfig nodeId old) hold rfl h s.term

theorem channelKept_roleChange {old : ChannelClusterConfig} (hold : old.membership.WellFormed 0 strict)
    (h : Raft.roleChange (channelConfigToRaftConfig nodeId old) type member = some cfg') (cfg : ChannelClusterConfig)
    (logIndex : UInt64) : ChannelKept strict cfg ((updateChannelCfgByConfig cfg cfg').saved logIndex) ↔
      RoleChangeSafe type old.learners cfg.term old.term ∧ cfg.confVersion ≤ logIndex := by
  have hkept : _ ↔ RoleChangeSafe type old.learners cfg.term old.term :=
    roleChange_kept (membership_toRaftConfig nodeId old) hold rfl h cfg.term
  rw [← hkept, and_assoc]
  rfl

variable {ids : List NodeId}

theorem addLearners_kept (ids : List NodeId) (cfg : ChannelClusterConfig) :
    (addLearners ids cfg).replicas = cfg.replicas ∧ (addLearners ids cfg).leaderId = cfg.leaderId ∧
      (addLearners ids cfg).term = cfg.term ∧ (addLearners ids cfg).replicaMaxCount = cfg.replicaMaxCount ∧
      (addLearners ids cfg).confVersion = cfg.confVersion := by
  induction ids generalizing cfg with
  | nil => exact ⟨rfl, rfl, rfl, rfl, rfl⟩
  | cons id ids ih =>
    rw [addLearners]
    split
    · exact ⟨rfl, rfl, rfl, rfl, rfl⟩
    · exact ih _

theorem length_learners_addLearners (h : ids ≠ []) (cfg : ChannelClusterConfig) :
    cfg.learners.length < (addLearners ids cfg).learners.length := by
  induction ids generalizing cfg with
  | nil => exact absurd rfl h
  | cons id ids ih =>
    rw [addLearners]
    split
    · simp
    cases ids with
    | nil => simp [addLearners]
    | cons next ids =>
      refine lt_trans ?_ (ih (cons_ne_nil _ _) _)
      simp

theorem wellFormed_addLearners_iff (hcfg : cfg.membership.WellFormed 0 strict) (hlearners : cfg.learners = [])
    (hnew : ∀ n ∈ ids, n ∉ cfg.replicas ∧ n ≠ 0) : (addLearners ids cfg).membership.WellFormed 0 strict ↔
      ids.length ≤ 1 ∨ cfg.replicaMaxCount.toNat ≤ cfg.replicas.length + 1 := by
  cases ids with
  | nil => exact iff_of_true hcfg (.inl (Nat.zero_le 1))
  | cons id ids =>
    obtain ⟨hout, hset⟩ := hnew id mem_cons_self
    obtain ⟨next, hnext⟩ : ∃ next,
        next = { cfg with migrateFrom := id, migrateTo := id, learners := cfg.learners ++ [id] } := ⟨_, rfl⟩
    have hone : next.membership.WellFormed 0 strict := hnext ▸ (hcfg.enlist_iff id id).mpr ⟨hlearners, hout, hset⟩
    have hlen : next.learners.length = 1 := by simp [hnext, hlearners]
    have hgrown : addLearners (id :: ids) cfg =
        if 1 + cfg.replicas.length ≥ cfg.replicaMaxCount.toNat then next else addLearners ids next := by
      rw [addLearners, ← hnext, hlen, hnext]
    rw [hgrown]
    split
    · next henough => exact iff_of_true hone (.inr (by omega))
    rename_i hfew
    cases ids with
    | nil => exact iff_of_true hone (.inl (le_refl 1))
    | cons id' ids =>
      refine iff_of_false (fun h => ?_) (by simp; omega)
      have hmore := length_learners_addLearners (cons_ne_nil id' ids) next
      rcases h.target with hnone | ⟨-, honly⟩
      · have hzero := congrArg length hnone
        exact absurd (hzero ▸ hmore) (Nat.not_lt_zero _)
      · have hsingle : (addLearners (id' :: ids) next).learners.length = 1 := congrArg length honly
        omega

theorem joinIfNeed_eq_some {grown : ChannelClusterConfig} (h : joinNewRepliceIfNeed nodes shuffle cfg = some grown) :
    cfg.replicas.length < cfg.replicaMaxCount.toNat ∧ cfg.learners = [] ∧ cfg.replicas.length < nodes.length ∧
      grown = addLearners (shuffle (newReplicas nodes cfg)) cfg := by
  rw [joinNewRepliceIfNeed] at h
  split at h
  · cases h
  rename_i hfew
  split at h
  · cases h
  rename_i hlearners
  split at h
  · cases h
  split at h
  · cases h
  rename_i hnodes
  cases h
  refine ⟨Nat.not_le.mp hfew, length_eq_zero_iff.mp (Nat.eq_zero_of_not_pos hlearners), Nat.not_le.mp hnodes, rfl⟩

/-- The channel gets at most one more replica at a time. -/
def GrowthSafe (nodes : List NodeId) (cfg : ChannelClusterConfig) : Prop :=
  cfg.replicaMaxCount.toNat ≤ cfg.replicas.length ∨ cfg.learners ≠ [] ∨ nodes.length ≤ cfg.replicas.length ∨
    cfg.replicas.length + 1 = cfg.replicaMaxCount.toNat ∨ (newReplicas nodes cfg).length ≤ 1

theorem wellFormed_grown_iff (hcfg : cfg.membership.WellFormed 0 strict)
    (hnodes : ∀ n ∈ nodes, n ≠ 0) (hshuffle : ∀ ids, (shuffle ids).Perm ids) :
    ((joinNewRepliceIfNeed nodes shuffle cfg).getD cfg).membership.WellFormed 0 strict ↔ GrowthSafe nodes cfg := by
  cases hgrown : joinNewRepliceIfNeed nodes shuffle cfg with
  | none =>
    refine iff_of_true hcfg ?_
    rw [joinNewRepliceIfNeed] at hgrown
    split at hgrown
    · next henough => exact .inl henough
    split at hgrown
    · next hlearners => exact .inr (.inl (length_pos_iff.mp hlearners))
    split at hgrown
    · next hnone => exact .inr (.inr (.inl (hnone ▸ Nat.zero_le _)))
    · split at hgrown
      · next hall => exact .inr (.inr (.inl hall))
      · cases hgrown
  | some grown =>
    obtain ⟨hfew, hlearners, hmore, rfl⟩ := joinIfNeed_eq_some hgrown
    have hnew (n : NodeId) (hn : n ∈ shuffle (newReplicas nodes cfg)) : n ∉ cfg.replicas ∧ n ≠ 0 := by
      obtain ⟨hnode, hout⟩ := mem_filter.mp ((hshuffle _).subset hn)
      exact ⟨of_decide_eq_true hout, hnodes n hnode⟩
    rw [Option.getD_some, wellFormed_addLearners_iff hcfg hlearners hnew, (hshuffle _).length_eq, GrowthSafe]
    simp only [hlearners, ne_eq, not_true_eq_false, false_or]
    omega

variable {online : NodeId → Bool} {respond : List NodeId → List Reply} {cfg' : ChannelClusterConfig}

private theorem switchedLeader_eq_some (hrespond : ∀ asked, ∀ r ∈ respond asked, r.1 ∈ asked)
    (h : switchedLeader online respond cfg = some cfg') :
    ∃ l ∈ cfg.replicas, cfg' = { cfg with leaderId := l, term := cfg.term + 1 } := by
  rw [switchedLeader, switchLeaderIfNeed] at h
  split at h
  · cases h
  dsimp only at h
  split at h
  · cases h
  split at h
  · cases h
  split at h
  · cases h
  rename_i hleader
  obtain ⟨r, hr, hsame⟩ := electionNewLeader_mem hleader
  have hreplica := (mem_filter.mp (hrespond _ r hr)).1
  exact ⟨_, hsame ▸ hreplica, (Option.some.inj h).symm⟩

/-- The channel gets no other leader: its leader is online, too few of its replicas answer, or none
that answers has a log. -/
def LeaderStays (online : NodeId → Bool) (respond : List NodeId → List Reply) (cfg : ChannelClusterConfig) : Prop :=
  let replies := respond (cfg.replicas.filter online)
  cfg.leaderId ≠ 0 ∧ online cfg.leaderId ∨ replies.length ≤ cfg.replicaMaxCount.toNat / 2 ∨ electionNewLeader replies = 0

private theorem switchedLeader_eq_none : switchedLeader online respond cfg = none ↔ LeaderStays online respond cfg := by
  rw [switchedLeader, switchLeaderIfNeed, LeaderStays]
  split
  · next h => exact iff_of_true rfl (.inl h)
  next hgone =>
  dsimp only
  split
  · next h => exact iff_of_true rfl (.inr (.inl (by simp [List.isEmpty_iff.mp h])))
  split
  · next h => exact iff_of_true rfl (.inr (.inl (Nat.le_of_lt_succ h)))
  next hmany =>
  split
  · next h => exact iff_of_true rfl (.inr (.inr h))
  · next h =>
    refine iff_of_false (Option.some_ne_none _) ?_
    rintro (hleads | hfew | hnone)
    · exact hgone hleads
    · exact hmany (Nat.lt_succ_of_le hfew)
    · exact h hnone

theorem le_add_one_iff (term : UInt32) : term ≤ term + 1 ↔ term.toNat + 1 < 2 ^ 32 := by
  rw [UInt32.le_iff_toNat_le, UInt32.toNat_add]
  have hone : (1 : UInt32).toNat = 1 := rfl
  omega

private theorem channelKept_refreshed (hcfg : cfg.membership.WellFormed 0 strict)
    (hnodes : ∀ n ∈ nodes, n ≠ 0) (hshuffle : ∀ ids, (shuffle ids).Perm ids)
    (hrespond : ∀ asked, ∀ r ∈ respond asked, r.1 ∈ asked)
    (h : refreshed nodes shuffle online respond cfg = some cfg') (logIndex : UInt64) :
    ChannelKept strict cfg (cfg'.saved logIndex) ↔
      GrowthSafe nodes cfg ∧ (LeaderStays online respond cfg ∨ cfg.term.toNat + 1 < 2 ^ 32) ∧ cfg.confVersion ≤ logIndex := by
  obtain ⟨grown, hgrown⟩ : ∃ grown, grown = (joinNewRepliceIfNeed nodes shuffle cfg).getD cfg := ⟨_, rfl⟩
  have hsame : grown.replicas = cfg.replicas ∧ grown.leaderId = cfg.leaderId ∧ grown.term = cfg.term ∧
      (switchedLeader online respond grown = none ↔ LeaderStays online respond cfg) := by
    rw [hgrown]
    cases hjoin : joinNewRepliceIfNeed nodes shuffle cfg with
    | none => exact ⟨rfl, rfl, rfl, switchedLeader_eq_none⟩
    | some _ =>
      obtain ⟨-, -, -, rfl⟩ := joinIfNeed_eq_some hjoin
      obtain ⟨hreplicas, hleader, hterm, hmax, -⟩ := addLearners_kept (shuffle (newReplicas nodes cfg)) cfg
      refine ⟨hreplicas, hleader, hterm, switchedLeader_eq_none.trans ?_⟩
      rw [Option.getD_some, LeaderStays, hreplicas, hleader, hmax, LeaderStays]
  obtain ⟨hreplicas, hleader, hterm, hswitched⟩ := hsame
  have hcfg' : cfg' = (switchedLeader online respond grown).getD grown := by
    rw [refreshed, ← hgrown] at h
    split at h
    · exact (Option.some.inj h).symm
    · cases h
  have hwf : cfg'.membership.WellFormed 0 strict ↔ GrowthSafe nodes cfg := by
    rw [← wellFormed_grown_iff hcfg hnodes hshuffle, ← hgrown, hcfg']
    cases hswitch : switchedLeader online respond grown with
    | none => exact Iff.rfl
    | some _ =>
      obtain ⟨l, hl, rfl⟩ := switchedLeader_eq_some hrespond hswitch
      have hleads : grown.membership.leader ∈ grown.membership.replicas := by
        change grown.leaderId ∈ grown.replicas
        rw [hreplicas, hleader]
        exact hcfg.leader
      exact wellFormed_lead_iff hleads hl
  have hle : cfg.term ≤ cfg'.term ↔ LeaderStays online respond cfg ∨ cfg.term.toNat + 1 < 2 ^ 32 := by
    rw [← hswitched, hcfg']
    cases hswitch : switchedLeader online respond grown with
    | none => exact iff_of_true (hterm ▸ UInt32.le_refl _) (.inl rfl)
    | some _ =>
      obtain ⟨l, -, rfl⟩ := switchedLeader_eq_some hrespond hswitch
      rw [Option.getD_some, hterm, le_add_one_iff]
      simp
  rw [← hwf, ← hle]
  rfl

private theorem slotKept_electedSlot (hs : s.membership.WellFormed 0 strict) {l : NodeId}
    (hl : l ∈ s.replicas) : SlotKept strict s (electedSlot s l) ↔ s.term.toNat + 1 < 2 ^ 32 := by
  rw [SlotKept, (electedSlot_fields s l).2.2.2, le_add_one_iff]
  refine and_iff_right ?_
  rw [electedSlot]
  split
  · next hmove =>
    -- the group moved to a replica, for which nobody learns
    have hlearners : s.learners = [] := hs.target.resolve_right fun htarget => by
      have hone : s.learners = [s.migrateTo] := htarget.2
      refine hs.disjoint hl ?_
      rw [show s.membership.learners = [s.migrateTo] from hone, hmove.2]
      exact mem_cons_self
    have hsettled := (hs.settle_iff hl).mpr hlearners
    rw [hlearners]
    rw [settle, show s.membership.learners = [] from hlearners] at hsettled
    exact hsettled
  · exact { hs with leader := hl }

private theorem slot_after_election (w : Walks) {respond : List (NodeId × List SlotId) → List SlotLogInfoResp}
    (hrespond : Honest respond) (hids : (v.config.slots.map Slot.id).Nodup) (hs : s ∈ v.config.slots) :
    ∃ s', (v.config.updateSlots (handleSlotElection v w respond (electionSlots v.config))).slot s.id = some s' ∧
      if s.id ∈ (handleSlotElection v w respond (electionSlots v.config)).map Slot.id
      then ∃ l ∈ s.replicas, s' = electedSlot s l else s' = s := by
  have hslot : v.config.slot s.id = some s := find?_of_mem hids hs
  split
  · next hnew =>
    obtain ⟨new, hnew, hid⟩ := mem_map.mp hnew
    have hafter := Config.slot_of_mem (c := v.config) hnew (unique_election w respond hnew)
    rw [hid, hslot] at hafter
    refine ⟨new, hafter, ?_⟩
    obtain ⟨e, he, hnewSlot⟩ := (mem_election w respond).mp hnew
    obtain ⟨slot, hfind, hzero, -, rfl⟩ := newSlot_eq_some hnewSlot
    obtain ⟨s₂, hs₂, hid₂, hreplica⟩ := elected_replica w hrespond he hzero
    have hslots {t : Slot} (ht : t ∈ electionSlots v.config) (htid : t.id = s.id) : t = s :=
      inj_on_of_nodup_map hids (mem_filter.mp ht).1 hs htid
    have hsame : slot = s := hslots (mem_of_find?_eq_some hfind) ((id_electedSlot slot e.2).symm.trans hid)
    have hsame₂ : s₂ = s := hslots hs₂ (hid₂.trans ((id_newSlot hnewSlot).symm.trans hid))
    exact ⟨e.2, hsame₂ ▸ hreplica, by rw [hsame]⟩
  · next hnew =>
    rw [Config.slot_of_not_mem fun n hn hid => hnew (mem_map.mpr ⟨n, hn, hid⟩)]
    exact ⟨s, hslot, rfl⟩

section
variable {c : Config}

theorem slotKept_of_eq (hs : s.membership.WellFormed 0 strict) : SlotKept strict s s := ⟨hs, UInt32.le_refl _⟩

section
variable (hids : (c.slots.map Slot.id).Nodup) (hwf : s.membership.WellFormed 0 strict) (hs : s ∈ c.slots)
include hids hwf hs

private theorem joining_kept
    {news : List Slot} (h : handleNodeJoining c = some (joiningId, news)) (hset : joiningId ≠ 0) :
    ∃ s', (c.updateNodeJoined joiningId news).slot s.id = some s' ∧
      (SlotKept strict s s' ↔ s.id ∉ news.map Slot.id ∨ s.learners = [] ∧ joiningId ∉ s.replicas) := by
  obtain ⟨hnodup, hmoving⟩ := joining_eq_some hids h
  have hslot : c.slot s.id = some s := find?_of_mem hids hs
  have hthere (new : Slot) (hnew : new ∈ news) : new.id ∈ c.slots.map Slot.id := by
    obtain ⟨s₂, hs₂, source, rfl⟩ := hmoving new hnew
    have hid : s₂.id ∈ c.slots.map Slot.id := mem_map_of_mem hs₂
    exact hid
  rw [slot_updateNodeJoined joiningId hthere]
  by_cases hmem : s.id ∈ news.map Slot.id
  · obtain ⟨new, hnew, hid⟩ := mem_map.mp hmem
    have hafter := Config.slot_of_mem (c := c) hnew fun n hn hid' => inj_on_of_nodup_map hnodup hn hnew hid'
    rw [hid, hslot] at hafter
    refine ⟨new, hafter, ?_⟩
    obtain ⟨s₂, hs₂, source, rfl⟩ := hmoving new hnew
    obtain rfl : s₂ = s := inj_on_of_nodup_map hids hs₂ hs hid
    rw [slotKept_migrating hwf source hset, or_iff_right (not_not.mpr hmem)]
  · rw [Config.slot_of_not_mem fun n hn hid => hmem (mem_map.mpr ⟨n, hn, hid⟩)]
    exact ⟨s, hslot, iff_of_true (slotKept_of_eq hwf) (.inl hmem)⟩

private theorem migrate_kept {slotId : SlotId} {source target : NodeId} (h : s.id = slotId → slotMigrateAllowed s source target) :
    ∃ s', (c.updateSlotMigrate slotId source target).slot s.id = some s' ∧
      (SlotKept strict s s' ↔ s.id ≠ slotId ∨ s.migrateFrom ≠ 0 ∨ s.migrateTo ≠ 0 ∨ target ∉ s.replicas ∨ ¬strict) := by
  refine ⟨_, slot_updateSlotMigrate hids hs slotId source target, ?_⟩
  split
  · next hidle =>
    obtain ⟨hid, hfrom, hto⟩ := hidle
    have hset : target ≠ 0 := by
      have hallowed := h hid
      simp only [slotMigrateAllowed, Bool.and_eq_true, Bool.not_eq_true', Bool.or_eq_false_iff,
        decide_eq_false_iff_not] at hallowed
      exact hallowed.1.2.2
    rw [slotKept_startMigrate hwf hto source hset]
    simp [hid, hfrom, hto]
  · next hmoves =>
    refine iff_of_true (slotKept_of_eq hwf) ?_
    by_contra hnot
    simp only [not_or, not_not] at hnot
    exact hmoves ⟨hnot.1, hnot.2.1, hnot.2.2.1⟩

private theorem saved_kept (hold : old.membership.WellFormed 0 strict) {type : Raft.EventType}
    {member : Nat} {cfg' : Raft.Config}
    (h : Raft.roleChange (slotToConfig nodeId old) type member = some cfg') (slotId : SlotId) :
    ∃ s', (onSaveSlotConfig c slotId cfg').slot s.id = some s' ∧
      (SlotKept strict s s' ↔ s.id ≠ slotId ∨ RoleChangeSafe type old.learners s.term old.term) := by
  have hslot : c.slot s.id = some s := find?_of_mem hids hs
  by_cases hid : s.id = slotId
  · subst hid
    have hsave : onSaveSlotConfig c s.id cfg' = c.updateSlots [updateSlotByConfig s cfg'] := by rw [onSaveSlotConfig, hslot]
    have hafter : (c.updateSlots [updateSlotByConfig s cfg']).slot s.id = (c.slot s.id).map fun _ =>
      updateSlotByConfig s cfg' :=
      Config.slot_of_mem mem_cons_self fun n hn _ => mem_singleton.mp hn
    rw [hslot] at hafter
    refine ⟨_, hsave ▸ hafter, ?_⟩
    rw [slotKept_roleChange hold h]
    simp
  · refine ⟨s, ?_, iff_of_true (slotKept_of_eq hwf) (.inl hid)⟩
    rw [onSaveSlotConfig]
    split
    · exact hslot
    rename_i slot hfind
    have hslotId := find?_some hfind
    rw [Config.slot_of_not_mem, hslot]
    intro n hn hsame
    rw [mem_singleton.mp hn] at hsame
    exact hid (hsame.symm.trans (of_decide_eq_true hslotId))

end

private theorem election_kept (w : Walks) {respond : List (NodeId × List SlotId) → List SlotLogInfoResp}
    (hrespond : Honest respond) (hids : (v.config.slots.map Slot.id).Nodup)
    (hwf : s.membership.WellFormed 0 strict) (hs : s ∈ v.config.slots) :
    ∃ s', (v.config.updateSlots (handleSlotElection v w respond (electionSlots v.config))).slot s.id = some s' ∧
      (SlotKept strict s s' ↔ s.id ∉ (handleSlotElection v w respond (electionSlots v.config)).map Slot.id ∨
        s.term.toNat + 1 < 2 ^ 32) := by
  obtain ⟨s', hafter, hs'⟩ := slot_after_election w hrespond hids hs
  refine ⟨s', hafter, ?_⟩
  split at hs'
  · next hmem =>
    obtain ⟨l, hl, rfl⟩ := hs'
    rw [slotKept_electedSlot hwf hl, or_iff_right (not_not.mpr hmem)]
  · next hmem =>
    subst hs'
    exact iff_of_true (slotKept_of_eq hwf) (.inl hmem)

end

/-- Every change of a slot or a channel, with the condition under which its members stay in order
and its term and version do not go back. -/
theorem members_stay_well_formed (strict : Prop) :
    (∀ c : Config, (c.slots.map Slot.id).Nodup → (∀ s ∈ c.slots, s.membership.WellFormed 0 strict) → ∀ s ∈ c.slots,
      (∀ joiningId news, handleNodeJoining c = some (joiningId, news) → joiningId ≠ 0 →
        ∃ s', (c.updateNodeJoined joiningId news).slot s.id = some s' ∧
          (SlotKept strict s s' ↔ s.id ∉ news.map Slot.id ∨ s.learners = [] ∧ joiningId ∉ s.replicas)) ∧
      (∀ slotId source target, (s.id = slotId → slotMigrateAllowed s source target = true) →
        ∃ s', (c.updateSlotMigrate slotId source target).slot s.id = some s' ∧
          (SlotKept strict s s' ↔ s.id ≠ slotId ∨ s.migrateFrom ≠ 0 ∨ s.migrateTo ≠ 0 ∨ target ∉ s.replicas ∨ ¬strict)) ∧
      (∀ (slotId : SlotId) (nodeId : NodeId) (old : Slot) (type : Raft.EventType) (member : Nat) (cfg' : Raft.Config),
        old.membership.WellFormed 0 strict → Raft.roleChange (slotToConfig nodeId old) type member = some cfg' →
        ∃ s', (onSaveSlotConfig c slotId cfg').slot s.id = some s' ∧
          (SlotKept strict s s' ↔ s.id ≠ slotId ∨ RoleChangeSafe type old.learners s.term old.term)) ∧
      (∀ (v : ClusterView) (w : Walks) (respond : List (NodeId × List SlotId) → List SlotLogInfoResp), v.config = c → Honest respond →
        ∃ s', (c.updateSlots (handleSlotElection v w respond (electionSlots c))).slot s.id = some s' ∧
          (SlotKept strict s s' ↔ s.id ∉ (handleSlotElection v w respond (electionSlots c)).map Slot.id ∨
            s.term.toNat + 1 < 2 ^ 32))) ∧
    (∀ cfg : ChannelClusterConfig, cfg.membership.WellFormed 0 strict → ∀ logIndex : UInt64,
      (∀ (nodes : List NodeId) (shuffle : List NodeId → List NodeId) (online : NodeId → Bool) (respond : List NodeId → List Reply)
        (cfg' : ChannelClusterConfig), (∀ n ∈ nodes, n ≠ 0) → (∀ ids, (shuffle ids).Perm ids) →
        (∀ asked, ∀ r ∈ respond asked, r.1 ∈ asked) → refreshed nodes shuffle online respond cfg = some cfg' →
        (ChannelKept strict cfg (cfg'.saved logIndex) ↔
          GrowthSafe nodes cfg ∧ (LeaderStays online respond cfg ∨ cfg.term.toNat + 1 < 2 ^ 32) ∧
            cfg.confVersion ≤ logIndex)) ∧
      (∀ (nodeId : NodeId) (old : ChannelClusterConfig) (type : Raft.EventType) (member : Nat) (cfg' : Raft.Config),
        old.membership.WellFormed 0 strict → Raft.roleChange (channelConfigToRaftConfig nodeId old) type member = some cfg' →
        (ChannelKept strict cfg ((updateChannelCfgByConfig cfg cfg').saved logIndex) ↔
          RoleChangeSafe type old.learners cfg.term old.term ∧ cfg.confVersion ≤ logIndex))) := by
  constructor
  · intro c hids hwf s hs
    refine ⟨fun joiningId news h hset => ?_, fun slotId source target h => ?_,
      fun slotId nodeId old type member cfg' hold h => ?_, ?_⟩
    · exact joining_kept hids (hwf s hs) hs h hset
    · exact migrate_kept hids (hwf s hs) hs h
    · exact saved_kept hids (hwf s hs) hs hold h slotId
    · rintro v w respond rfl hrespond
      exact election_kept w hrespond hids (hwf s hs) hs
  · intro cfg hcfg logIndex
    constructor
    · intro nodes shuffle online respond cfg' hnodes hshuffle hrespond h
      exact channelKept_refreshed hcfg hnodes hshuffle hrespond h logIndex
    · intro nodeId old type member cfg' hold h
      exact channelKept_roleChange hold h cfg logIndex

variable (replicaMaxCount : UInt16)

private def alone : ChannelClusterConfig where
  replicaMaxCount := replicaMaxCount
  replicas := [1]
  leaderId := 1
  term := 1
  confVersion := 4

private theorem wellFormed_alone : (alone replicaMaxCount).membership.WellFormed 0 True :=
  (wellFormed_iff_of_learners rfl).mpr ⟨mem_cons_self, nodup_singleton _, fun _ => rfl⟩

/-- Two nodes are to be replicas of a channel that has one. Both learn, and the channel moves to the
second one only. -/
theorem members_stay_well_formed_fails :
    ¬∀ (cfg : ChannelClusterConfig) (nodes : List NodeId) (online : NodeId → Bool) (cfg' : ChannelClusterConfig),
      cfg.membership.WellFormed 0 True → (∀ n ∈ nodes, n ≠ 0) → refreshed nodes id online
        (fun _ => []) cfg = some cfg' → cfg'.membership.WellFormed 0 False := by
  intro h
  have hgrown : refreshed [1, 2, 3] id (fun _ => true) (fun _ => []) (alone 3) =
      some { alone 3 with migrateFrom := 3, migrateTo := 3, learners := [2, 3] } := by decide +kernel
  have hwf := h (alone 3) [1, 2, 3] (fun _ => true) _ (wellFormed_alone 3) (by simp) hgrown
  rcases hwf.target with hnone | ⟨-, hone⟩
  · cases hnone
  · cases hone

theorem members_stay_well_formed_of_two :
    ChannelKept True (alone 2) (({ alone 2 with migrateFrom := 2, migrateTo := 2, learners := [2] } : ChannelClusterConfig).saved 9) := by
  have hgrown : refreshed [1, 2, 3] id (fun _ => true) (fun _ => []) (alone 2) =
      some { alone 2 with migrateFrom := 2, migrateTo := 2, learners := [2] } := by decide +kernel
  have hiff := ((members_stay_well_formed True).2 (alone 2) (wellFormed_alone 2) 9).1 [1, 2, 3] id
    (fun _ => true) (fun _ => []) _
    (by simp) (fun _ => .refl _) nofun hgrown
  exact hiff.mpr ⟨.inr (.inr (.inr (.inl rfl))), .inr (by decide), by decide⟩

end WuKongIM.Nodes

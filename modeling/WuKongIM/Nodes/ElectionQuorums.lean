import WuKongIM.Nodes.RecentLogs

/-! How many replicas must answer for an election to find a leader: the numbers come from the
configured maximum of replicas, and not from the replicas that there are. -/
namespace WuKongIM.Nodes
open Lib List Option
open SlotLogInfoResp (nodeId)

def answering (resps : List SlotLogInfoResp) (slotId : SlotId) : List NodeId :=
  (resps.filter fun resp => resp.slots.any fun info => info.slotId = slotId).map nodeId

/-- Each node answers at most once, a node that speaks of the slot is a replica, and it speaks of it
once. -/
structure Answers (replicas : List NodeId) (slotId : SlotId) (resps : List SlotLogInfoResp) : Prop where
  nodup : (resps.map nodeId).Nodup
  asked : ∀ n ∈ answering resps slotId, n ∈ replicas
  once : ∀ resp ∈ resps, (resp.slots.countP fun info => info.slotId = slotId) ≤ 1

theorem answering_cons (resp : SlotLogInfoResp) (resps : List SlotLogInfoResp) (slotId : SlotId) :
    answering (resp :: resps) slotId =
      if resp.slots.any fun info => info.slotId = slotId then resp.nodeId :: answering resps slotId
        else answering resps slotId := by
  rw [answering, filter_cons]
  split <;> rfl

variable {replicas : List NodeId} {slotId : SlotId} {resps : List SlotLogInfoResp}

theorem slotQuorum_eq (h : ∀ resp ∈ resps, (resp.slots.countP fun info => info.slotId = slotId) ≤ 1) :
    slotQuorum resps slotId = (answering resps slotId).length := by
  induction resps with
  | nil => rfl
  | cons resp resps ih =>
    have hrest := ih fun r hr => h r (mem_cons_of_mem resp hr)
    have hone := h resp mem_cons_self
    have hcons : slotQuorum (resp :: resps) slotId =
        (resp.slots.countP fun info => info.slotId = slotId) + slotQuorum resps slotId := by
      rw [slotQuorum, flatMap_cons, countP_append]
      rfl
    rw [hcons, hrest, answering_cons]
    by_cases hany : (resp.slots.any fun info => info.slotId = slotId)
    · have hpos : 0 < resp.slots.countP fun info => info.slotId = slotId := by
        obtain ⟨info, hinfo, hid⟩ := any_eq_true.mp hany
        exact countP_pos_iff.mpr ⟨info, hinfo, hid⟩
      rw [if_pos hany, length_cons]
      omega
    · have hzero : (resp.slots.countP fun info => info.slotId = slotId) = 0 := by
        refine countP_eq_zero.mpr fun info hinfo hid => hany (any_eq_true.mpr ⟨info, hinfo, hid⟩)
      rw [if_neg hany, hzero, zero_add]

theorem collectSlotLogInfo_eq (hnodup : (resps.map nodeId).Nodup) (maxCount : UInt32) : collectSlotLogInfo maxCount resps =
      resps.map fun resp => (resp.nodeId, quorateInfos resps (maxCount.toNat / 2 + 1) resp) := by
  refine setEntries_of_nodup _ ?_
  rwa [nil_append, List.map_map]

theorem repliesOf_collect_eq_nil (hnodup : (resps.map nodeId).Nodup) (maxCount : UInt32) :
    repliesOf (collectSlotLogInfo maxCount resps) slotId = [] ↔ slotQuorum resps slotId < maxCount.toNat / 2 + 1 := by
  rw [collectSlotLogInfo_eq hnodup, repliesOf, filterMap_eq_nil_iff, List.forall_mem_map]
  constructor
  · intro h
    by_contra henough
    have hpos : 0 < slotQuorum resps slotId := by omega
    obtain ⟨info, hinfo, hid⟩ := countP_pos_iff.mp hpos
    obtain ⟨resp, hresp, hinfo⟩ := mem_flatMap.mp hinfo
    have hnone : quorateInfos resps (maxCount.toNat / 2 + 1) resp slotId = none := map_eq_none_iff.mp (h resp hresp)
    rw [quorateInfos, if_neg henough, find?_eq_none] at hnone
    exact hnone info (mem_reverse.mpr hinfo) hid
  · intro h resp _
    have hnone : quorateInfos resps (maxCount.toNat / 2 + 1) resp slotId = none := if_pos h
    dsimp only
    rw [hnone, map_none]

theorem leaderBySlot_eq_zero {st : Option Slot} {infos first second : SlotLogInfos}
    (hids : ∀ r ∈ repliesOf infos slotId, r.1 ≠ 0) (hfirst : first.Perm infos) (hsecond : second.Perm infos) :
    electionSlotLeaderBySlot st first second slotId = 0 ↔ repliesOf infos slotId = [] := by
  have hperm : (repliesOf second slotId).Perm (repliesOf infos slotId) := hsecond.filterMap _
  have hperm' : (repliesOf first slotId).Perm (repliesOf infos slotId) := hfirst.filterMap _
  have hids' : ∀ r ∈ repliesOf second slotId, r.1 ≠ 0 := fun r hr => hids r (hperm.subset hr)
  cases hexpect : expectedReply st first slotId with
  | none =>
    rw [leaderBySlot_eq hexpect hids', leaderOf_eq_zero hids']
    exact ⟨fun h => perm_nil.mp (h ▸ hperm.symm), fun h => perm_nil.mp (h ▸ hperm)⟩
  | some best =>
    obtain ⟨st, rfl, hbest⟩ := bind_eq_some_iff.mp hexpect
    split at hbest
    · have hmem : best ∈ repliesOf infos slotId := hperm'.subset (mem_of_find?_eq_some hbest)
      rw [electionSlotLeaderBySlot, hexpect, getD_some, foldl_considerSlot (hids best hmem) hids']
      refine iff_of_false (fun hzero => ?_) (ne_nil_of_mem hmem)
      have hwon : (repliesOf second slotId).foldl (contest recency termOf) best ∈ _ := foldl_contest_mem best _
      rcases mem_cons.mp hwon with h | h
      · exact hids best hmem (h ▸ hzero)
      · exact hids' _ h hzero
    · cases hbest

theorem answering_of_reply {maxCount : UInt32} (hnodup : (resps.map nodeId).Nodup) {r : Reply}
    (hr : r ∈ repliesOf (collectSlotLogInfo maxCount resps) slotId) : r.1 ∈ answering resps slotId := by
  rw [collectSlotLogInfo_eq hnodup] at hr
  obtain ⟨e, he, hr⟩ := mem_filterMap.mp hr
  obtain ⟨resp, hresp, rfl⟩ := mem_map.mp he
  obtain ⟨info, hinfo, rfl⟩ := map_eq_some_iff.mp hr
  have hinfo : quorateInfos resps (maxCount.toNat / 2 + 1) resp slotId = some info := hinfo
  rw [quorateInfos] at hinfo
  split at hinfo
  · cases hinfo
  have hid := find?_some hinfo
  have hmem := mem_reverse.mp (mem_of_find?_eq_some hinfo)
  exact mem_map.mpr ⟨resp, mem_filter.mpr ⟨hresp, any_eq_true.mpr ⟨info, hmem, hid⟩⟩, rfl⟩

theorem slot_elected_iff (h : Answers replicas slotId resps) (hids : ∀ n ∈ replicas, n ≠ 0)
    (maxCount : UInt32) (st : Option Slot)
    {first second : SlotLogInfos} (hfirst : first.Perm (collectSlotLogInfo maxCount resps))
    (hsecond : second.Perm (collectSlotLogInfo maxCount resps)) :
    electionSlotLeaderBySlot st first second slotId ≠ 0 ↔ maxCount.toNat / 2 + 1 ≤ (answering resps slotId).length := by
  have hreplies (r : Reply) (hr : r ∈ repliesOf (collectSlotLogInfo maxCount resps) slotId) : r.1 ≠ 0 :=
    hids r.1 (h.asked r.1 (answering_of_reply h.nodup hr))
  rw [ne_eq, leaderBySlot_eq_zero hreplies hfirst hsecond, repliesOf_collect_eq_nil h.nodup,
    slotQuorum_eq h.once, not_lt]

theorem Answers.nodup_answering (h : Answers replicas slotId resps) : (answering resps slotId).Nodup :=
  (filter_sublist.map _).nodup h.nodup

def answersFrom (nodes : List NodeId) (slotId : SlotId) : List SlotLogInfoResp := nodes.map fun n => ⟨n, [{ slotId }]⟩

theorem answering_answersFrom (nodes : List NodeId) (slotId : SlotId) :
    answering (answersFrom nodes slotId) slotId = nodes := by
  induction nodes with
  | nil => rfl
  | cons n nodes ih =>
    have hcons : answersFrom (n :: nodes) slotId = ⟨n, [{ slotId }]⟩ :: answersFrom nodes slotId := rfl
    rw [hcons, answering_cons, if_pos (by simp), ih]

variable {nodes : List NodeId}

theorem answers_answersFrom (hnodup : nodes.Nodup) (hsub : ∀ n ∈ nodes, n ∈ replicas) :
    Answers replicas slotId (answersFrom nodes slotId) where
  nodup := by
    rw [answersFrom, List.map_map]
    exact (map_id nodes).symm ▸ hnodup
  asked := by rwa [answering_answersFrom]
  once := by simp [answersFrom]

/-- Two thresholds that cannot be told apart by numbers up to `r` are the same or both out of
reach. -/
theorem thresholds_agree_iff {a b r : Nat} : (∀ k, k ≤ r → (a ≤ k ↔ b ≤ k)) ↔ a = b ∨ r < a ∧ r < b := by
  constructor
  · intro h
    rcases lt_or_ge a b with hab | hab
    · have := h a
      omega
    · have := h b
      omega
  · rintro (rfl | ⟨ha, hb⟩) k hk
    · rfl
    · omega

/-- For every set of replicas that answers, a leader is found exactly when a majority answers: this
holds of a slot without replicas, and of one whose number of replicas has the same half as the
configured maximum. -/
theorem slot_quorum_iff {replicas : List NodeId} (hnodup : replicas.Nodup) (hids : ∀ n ∈ replicas, n ≠ 0) (slotId : SlotId)
    (maxCount : UInt32) (st : Option Slot) : (∀ resps first second, Answers replicas slotId resps →
        first.Perm (collectSlotLogInfo maxCount resps) → second.Perm (collectSlotLogInfo maxCount resps) →
        (electionSlotLeaderBySlot st first second slotId ≠ 0 ↔ replicas.length / 2 + 1 ≤ (answering resps slotId).length)) ↔
      replicas = [] ∨ maxCount.toNat / 2 = replicas.length / 2 := by
  have hreach : replicas = [] ∨ maxCount.toNat / 2 = replicas.length / 2 ↔
      maxCount.toNat / 2 + 1 = replicas.length / 2 + 1 ∨
        replicas.length < maxCount.toNat / 2 + 1 ∧ replicas.length < replicas.length / 2 + 1 := by
    rw [← length_eq_zero_iff]
    omega
  rw [hreach, ← thresholds_agree_iff]
  constructor
  · intro h k hk
    have hanswers : Answers replicas slotId (answersFrom (replicas.take k) slotId) :=
      answers_answersFrom hnodup.take fun n hn => mem_of_mem_take hn
    have hiff := h _ _ _ hanswers (.refl _) (.refl _)
    rwa [slot_elected_iff hanswers hids maxCount st (.refl _) (.refl _), answering_answersFrom,
      length_take_of_le hk] at hiff
  · intro h resps first second hanswers hfirst hsecond
    rw [slot_elected_iff hanswers hids maxCount st hfirst hsecond]
    refine h _ ?_
    have hsub : (answering resps slotId).Subperm replicas := hanswers.nodup_answering.subperm fun n hn => hanswers.asked n hn
    exact hsub.length_le

variable {cfg : ChannelClusterConfig} {online : NodeId → Bool} {replies : List Reply}

/-- The leader of the channel is gone, and some of its other replicas that are online have answered,
each once. -/
structure Replied (cfg : ChannelClusterConfig) (online : NodeId → Bool) (replies : List Reply) : Prop where
  gone : ¬(cfg.leaderId ≠ 0 ∧ online cfg.leaderId = true)
  nodup : (replies.map Prod.fst).Nodup
  asked : ∀ r ∈ replies, r.1 ∈ cfg.replicas.filter online

def Switched (cfg : ChannelClusterConfig) (online : NodeId → Bool) (replies : List Reply) : Prop :=
  ∃ cfg', switchLeaderIfNeed online (fun _ => replies) cfg = .ok (some cfg')

theorem switched_iff (h : Replied cfg online replies) (hids : ∀ n ∈ cfg.replicas, n ≠ 0) :
    Switched cfg online replies ↔ cfg.replicaMaxCount.toNat / 2 + 1 ≤ replies.length ∧ ∃ r ∈ replies, hasLog r := by
  have hzero : electionNewLeader replies = 0 ↔ ∀ r ∈ replies, hasLog r = false :=
    channelLeader_eq_zero (fun r hr => hids r.1 (mem_filter.mp (h.asked r hr)).1) (.refl _)
  have hlog : ¬electionNewLeader replies = 0 ↔ ∃ r ∈ replies, hasLog r := by
    rw [hzero]
    simp
  rw [Switched, switchLeaderIfNeed, if_neg h.gone, ← hlog]
  by_cases hempty : replies.isEmpty
  · rw [List.isEmpty_iff] at hempty
    simp [hempty]
  rw [if_neg hempty]
  by_cases hfew : replies.length < cfg.replicaMaxCount.toNat / 2 + 1
  · rw [if_pos hfew]
    simp [Nat.not_le.mpr hfew]
  · rw [if_neg hfew]
    by_cases hnone : electionNewLeader replies = 0
    · simp [hnone]
    · simp [hnone, Nat.not_lt.mp hfew]

def ChannelClusterConfig.others (cfg : ChannelClusterConfig) : List NodeId := cfg.replicas.filter fun n => n ≠ cfg.leaderId

theorem Replied.length_le (h : Replied cfg online replies) (hids : ∀ n ∈ cfg.replicas, n ≠ 0) :
    replies.length ≤ cfg.others.length := by
  have hsub : (replies.map Prod.fst).Subperm cfg.others := by
    refine h.nodup.subperm fun n hn => ?_
    obtain ⟨r, hr, rfl⟩ := mem_map.mp hn
    obtain ⟨hmem, honline⟩ := mem_filter.mp (h.asked r hr)
    refine mem_filter.mpr ⟨hmem, decide_eq_true fun hleader => h.gone ⟨?_, hleader ▸ honline⟩⟩
    exact hleader ▸ hids r.1 hmem
  have hlen := hsub.length_le
  rwa [length_map] at hlen

def repliesFrom (nodes : List NodeId) : List Reply := nodes.map fun n => (n, ⟨1, 1, 1⟩)

theorem replied_repliesFrom (hnodup : nodes.Nodup) (hsub : ∀ n ∈ nodes, n ∈ cfg.others) :
    Replied cfg (fun n => n ≠ cfg.leaderId) (repliesFrom nodes) where
  gone := by simp
  nodup := by
    rw [repliesFrom, List.map_map]
    exact (map_id nodes).symm ▸ hnodup
  asked := by
    rw [repliesFrom, List.forall_mem_map]
    exact hsub

theorem channel_quorum_iff (hnodup : cfg.replicas.Nodup) (hids : ∀ n ∈ cfg.replicas, n ≠ 0) :
    (∀ online replies, Replied cfg online replies → (∃ r ∈ replies, hasLog r) →
        (Switched cfg online replies ↔ cfg.replicas.length / 2 + 1 ≤ replies.length)) ↔
      cfg.replicaMaxCount.toNat / 2 = cfg.replicas.length / 2 ∨
        cfg.others.length ≤ cfg.replicaMaxCount.toNat / 2 ∧ cfg.others.length ≤ cfg.replicas.length / 2 := by
  have hreach : cfg.replicaMaxCount.toNat / 2 = cfg.replicas.length / 2 ∨
        cfg.others.length ≤ cfg.replicaMaxCount.toNat / 2 ∧ cfg.others.length ≤ cfg.replicas.length / 2 ↔
      cfg.replicaMaxCount.toNat / 2 + 1 = cfg.replicas.length / 2 + 1 ∨
        cfg.others.length < cfg.replicaMaxCount.toNat / 2 + 1 ∧ cfg.others.length < cfg.replicas.length / 2 + 1 := by omega
  rw [hreach, ← thresholds_agree_iff]
  constructor
  · intro h k hk
    have hnodes : (cfg.others.take k).Nodup := (hnodup.filter _).take
    have hreplied := replied_repliesFrom hnodes fun n hn => mem_of_mem_take hn
    have hlen : (repliesFrom (cfg.others.take k)).length = k := by rw [repliesFrom, length_map, length_take_of_le hk]
    cases k with
    | zero => simp
    | succ k =>
      have hlog : ∃ r ∈ repliesFrom (cfg.others.take (k + 1)), hasLog r := by
        have hpos : 0 < (repliesFrom (cfg.others.take (k + 1))).length := by omega
        obtain ⟨r, hr⟩ := exists_mem_of_length_pos hpos
        obtain ⟨n, -, rfl⟩ := mem_map.mp hr
        exact ⟨_, hr, rfl⟩
      have hiff := h _ _ hreplied hlog
      rwa [switched_iff hreplied hids, and_iff_left hlog, hlen] at hiff
  · intro h online replies hreplied hlog
    rw [switched_iff hreplied hids, and_iff_left hlog]
    exact h _ (hreplied.length_le hids)

theorem majority_of_length {replicas nodes : List NodeId} (hnodup : nodes.Nodup) (hsub : ∀ n ∈ nodes, n ∈ replicas)
    (hlen : replicas.length / 2 + 1 ≤ nodes.length) : Majority replicas nodes.toFinset where
  subset n hn := hsub n (mem_toFinset.mp hn)
  card := by rwa [toFinset_card_of_nodup hnodup]

/-- Elections decide on a majority of the replicas exactly when the configured maximum and the
number of replicas have the same half, apart from replicas too few to reach either number, and then
they meet every other majority; but a channel whose replicas have no logs never gets a leader. -/
theorem elections_need_majority (slot : Slot) (slotMaxReplicaCount : UInt32) (cfg : ChannelClusterConfig)
    (hslot : slot.replicas.Nodup ∧ ∀ n ∈ slot.replicas, n ≠ 0) (hcfg : cfg.replicas.Nodup ∧ ∀ n ∈ cfg.replicas, n ≠ 0) :
    ((∀ (resps : List SlotLogInfoResp) (first second : SlotLogInfos), Answers slot.replicas slot.id resps →
        first.Perm (collectSlotLogInfo slotMaxReplicaCount resps) →
          second.Perm (collectSlotLogInfo slotMaxReplicaCount resps) →
        (electionSlotLeaderBySlot (some slot) first second slot.id ≠ 0 ↔
          slot.replicas.length / 2 + 1 ≤ (answering resps slot.id).length)) ↔
      slot.replicas = [] ∨ slotMaxReplicaCount.toNat / 2 = slot.replicas.length / 2) ∧
    ((∀ online replies, Replied cfg online replies → (∃ r ∈ replies, hasLog r = true) →
        (Switched cfg online replies ↔ cfg.replicas.length / 2 + 1 ≤ replies.length)) ↔
      cfg.replicaMaxCount.toNat / 2 = cfg.replicas.length / 2 ∨
        cfg.others.length ≤ cfg.replicaMaxCount.toNat / 2 ∧ cfg.others.length ≤ cfg.replicas.length / 2) ∧
    (∀ online replies, Replied cfg online replies → (∀ r ∈ replies, hasLog r = false) → ¬Switched cfg online replies) ∧
    (slotMaxReplicaCount.toNat / 2 = slot.replicas.length / 2 →
      ∀ (resps : List SlotLogInfoResp) (first second : SlotLogInfos), Answers slot.replicas slot.id resps →
        first.Perm (collectSlotLogInfo slotMaxReplicaCount resps) →
          second.Perm (collectSlotLogInfo slotMaxReplicaCount resps) →
        electionSlotLeaderBySlot (some slot) first second slot.id ≠ 0 →
        ∀ quorum, Majority slot.replicas quorum → ∃ n ∈ quorum, n ∈ answering resps slot.id) ∧
    (cfg.replicaMaxCount.toNat / 2 = cfg.replicas.length / 2 →
      ∀ online replies, Replied cfg online replies → Switched cfg online replies →
        ∀ quorum, Majority cfg.replicas quorum → ∃ n ∈ quorum, n ∈ replies.map Prod.fst) := by
  refine ⟨slot_quorum_iff hslot.1 hslot.2 slot.id slotMaxReplicaCount (some slot),
    channel_quorum_iff hcfg.1 hcfg.2, ?_, ?_, ?_⟩
  · intro online replies hreplied hlogs hswitched
    obtain ⟨r, hr, hlog⟩ := ((switched_iff hreplied hcfg.2).mp hswitched).2
    rw [hlogs r hr] at hlog
    cases hlog
  · intro hhalf resps first second hanswers hfirst hsecond helected quorum hquorum
    have hlen := (slot_elected_iff hanswers hslot.2 slotMaxReplicaCount (some slot) hfirst hsecond).mp helected
    rw [hhalf] at hlen
    obtain ⟨n, hn, hanswering⟩ := hquorum.meet (majority_of_length hanswers.nodup_answering hanswers.asked hlen)
    exact ⟨n, hn, List.mem_toFinset.mp hanswering⟩
  · intro hhalf online replies hreplied hswitched quorum hquorum
    have hlen := ((switched_iff hreplied hcfg.2).mp hswitched).1
    rw [hhalf, ← length_map Prod.fst] at hlen
    have hasked (n : NodeId) (hn : n ∈ replies.map Prod.fst) : n ∈ cfg.replicas := by
      obtain ⟨r, hr, rfl⟩ := List.mem_map.mp hn
      exact (mem_filter.mp (hreplied.asked r hr)).1
    obtain ⟨n, hn, hreply⟩ := hquorum.meet (majority_of_length hreplied.nodup hasked hlen)
    exact ⟨n, hn, List.mem_toFinset.mp hreply⟩

private def lonely : Slot where
  id := 7
  replicas := [1]

private def crowded : Slot where
  id := 7
  replicas := [1, 2, 3, 4]

/-- With a maximum of three replicas, the only replica of a slot answers and no leader is found; and
two of four replicas answer and one is found. -/
theorem elections_need_majority_fails :
    ¬(∀ (slot : Slot) (resps : List SlotLogInfoResp), slot.replicas.Nodup → (∀ n ∈ slot.replicas, n ≠ 0) →
      Answers slot.replicas slot.id resps → slot.replicas.length / 2 + 1 ≤ (answering resps slot.id).length →
      electionSlotLeaderBySlot (some slot) (collectSlotLogInfo 3 resps) (collectSlotLogInfo 3 resps) slot.id ≠ 0) ∧
    ¬∀ (slot : Slot) (resps : List SlotLogInfoResp), slot.replicas.Nodup →
      (∀ n ∈ slot.replicas, n ≠ 0) → Answers slot.replicas slot.id resps →
      electionSlotLeaderBySlot (some slot) (collectSlotLogInfo 3 resps) (collectSlotLogInfo 3 resps) slot.id ≠ 0 →
      slot.replicas.length / 2 + 1 ≤ (answering resps slot.id).length := by
  constructor
  · intro h
    have hanswers : Answers lonely.replicas 7 (answersFrom [1] 7) := answers_answersFrom (by decide) (by simp [lonely])
    exact h lonely _ (by decide) (by simp [lonely]) hanswers (by decide) (by decide +kernel)
  · intro h
    have hanswers : Answers crowded.replicas 7 (answersFrom [1, 2] 7) := answers_answersFrom (by decide) (by simp [crowded])
    exact absurd (h crowded _ (by decide) (by simp [crowded]) hanswers (by decide +kernel)) (by decide)

private def shared : ChannelClusterConfig where
  leaderId := 1
  replicas := [1, 2, 3]
  replicaMaxCount := 3

/-- Two of three replicas find a leader, for a slot and for a channel whose leader is offline; each
majority of the channel's replicas has one of the two. -/
theorem elections_need_majority_of_three :
    electionSlotLeaderBySlot (some { id := 7, replicas := [1, 2, 3] }) (collectSlotLogInfo 3 (answersFrom [1, 2] 7))
      (collectSlotLogInfo 3 (answersFrom [1, 2] 7)) 7 ≠ 0 ∧
    Switched shared (· ≠ 1) [(2, { logIndex := 4 }), (3, { logIndex := 5 })] ∧
    ∀ quorum, Majority shared.replicas quorum → ∃ n ∈ quorum, n ∈ [2, 3] := by
  have h := elections_need_majority { id := 7, replicas := [1, 2, 3] } 3 shared ⟨by decide, by simp⟩
    ⟨by decide, by simp [shared]⟩
  have hanswers : Answers [1, 2, 3] 7 (answersFrom [1, 2] 7) := answers_answersFrom (by decide) (by simp)
  have hreplied : Replied shared (· ≠ 1) [(2, { logIndex := 4 }), (3, { logIndex := 5 })] :=
    ⟨by decide, by decide, by decide⟩
  have hswitched := (h.2.1.mpr (.inl rfl) _ _ hreplied (by decide)).mpr (by decide)
  refine ⟨(h.1.mpr (.inr rfl) _ _ _ hanswers (.refl _) (.refl _)).mpr (by decide), hswitched, ?_⟩
  exact h.2.2.2.2 rfl _ _ hreplied hswitched

end WuKongIM.Nodes

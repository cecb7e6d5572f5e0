import WuKongIM.Lib.Run
import WuKongIM.Nodes.ElectionQuorums

/-! Only replicas are elected: the others are not asked. -/
namespace WuKongIM.Nodes
open Lib List Option

/-- Each node answers at most once, and only for slots that it is asked for. -/
structure Honest (respond : List (NodeId × List SlotId) → List SlotLogInfoResp) : Prop where
  nodup : ∀ asked, ((respond asked).map SlotLogInfoResp.nodeId).Nodup
  asked : ∀ asked, ∀ resp ∈ respond asked, ∀ info ∈ resp.slots, ∃ ids, (resp.nodeId, ids) ∈ asked ∧ info.slotId ∈ ids

variable {v : ClusterView} {all : List Slot} {slot : Slot}

/-- Nodes are asked for slots that they have as replicas. -/
def AsksReplicas (all : List Slot) (asked : List (NodeId × List SlotId)) : Prop :=
  ∀ e ∈ asked, ∀ id ∈ e.2, ∃ s ∈ all, s.id = id ∧ e.1 ∈ s.replicas

theorem AsksReplicas.askReplica {asked asked' : List (NodeId × List SlotId)} (h : AsksReplicas all asked)
    (hslot : slot ∈ all) {replicaId : NodeId} (hreplica : replicaId ∈ slot.replicas)
    (hask : askReplica v slot.id asked replicaId = some asked') : AsksReplicas all asked' := by
  rw [Nodes.askReplica] at hask
  split at hask
  · exact some.inj hask ▸ h
  split at hask
  · cases hask
  cases hask
  intro e he id hid
  rcases mem_setEntry he with he | rfl
  · exact h e he id hid
  rcases mem_append.mp hid with hid | hid
  · cases hlookup : asked.lookup replicaId with
    | none => simp [hlookup] at hid
    | some ids =>
      rw [hlookup] at hid
      exact h (replicaId, ids) (mem_of_lookup hlookup) id hid
  · exact ⟨slot, hslot, (mem_singleton.mp hid).symm, hreplica⟩

theorem AsksReplicas.askForSlot {requests requests' : List (NodeId × List SlotId) × List SlotId}
    (h : AsksReplicas all requests.1) (hslot : slot ∈ all)
    (hask : askForSlot v requests slot = some requests') : AsksReplicas all requests'.1 := by
  rw [Nodes.askForSlot] at hask
  split at hask
  · exact some.inj hask ▸ h
  obtain ⟨asked, hasked, rfl⟩ := map_eq_some_iff.mp hask
  exact foldlM_invariant (AsksReplicas all) (fun _ hreplica _ _ hs hnext => hs.askReplica hslot hreplica hnext) h hasked

theorem asksReplicas_requests {requests : List (NodeId × List SlotId) × List SlotId}
    (h : electionRequests v all = some requests) :
    AsksReplicas all requests.1 := by
  have hstart : AsksReplicas all [] := nofun
  exact foldlM_invariant (AsksReplicas all ·.1) (fun _ hslot _ _ hs hnext => hs.askForSlot hslot hnext) hstart h

variable (best candidate : Reply)

theorem consider_eq_or : consider best candidate = best ∨ consider best candidate = candidate := by
  rw [consider]
  split
  · exact .inl rfl
  · split
    · exact .inr rfl
    · exact .inl rfl

theorem considerSlot_eq_or : considerSlot best candidate = best ∨ considerSlot best candidate = candidate := by
  rw [considerSlot]
  split
  · exact .inr rfl
  · exact consider_eq_or best candidate

theorem leaderBySlot_mem {st : Option Slot} {infos first second : SlotLogInfos} {slotId : SlotId}
    (hfirst : first.Perm infos) (hsecond : second.Perm infos) (h : electionSlotLeaderBySlot st first second slotId ≠ 0) :
    ∃ r ∈ repliesOf infos slotId, r.1 = electionSlotLeaderBySlot st first second slotId := by
  have hsub {walk : SlotLogInfos} (hwalk : walk.Perm infos) {r : Reply}
    (hr : r ∈ repliesOf walk slotId) : r ∈ repliesOf infos slotId :=
    (hwalk.filterMap _).subset hr
  rw [electionSlotLeaderBySlot] at h ⊢
  rcases mem_cons.mp (foldl_mem_cons considerSlot_eq_or (repliesOf second slotId) ((expectedReply st first slotId).getD (0, {}))) with hbest | hr
  · rw [hbest] at h ⊢
    cases hexpected : expectedReply st first slotId with
    | none => simp [hexpected] at h
    | some r =>
      refine ⟨r, hsub hfirst ?_, rfl⟩
      obtain ⟨slot, -, hfind⟩ := bind_eq_some_iff.mp hexpected
      split at hfind
      · exact mem_of_find?_eq_some hfind
      · cases hfind
  · exact ⟨_, hsub hsecond hr, rfl⟩

theorem electionNewLeader_mem {replies : List Reply} (h : electionNewLeader replies ≠ 0) :
    ∃ r ∈ replies, r.1 = electionNewLeader replies := by
  rw [electionNewLeader] at h ⊢
  rcases mem_cons.mp (foldl_mem_cons consider_eq_or replies (0, {})) with hnone | hr
  · rw [hnone] at h
    exact absurd rfl h
  · exact ⟨_, hr, rfl⟩

theorem elected_replica {v : ClusterView} (w : Walks) {respond : List (NodeId × List SlotId) → List SlotLogInfoResp}
    (hrespond : Honest respond) {slots : List Slot} {elected : SlotId × NodeId}
    (helected : elected ∈ slotLeaders v w respond slots)
    (hleader : elected.2 ≠ 0) : ∃ s ∈ slots, s.id = elected.1 ∧ elected.2 ∈ s.replicas := by
  rw [slotLeaders] at helected
  split at helected
  · cases helected
  rename_i asked ids hrequests
  split at helected
  · cases helected
  split at helected
  · cases helected
  -- the leader has answered for the slot, so it was asked for it
  have hentry := mem_setEntries helected
  obtain ⟨id, -, rfl⟩ := mem_map.mp (hentry.resolve_left not_mem_nil)
  obtain ⟨r, hr, hsame⟩ := leaderBySlot_mem (w.first_perm id _) (w.second_perm id _) hleader
  have hanswering := answering_of_reply (hrespond.nodup asked) hr
  obtain ⟨resp, hresp, hnode⟩ := mem_map.mp hanswering
  obtain ⟨hmem, hany⟩ := mem_filter.mp hresp
  obtain ⟨info, hinfo, hid⟩ := any_eq_true.mp hany
  obtain ⟨ids, hasked, hids⟩ := hrespond.asked asked resp hmem info hinfo
  obtain ⟨s, hs, hsid, hreplica⟩ := asksReplicas_requests hrequests _ hasked _ hids
  exact ⟨s, hs, hsid.trans (of_decide_eq_true hid), hsame ▸ hnode ▸ hreplica⟩

end WuKongIM.Nodes

import WuKongIM.Lib.Upserts
import WuKongIM.Nodes.OnlineStatus

/-! The slots of a node that has gone get other leaders, and a node that has come gets its share. -/
namespace WuKongIM.Nodes
open Lib List Option

theorem nodup_countMap (slots : List Slot) : ((nodeSlotLeaderCountMap slots).map Prod.fst).Nodup := by
  have hgen (m : List (NodeId × ℕ)) (h : (m.map Prod.fst).Nodup) :
      ((slots.foldl (fun m slot => setEntry m slot.leader ((m.lookup slot.leader).getD 0 + 1)) m).map Prod.fst).Nodup := by
    induction slots generalizing m with
    | nil => exact h
    | cons slot slots ih => exact ih _ (nodup_setEntry _ _ h)
  exact hgen [] .nil

theorem lookup_countMap (slots : List Slot) (nodeId : NodeId) :
    ((nodeSlotLeaderCountMap slots).lookup nodeId).getD 0 = slots.countP fun s => s.leader = nodeId := by
  have hgen (m : List (NodeId × ℕ)) :
      ((slots.foldl (fun m slot => setEntry m slot.leader ((m.lookup slot.leader).getD 0 + 1)) m).lookup nodeId).getD 0 =
        (m.lookup nodeId).getD 0 + slots.countP fun s => s.leader = nodeId := by
    induction slots generalizing m with
    | nil => rfl
    | cons slot slots ih =>
      rw [foldl_cons, ih, lookup_setEntry, countP_cons]
      by_cases hleader : nodeId = slot.leader
      · rw [if_pos hleader, hleader, getD_some]
        simp only [decide_true, if_true]
        omega
      · rw [if_neg hleader]
        simp [Ne.symm hleader]
  exact (hgen []).trans (zero_add _)

variable {nodeId : NodeId} {avg : ℕ}

def failing (nodeId : NodeId) (slots : List Slot) : List Slot := slots.filter fun s => decide (s.leader = nodeId) && s.settled

def others (nodeId : NodeId) (nId : NodeId) : Bool := decide (nId ≠ nodeId)

theorem pickLeader_eq (slot : Slot) (current : ℕ) (walk : List (NodeId × ℕ)) : pickLeader nodeId avg slot current walk =
      if slot.settled ∧ 0 < current then (walk.find? (takes avg (others nodeId))).map Prod.fst else none := by
  induction walk with
  | nil => simp [pickLeader]
  | cons e walk ih =>
    obtain ⟨nId, count⟩ := e
    rw [pickLeader, find?_cons]
    by_cases hself : nId = nodeId
    · simp [hself, takes, others, ih]
    rw [if_neg hself]
    by_cases hcurrent : current ≤ 0
    · rw [if_pos hcurrent, if_neg fun h => Nat.not_lt.mpr hcurrent h.2]
    rw [if_neg hcurrent]
    by_cases hcount : count > avg
    · have htakes : takes avg (others nodeId) (nId, count) = false := by simp [takes, hcount]
      rw [if_pos hcount, htakes, ih]
    have htakes : takes avg (others nodeId) (nId, count) := by simp [takes, others, hself, Nat.not_lt.mp hcount]
    rw [if_neg hcount, htakes, ih]
    cases hsettled : slot.settled with
    | false => simp
    | true => simp [Nat.pos_of_ne_zero fun h => hcurrent (le_of_eq h)]

def proposed (given : List (Slot × Option NodeId)) : List Slot := given.filterMap fun p => p.2.map p.1.candidateFor

/-- The counter of the slots that are left never ends the loop. -/
theorem candidates_eq (o : Orders Slot NodeId) (slots : List Slot) (counts : List (NodeId × ℕ)) (current : ℕ)
    (hcurrent : (failing nodeId slots).length ≤ current) : candidates nodeId avg o slots counts current =
      proposed (allot avg (others nodeId) o (failing nodeId slots) counts) := by
  induction slots generalizing counts current with
  | nil => rfl
  | cons slot slots ih =>
    rw [candidates]
    by_cases hleader : slot.leader = nodeId
    · rw [if_neg (not_not.mpr hleader), pickLeader_eq]
      cases hsettled : slot.settled with
      | false =>
        have hskip : failing nodeId (slot :: slots) = failing nodeId slots := by
          rw [failing, filter_cons_of_neg (by simp [hsettled]), failing]
        rw [hskip] at hcurrent ⊢
        simpa using ih counts current hcurrent
      | true =>
        have htake : failing nodeId (slot :: slots) = slot :: failing nodeId slots := by
          rw [failing, filter_cons_of_pos (by simp [hleader, hsettled]), failing]
        rw [htake] at hcurrent ⊢
        rw [length_cons] at hcurrent
        rw [if_pos ⟨rfl, by omega⟩, allot]
        cases (o.walk slot counts).find? (takes avg (others nodeId)) with
        | none => exact ih counts current (by omega)
        | some e => exact congrArg (slot.candidateFor e.1 :: ·) (ih (bump counts e.1) (current - 1) (by omega))
    · have hskip : failing nodeId (slot :: slots) = failing nodeId slots := by
        rw [failing, filter_cons_of_neg (by simp [hleader]), failing]
      rw [hskip] at hcurrent ⊢
      rw [if_pos hleader, ih counts current hcurrent]

variable (c : Config)

def allotted (nodeId : NodeId) (o : Orders Slot NodeId) (avg : ℕ) : List (Slot × Option NodeId) :=
  allot avg (others nodeId) o (failing nodeId c.slots) (nodeSlotLeaderCountMap c.slots)

theorem jobs_allotted (nodeId : NodeId) (o : Orders Slot NodeId) (avg : ℕ) :
    (allotted c nodeId o avg).map Prod.fst = failing nodeId c.slots := jobs_allot o _ _

theorem offlineSlots_eq (nodeId : NodeId) (o : Orders Slot NodeId) : offlineSlots c nodeId o =
    (avgSlotLeaderCount c).map fun avg => proposed (allotted c nodeId o avg.toNat) := by
  refine congrArg (fun f => (avgSlotLeaderCount c).map f) (funext fun avg => candidates_eq o _ _ _ ?_)
  rw [lookup_countMap, countP_eq_length_filter]
  exact (monotone_filter_right _ fun s => by simp +contextual).length_le

variable {s : Slot} {c : Config}

theorem Slot.status_of_settled (h : s.settled) : s.status ≠ .candidate :=
  of_decide_eq_true (Bool.and_eq_true_iff.mp h).2

/-- An online replica of the slot that can lead it in the place of the node. -/
def Eligible (c : Config) (nodeId : NodeId) (s : Slot) (m : NodeId) : Prop :=
  m ∈ s.replicas ∧ m ≠ nodeId ∧ c.nodeOnline m = true
  deriving Decidable

/-- If any replica can lead the slot, this one can. -/
def Fitting (c : Config) (nodeId : NodeId) (s : Slot) (m : NodeId) : Prop :=
  (∃ m', Eligible c nodeId s m') → Eligible c nodeId s m

def FailedOver (c : Config) (nodeId : NodeId) (s : Slot) (after : Config) : Prop :=
  ∃ s', after.slot s.id = some s' ∧ s'.status = .candidate ∧ Fitting c nodeId s s'.expectLeader

variable {given : List (Slot × Option NodeId)}

theorem mem_proposed {new : Slot} : new ∈ proposed given ↔ ∃ s k, (s, some k) ∈ given ∧ new = s.candidateFor k := by
  rw [proposed, mem_filterMap]
  constructor
  · rintro ⟨⟨s, k⟩, hp, hnew⟩
    obtain ⟨k, rfl, rfl⟩ := map_eq_some_iff.mp hnew
    exact ⟨s, k, hp, rfl⟩
  · rintro ⟨s, k, hp, rfl⟩
    exact ⟨(s, some k), hp, rfl⟩

theorem ids_proposed (given : List (Slot × Option NodeId)) :
    ((proposed given).map Slot.id).Sublist ((given.map Prod.fst).map Slot.id) := by
  induction given with
  | nil => exact .slnil
  | cons p given ih =>
    obtain ⟨s, k⟩ := p
    cases k with
    | none => exact ih.cons s.id
    | some k => exact ih.cons_cons s.id

theorem slot_after_proposed (hids : ((given.map Prod.fst).map Slot.id).Nodup) {k : NodeId} (hp : (s, some k) ∈ given)
    (hslot : c.slot s.id = some s) : (c.updateSlots (proposed given)).slot s.id = some (s.candidateFor k) := by
  have hmem : s.candidateFor k ∈ proposed given := mem_proposed.mpr ⟨s, k, hp, rfl⟩
  have hafter := Config.slot_of_mem (c := c) hmem fun n hn hid =>
    inj_on_of_nodup_map ((ids_proposed given).nodup hids) hn hmem hid
  rw [show (s.candidateFor k).id = s.id from rfl, hslot] at hafter
  exact hafter

theorem slot_after_not_proposed (hids : (c.slots.map Slot.id).Nodup) (hgiven : ∀ p ∈ given, p.1 ∈ c.slots) (hs : s ∈ c.slots)
    (hnot : ∀ k, (s, some k) ∉ given) : (c.updateSlots (proposed given)).slot s.id = some s := by
  rw [Config.slot_of_not_mem, Config.slot, find?_of_mem hids hs]
  intro n hn hid
  obtain ⟨s', k, hp, rfl⟩ := mem_proposed.mp hn
  have hsame : s' = s := inj_on_of_nodup_map hids (hgiven _ hp) hs hid
  exact hnot k (hsame ▸ hp)

theorem failing_of_given (hjobs : given.map Prod.fst = failing nodeId c.slots) {p : Slot × Option NodeId} (hp : p ∈ given) :
    p.1 ∈ c.slots ∧ p.1.leader = nodeId ∧ p.1.settled := by
  have hfst : p.1 ∈ given.map Prod.fst := mem_map_of_mem hp
  rw [hjobs] at hfst
  obtain ⟨hs, hfailing⟩ := mem_filter.mp hfst
  obtain ⟨hleader, hsettled⟩ := Bool.and_eq_true_iff.mp hfailing
  exact ⟨hs, of_decide_eq_true hleader, hsettled⟩

theorem forall_failedOver_iff (hids : (c.slots.map Slot.id).Nodup) (hjobs : given.map Prod.fst = failing nodeId c.slots) :
    (∀ s ∈ c.slots, s.leader = nodeId → FailedOver c nodeId s (c.updateSlots (proposed given))) ↔
      (∀ s ∈ c.slots, s.leader = nodeId → s.settled = false → s.status = .candidate ∧ Fitting c nodeId s s.expectLeader) ∧
        Served (Fitting c nodeId) given := by
  have hmem {p : Slot × Option NodeId} (hp : p ∈ given) := failing_of_given hjobs hp
  have hjobIds : ((given.map Prod.fst).map Slot.id).Nodup := hjobs ▸ (filter_sublist.map _).nodup hids
  have hafter {s : Slot} {k : NodeId} (hp : (s, some k) ∈ given) :=
    slot_after_proposed hjobIds hp (find?_of_mem hids (hmem hp).1 : c.slot s.id = some s)
  have hstays {s : Slot} (hs : s ∈ c.slots) (hnot : ∀ k, (s, some k) ∉ given) :=
    slot_after_not_proposed hids (fun p hp => (hmem hp).1) hs hnot
  constructor
  · intro h
    constructor
    · intro s hs hleader hsettled
      obtain ⟨s', hs', hstatus, hfits⟩ := h s hs hleader
      rw [hstays hs fun k hp => by simp [(hmem hp).2.2] at hsettled] at hs'
      cases hs'
      exact ⟨hstatus, hfits⟩
    · rintro ⟨s, k⟩ hp
      obtain ⟨hs, hleader, hsettled⟩ := hmem hp
      obtain ⟨s', hs', hstatus, hfits⟩ := h s hs hleader
      cases k with
      | none =>
        -- nobody takes the slot, which then is no candidate
        have hnot (k : NodeId) : (s, some k) ∉ given := fun hp' => by
          have := inj_on_of_nodup_map hjobIds.of_map hp hp' rfl
          cases this
        rw [hstays hs hnot] at hs'
        cases hs'
        exact absurd hstatus (Slot.status_of_settled hsettled)
      | some k =>
        rw [hafter hp] at hs'
        cases hs'
        exact ⟨k, rfl, hfits⟩
  · rintro ⟨hothers, hserved⟩ s hs hleader
    cases hsettled : s.settled with
    | true =>
      have hfst : s ∈ given.map Prod.fst := hjobs ▸ mem_filter.mpr ⟨hs, by simp [hleader, hsettled]⟩
      obtain ⟨p, hp, rfl⟩ := mem_map.mp hfst
      obtain ⟨k, hk, hfits⟩ := hserved p hp
      exact ⟨_, hafter (hk ▸ hp), rfl, hfits⟩
    | false =>
      obtain ⟨hstatus, hfits⟩ := hothers s hs hleader hsettled
      exact ⟨s, hstays hs fun k hp => by simp [(hmem hp).2.2] at hsettled, hstatus, hfits⟩

/-- A slot of the leader, on its way to the node that has it as a replica. -/
def MovedFrom (nodeId nId : NodeId) (slots : List Slot) (new : Slot) : Prop :=
  ∃ s ∈ slots, s.leader = nId ∧ nodeId ∈ s.replicas ∧ new = { s with migrateFrom := s.leader, migrateTo := nodeId }

theorem moveFrom_spec (nodeId nId : NodeId) (slots : List Slot) (exported need : ℕ) :
    (moveFrom nodeId nId slots exported need).1.length + (moveFrom nodeId nId slots exported need).2 = need ∧
      ((moveFrom nodeId nId slots exported need).1.map Slot.id).Sublist (slots.map Slot.id) ∧
      ∀ new ∈ (moveFrom nodeId nId slots exported need).1, MovedFrom nodeId nId slots new := by
  induction slots generalizing exported need with
  | nil => exact ⟨zero_add _, .slnil, nofun⟩
  | cons slot slots ih =>
    rw [moveFrom]
    split
    · next h =>
      obtain ⟨hleader, -, hneed, -, -, hreplica⟩ := h
      obtain ⟨hlen, hids, hmoved⟩ := ih (exported - 1) (need - 1)
      refine ⟨?_, hids.cons_cons slot.id, fun new hnew => ?_⟩
      · dsimp only
        rw [length_cons]
        omega
      · rcases mem_cons.mp hnew with rfl | hnew
        · exact ⟨slot, mem_cons_self, hleader, hreplica, by rw [hleader]⟩
        · obtain ⟨s, hs, hrest⟩ := hmoved new hnew
          exact ⟨s, mem_cons_of_mem _ hs, hrest⟩
    · obtain ⟨hlen, hids, hmoved⟩ := ih exported need
      refine ⟨hlen, hids.cons slot.id, fun new hnew => ?_⟩
      obtain ⟨s, hs, hrest⟩ := hmoved new hnew
      exact ⟨s, mem_cons_of_mem _ hs, hrest⟩

theorem moves_spec {slots : List Slot} (hids : (slots.map Slot.id).Nodup) {walk : List (NodeId × ℕ)}
    (hwalk : (walk.map Prod.fst).Nodup)
    (need : ℕ) : (moves nodeId avg slots walk need).length ≤ need ∧ ((moves nodeId avg slots walk need).map Slot.id).Nodup ∧
      ∀ new ∈ moves nodeId avg slots walk need, ∃ nId ∈ walk.map Prod.fst, MovedFrom nodeId nId slots new := by
  induction walk generalizing need with
  | nil => exact ⟨Nat.zero_le _, .nil, nofun⟩
  | cons e walk ih =>
    obtain ⟨nId, count⟩ := e
    obtain ⟨hnew, hwalk⟩ := nodup_cons.mp hwalk
    have hskip : (moves nodeId avg slots walk need).length ≤ need ∧ ((moves nodeId avg slots walk need).map Slot.id).Nodup ∧
        ∀ new ∈ moves nodeId avg slots walk need, ∃ nId' ∈ nId :: walk.map Prod.fst, MovedFrom nodeId nId' slots new := by
      obtain ⟨hlen, hnodup, hmoved⟩ := ih hwalk need
      refine ⟨hlen, hnodup, fun new hnew => ?_⟩
      obtain ⟨nId', hmem, h⟩ := hmoved new hnew
      exact ⟨nId', mem_cons_of_mem _ hmem, h⟩
    rw [moves]
    split
    · exact hskip
    split
    · exact ⟨Nat.zero_le _, .nil, nofun⟩
    split
    · exact hskip
    obtain ⟨hlen, hsub, hmoved⟩ := moveFrom_spec nodeId nId slots (count - avg) need
    obtain ⟨hlen', hnodup', hmoved'⟩ := ih hwalk (moveFrom nodeId nId slots (count - avg) need).2
    refine ⟨?_, ?_, fun new hnew => ?_⟩
    · rw [length_append]
      omega
    · -- slots of different leaders are different slots
      rw [map_append]
      refine nodup_append.mpr ⟨hsub.nodup hids, hnodup', fun id hid id' hid' heq => ?_⟩
      obtain ⟨new, hmem, rfl⟩ := mem_map.mp hid
      obtain ⟨new', hmem', rfl⟩ := mem_map.mp hid'
      obtain ⟨s, hs, hleader, -, rfl⟩ := hmoved new hmem
      obtain ⟨nId', hin, s', hs', hleader', -, rfl⟩ := hmoved' new' hmem'
      have hsame : s = s' := inj_on_of_nodup_map hids hs hs' heq
      exact hnew (hleader ▸ hsame ▸ hleader' ▸ hin)
    · rcases mem_append.mp hnew with hnew | hnew
      · exact ⟨nId, mem_cons_self, hmoved new hnew⟩
      · obtain ⟨nId', hmem, h⟩ := hmoved' new hnew
        exact ⟨nId', mem_cons_of_mem _ hmem, h⟩

/-- All slots of the node can fail over: those that are not free to be given out are up for election
already, the nodes that lead something have room for the others, and each of them with room can lead
all of these. -/
structure CanFailOver (c : Config) (nodeId : NodeId) (avg : ℕ) : Prop where
  unsettled : ∀ s ∈ c.slots, s.leader = nodeId → s.settled = false → s.status = .candidate ∧ Fitting c nodeId s s.expectLeader
  servable : Servable avg (others nodeId) (Fitting c nodeId) (failing nodeId c.slots) (nodeSlotLeaderCountMap c.slots)

section
variable (hids : (c.slots.map Slot.id).Nodup) {news : List Slot}
include hids

theorem offlineSlots_own {o : Orders Slot NodeId} (h : offlineSlots c nodeId o = some news) :
    (news.map Slot.id).Nodup ∧ ∀ s ∈ c.slots, s.leader ≠ nodeId → (c.updateSlots news).slot s.id = some s := by
  rw [offlineSlots_eq] at h
  obtain ⟨avg, -, rfl⟩ := map_eq_some_iff.mp h
  have hjobs := jobs_allotted c nodeId o avg.toNat
  constructor
  · refine (ids_proposed _).nodup ?_
    rw [hjobs]
    exact (filter_sublist.map _).nodup hids
  · intro s hs hleader
    refine slot_after_not_proposed hids (fun p hp => (failing_of_given hjobs hp).1) hs fun k hp => ?_
    exact hleader (failing_of_given hjobs hp).2.1

theorem offlineSlots_failedOver_iff : (∀ o, ∃ news, offlineSlots c nodeId o = some news ∧
      ∀ s ∈ c.slots, s.leader = nodeId → FailedOver c nodeId s (c.updateSlots news)) ↔
      ∃ avg, avgSlotLeaderCount c = some avg ∧ CanFailOver c nodeId avg.toNat := by
  have hfailing : (failing nodeId c.slots).Nodup := hids.of_map.sublist filter_sublist
  have hcounts := nodup_countMap c.slots
  let given : Orders Slot NodeId := ⟨fun _ counts => counts, fun _ _ => .refl _⟩
  cases havg : avgSlotLeaderCount c with
  | none =>
    refine iff_of_false (fun h => ?_) nofun
    obtain ⟨news, hnews, -⟩ := h given
    rw [offlineSlots, havg] at hnews
    cases hnews
  | some avg =>
    have hsome (o : Orders Slot NodeId) : offlineSlots c nodeId o = some (proposed (allotted c nodeId o avg.toNat)) := by
      rw [offlineSlots_eq, havg, map_some]
    have hiff (o : Orders Slot NodeId) := forall_failedOver_iff hids (jobs_allotted c nodeId o avg.toNat)
    constructor
    · intro h
      have hover (o : Orders Slot NodeId) (s : Slot) (hs : s ∈ c.slots) (hleader : s.leader = nodeId) :
          FailedOver c nodeId s (c.updateSlots (proposed (allotted c nodeId o avg.toNat))) := by
        obtain ⟨news, hnews, hover⟩ := h o
        rw [hsome] at hnews
        cases hnews
        exact hover s hs hleader
      refine ⟨avg, rfl, ((hiff given).mp (hover given)).1, ?_⟩
      exact servable_of_served hfailing hcounts fun o => ((hiff o).mp (hover o)).2
    · rintro ⟨_, hsame, h⟩ o
      cases hsame
      exact ⟨_, hsome o, (hiff o).mpr ⟨h.unsettled, served_of_servable o hcounts h.servable⟩⟩

theorem onlineSlots_share {walk : List (NodeId × ℕ) → List (NodeId × ℕ)}
    (hwalk : ∀ m, (walk m).Perm m) (h : onlineSlots c nodeId walk = some news) : (news.map Slot.id).Nodup ∧
      (∀ new ∈ news, ∃ s ∈ c.slots, nodeId ∈ s.replicas ∧ new = { s with migrateFrom := s.leader, migrateTo := nodeId }) ∧
      (news = [] ∨ ∃ avg, avgSlotLeaderCount c = some avg ∧
        (c.slots.countP fun s => s.leader = nodeId) + news.length ≤ avg.toNat) := by
  obtain ⟨avg, havg, rfl⟩ := map_eq_some_iff.mp h
  dsimp only
  rw [lookup_countMap]
  split
  · exact ⟨.nil, nofun, .inl rfl⟩
  rename_i hcurrent
  have hkeys := ((hwalk _).map Prod.fst).nodup_iff.mpr (nodup_countMap c.slots)
  obtain ⟨hlen, hnodup, hmoved⟩ := moves_spec hids hkeys (avg.toNat - c.slots.countP fun s => s.leader = nodeId)
  refine ⟨hnodup, fun new hnew => ?_, .inr ⟨avg, havg, ?_⟩⟩
  · obtain ⟨nId, -, s, hs, -, hreplica, hnew⟩ := hmoved new hnew
    exact ⟨s, hs, hreplica, hnew⟩
  · have hfree := Nat.not_le.mp hcurrent
    exact (Nat.add_le_add_left hlen _).trans (le_of_eq (Nat.add_sub_cancel' (le_of_lt hfree)))

end

/-- When a node goes, only its slots are proposed, each once; all of them are, for leaders that can
lead them and in whatever order the nodes are looked through, exactly when there is an online node
and they can fail over. When it comes, it gets slots that it has as a replica, each once and no more
than its share. -/
theorem node_change_moves_slots (c : Config) (nodeId : NodeId) (hids : (c.slots.map Slot.id).Nodup) :
    (∀ o news, offlineSlots (c.updateNodeOnlineStatus nodeId false) nodeId o = some news →
      (news.map Slot.id).Nodup ∧ ∀ s ∈ c.slots, s.leader ≠ nodeId →
        ((c.updateNodeOnlineStatus nodeId false).updateSlots news).slot s.id = some s) ∧
    ((∀ o, ∃ news, offlineSlots (c.updateNodeOnlineStatus nodeId false) nodeId o = some news ∧
      ∀ s ∈ c.slots, s.leader = nodeId →
        FailedOver (c.updateNodeOnlineStatus nodeId false) nodeId s
          ((c.updateNodeOnlineStatus nodeId false).updateSlots news)) ↔
      ∃ avg, avgSlotLeaderCount (c.updateNodeOnlineStatus nodeId false) = some avg ∧
        CanFailOver (c.updateNodeOnlineStatus nodeId false) nodeId avg.toNat) ∧
    (∀ (walk : List (NodeId × ℕ) → List (NodeId × ℕ)) (news : List Slot), (∀ m, (walk m).Perm m) →
      onlineSlots (c.updateNodeOnlineStatus nodeId true) nodeId walk = some news →
      (news.map Slot.id).Nodup ∧
        (∀ new ∈ news, ∃ s ∈ c.slots, nodeId ∈ s.replicas ∧ new = { s with migrateFrom := s.leader, migrateTo := nodeId }) ∧
        (news = [] ∨ ∃ avg, avgSlotLeaderCount (c.updateNodeOnlineStatus nodeId true) = some avg ∧
          (c.slots.countP fun s => s.leader = nodeId) + news.length ≤ avg.toNat)) := by
  refine ⟨fun o news hnews => ?_, ?_, fun walk news hwalk hnews => ?_⟩
  · exact offlineSlots_own (c := c.updateNodeOnlineStatus nodeId false) hids hnews
  · exact offlineSlots_failedOver_iff hids
  · exact onlineSlots_share (c := c.updateNodeOnlineStatus nodeId true) hids hwalk hnews

private def asListed : Orders Slot NodeId := ⟨fun _ counts => counts, fun _ _ => .refl _⟩

private def threeVoters (slots : List Slot) : Config where
  slotCount := UInt32.ofNat slots.length
  nodes := [⟨1, true, true, .joined⟩, ⟨2, true, true, .joined⟩, ⟨3, true, true, .joined⟩]
  slots := slots

private def uneven : Config := threeVoters [⟨0, 1, 1, [1, 2], [], 0, 0, 0, .normal⟩, ⟨1, 3, 1, [3, 1], [], 0, 0, 0, .normal⟩]

private def even : Config :=
  threeVoters [⟨0, 1, 1, [1, 2, 3], [], 0, 0, 0, .normal⟩,
    ⟨1, 2, 1, [2, 3, 1], [], 0, 0, 0, .normal⟩, ⟨2, 3, 1, [3, 1, 2], [], 0, 0, 0, .normal⟩]

/-- The second node has the slot of the first one as a replica and leads none; the third node, which
leads one, is to get it. -/
theorem node_change_moves_slots_fails :
    ¬∀ (c : Config) (nodeId : NodeId), (c.slots.map Slot.id).Nodup →
      ∀ o, ∃ news, offlineSlots (c.updateNodeOnlineStatus nodeId false) nodeId o = some news ∧
        ∀ s ∈ c.slots, s.leader = nodeId →
          FailedOver (c.updateNodeOnlineStatus nodeId false) nodeId s
            ((c.updateNodeOnlineStatus nodeId false).updateSlots news) := by
  intro h
  obtain ⟨news, hnews, hover⟩ := h uneven 1 (by decide) asListed
  have heval : offlineSlots (uneven.updateNodeOnlineStatus 1 false) 1 asListed =
      some [⟨0, 1, 1, [1, 2], [], 0, 0, 3, .candidate⟩] := by decide +kernel
  cases heval.symm.trans hnews
  obtain ⟨s', hs', -, hfits⟩ := hover ⟨0, 1, 1, [1, 2], [], 0, 0, 0, .normal⟩ (by decide) rfl
  cases hs'
  exact absurd (hfits ⟨2, by decide⟩) (by decide)

theorem node_change_moves_slots_of_even :
    ∃ news, offlineSlots (even.updateNodeOnlineStatus 1 false) 1 asListed = some news ∧
      ∀ s ∈ even.slots, s.leader = 1 →
        FailedOver (even.updateNodeOnlineStatus 1 false) 1 s ((even.updateNodeOnlineStatus 1 false).updateSlots news) := by
  refine (node_change_moves_slots even 1 (by decide)).2.1.mpr
    ⟨1, by decide, ?_, by decide, fun s hs e he htakes _ => ?_⟩ asListed
  · intro s hs _ hsettled
    have hall : ∀ s ∈ (even.updateNodeOnlineStatus 1 false).slots, s.settled := by decide
    rw [hall s hs] at hsettled
    cases hsettled
  · have hall : ∀ s ∈ failing 1 (even.updateNodeOnlineStatus 1 false).slots,
        ∀ e ∈ nodeSlotLeaderCountMap (even.updateNodeOnlineStatus 1 false).slots, takes 1 (others 1) e →
          Eligible (even.updateNodeOnlineStatus 1 false) 1 s e.1 := by decide
    exact hall s hs e he htakes

end WuKongIM.Nodes

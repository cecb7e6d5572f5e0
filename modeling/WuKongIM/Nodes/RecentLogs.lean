import Mathlib.Data.Prod.Lex
import WuKongIM.Lib.Contest
import WuKongIM.Lib.Quorum
import WuKongIM.Nodes.SlotElection

/-! When an election takes a replica with a most recent log, whatever the order of the answers. -/
namespace WuKongIM.Nodes
open Lib List Option

/-- Logs are compared by the term of the last one, and then by its index. -/
def recency (r : Reply) : ℕ ×ₗ ℕ := toLex (r.2.logTerm.toNat, r.2.logIndex.toNat)

def termOf (r : Reply) : ℕ := r.2.term.toNat

theorem newer_iff (best candidate : Reply) : best.2.newer candidate.2 ↔ recency best < recency candidate := by
  rw [recency, recency, Prod.Lex.toLex_lt_toLex, LastLog.newer, Bool.or_eq_true, Bool.and_eq_true, decide_eq_true_eq,
    decide_eq_true_eq, beq_iff_eq, gt_iff_lt, gt_iff_lt, UInt32.lt_iff_toNat_lt, UInt64.lt_iff_toNat_lt, UInt32.toNat_inj, eq_comm]

theorem consider_eq_contest : consider = contest recency termOf := by
  funext best candidate
  have hterm : candidate.2.term < best.2.term ↔ termOf candidate < termOf best := UInt32.lt_iff_toNat_lt
  rw [consider, contest]
  by_cases hlower : termOf candidate < termOf best
  · rw [if_pos hlower, if_pos (hterm.mpr hlower)]
  rw [if_neg hlower, if_neg (mt hterm.mp hlower)]
  by_cases hnewer : recency best < recency candidate
  · rw [if_pos hnewer, if_pos ((newer_iff best candidate).mpr hnewer)]
  · rw [if_neg hnewer, if_neg (mt (newer_iff best candidate).mp hnewer)]

variable {replies : List Reply} {slotId : SlotId} {infos : SlotLogInfos} {st : Option Slot}

theorem foldl_considerSlot {best : Reply} (hbest : best.1 ≠ 0) (h : ∀ r ∈ replies, r.1 ≠ 0) :
    replies.foldl considerSlot best = replies.foldl (contest recency termOf) best := by
  induction replies generalizing best with
  | nil => rfl
  | cons r replies ih =>
    rw [foldl_cons, considerSlot, if_neg hbest, consider_eq_contest]
    refine ih ?_ fun r' hr' => h r' (mem_cons_of_mem r hr')
    rcases contest_eq_or recency termOf best r with heq | heq
    · rwa [heq]
    · rw [heq]
      exact h r mem_cons_self

def leaderOf (winner : Option Reply) : NodeId := (winner.map Prod.fst).getD 0

theorem leaderBySlot_eq {first second : SlotLogInfos}
    (hexpect : expectedReply st first slotId = none) (h : ∀ r ∈ repliesOf second slotId, r.1 ≠ 0) :
    electionSlotLeaderBySlot st first second slotId = leaderOf (winner recency termOf (repliesOf second slotId)) := by
  rw [electionSlotLeaderBySlot, hexpect, getD_none]
  cases hreplies : repliesOf second slotId with
  | nil => rfl
  | cons r replies =>
    rw [hreplies] at h
    have hfirst : considerSlot (0, {}) r = r := if_pos rfl
    rw [foldl_cons, hfirst,
      foldl_considerSlot (h r mem_cons_self) fun r' hr' => h r' (mem_cons_of_mem r hr')]
    rfl

def hasLog (r : Reply) : Bool := r.2.logTerm != 0 || r.2.logIndex != 0

theorem hasLog_iff (r : Reply) : hasLog r ↔ recency (0, {}) < recency r := by
  rw [← newer_iff, LastLog.newer, hasLog]
  by_cases hterm : r.2.logTerm = 0
  · simp [hterm, UInt64.pos_iff_ne_zero]
  · simp [hterm, UInt32.pos_iff_ne_zero]

theorem recency_none_le (r : Reply) : recency (0, {}) ≤ recency r := by
  rw [recency, recency, Prod.Lex.toLex_le_toLex]
  rcases Nat.eq_zero_or_pos r.2.logTerm.toNat with h | h
  · exact .inr ⟨h.symm, Nat.zero_le _⟩
  · exact .inl h

theorem contest_of_not_hasLog {best r : Reply} (h : hasLog r = false) : contest recency termOf best r = best := by
  have hnot : ¬recency best < recency r := by
    intro hlt
    have hlog := (hasLog_iff r).mpr (lt_of_le_of_lt (recency_none_le best) hlt)
    rw [h] at hlog
    cases hlog
  rw [contest, if_neg hnot, ite_self]

theorem foldl_filter_hasLog (replies : List Reply) (best : Reply) :
    replies.foldl (contest recency termOf) best = (replies.filter hasLog).foldl (contest recency termOf) best := by
  induction replies generalizing best with
  | nil => rfl
  | cons r replies ih =>
    cases h : hasLog r with
    | true => rw [filter_cons_of_pos h, foldl_cons, foldl_cons, ih]
    | false => rw [filter_cons_of_neg (by simp [h]), foldl_cons, contest_of_not_hasLog h, ih]

theorem electionNewLeader_eq (replies : List Reply) :
    electionNewLeader replies = leaderOf (winner recency termOf (replies.filter hasLog)) := by
  rw [electionNewLeader, consider_eq_contest, foldl_filter_hasLog]
  cases hlogs : replies.filter hasLog with
  | nil => rfl
  | cons r rest =>
    have hlog : hasLog r := (mem_filter.mp (hlogs ▸ mem_cons_self)).2
    have hfirst : contest recency termOf (0, {}) r = r := by
      have hterm : ¬termOf r < termOf (0, {}) := Nat.not_lt_zero _
      rw [contest, if_neg hterm, if_pos ((hasLog_iff r).mp hlog)]
    rw [foldl_cons, hfirst]
    rfl

section
variable (hids : ∀ r ∈ replies, r.1 ≠ 0) (hnodup : (replies.map Prod.fst).Nodup)
include hids hnodup

/-- Nodes answer once, so the log of the leader is the one it won with. -/
theorem greatest_leaderOf_iff {won : Option Reply} (hwon : ∀ w, won = some w → w ∈ replies) :
    (∃ log, Greatest recency replies (leaderOf won, log)) ↔ ∃ w, won = some w ∧ Greatest recency replies w := by
  constructor
  · rintro ⟨log, hgreatest⟩
    cases won with
    | none => exact absurd rfl (hids _ hgreatest.1)
    | some w =>
      have hsame : w = (w.1, log) := inj_on_of_nodup_map hnodup (hwon w rfl) hgreatest.1 rfl
      exact ⟨w, rfl, hsame ▸ hgreatest⟩
  · rintro ⟨w, rfl, hgreatest⟩
    exact ⟨w.2, hgreatest⟩

end

theorem greatest_filter_iff {w : Reply} (hw : w ∈ replies.filter hasLog) :
    Greatest recency (replies.filter hasLog) w ↔ Greatest recency replies w := by
  have hlog := (hasLog_iff w).mp (mem_filter.mp hw).2
  constructor
  · rintro ⟨-, hbest⟩
    refine ⟨(mem_filter.mp hw).1, fun r hr => ?_⟩
    cases h : hasLog r with
    | true => exact hbest r (mem_filter.mpr ⟨hr, h⟩)
    | false =>
      have hnone : recency r ≤ recency (0, {}) := not_lt.mp fun hlt => by simp [(hasLog_iff r).mpr hlt] at h
      exact hnone.trans hlog.le
  · rintro ⟨-, hbest⟩
    exact ⟨hw, fun r hr => hbest r (mem_filter.mp hr).1⟩

theorem ids_repliesOf (slotId : SlotId) : ((repliesOf infos slotId).map Prod.fst).Sublist (infos.map Prod.fst) := by
  induction infos with
  | nil => exact .slnil
  | cons e infos ih =>
    rw [repliesOf, filterMap_cons]
    cases e.2 slotId with
    | none => exact ih.cons _
    | some info => exact ih.cons_cons _

theorem expectedReply_perm {infos' : SlotLogInfos} (h : infos'.Perm infos)
    (hnone : expectedReply st infos slotId = none) : expectedReply st infos' slotId = none := by
  have hperm : (repliesOf infos' slotId).Perm (repliesOf infos slotId) := h.filterMap _
  cases st with
  | none => rfl
  | some st =>
    rw [expectedReply, bind_some] at hnone ⊢
    split at hnone
    · next hexpect =>
      rw [if_pos hexpect, find?_eq_none]
      exact fun r hr => find?_eq_none.mp hnone r (hperm.subset hr)
    · next hexpect => rw [if_neg hexpect]

theorem leaderOf_eq_zero (hids : ∀ r ∈ replies, r.1 ≠ 0) : leaderOf (winner recency termOf replies) = 0 ↔ replies = [] := by
  have hwinner : winner recency termOf replies = none ↔ replies = [] := winner_eq_none
  rw [← hwinner]
  constructor
  · intro hzero
    cases hwon : winner recency termOf replies with
    | none => rfl
    | some w =>
      rw [hwon] at hzero
      exact absurd hzero (hids w (winner_mem hwon))
  · intro hnone
    rw [hnone]
    rfl

theorem ids_of_replies (hinfos : ∀ e ∈ infos, e.1 ≠ 0) (r : Reply) (hr : r ∈ repliesOf infos slotId) : r.1 ≠ 0 := by
  obtain ⟨e, he, hr⟩ := mem_filterMap.mp hr
  obtain ⟨info, -, rfl⟩ := map_eq_some_iff.mp hr
  exact hinfos e he

section
variable {first second : SlotLogInfos} (hinfos : ∀ e ∈ infos, e.1 ≠ 0) (hexpect : expectedReply st infos slotId = none)
include hinfos hexpect

theorem slotLeader_eq (hfirst : first.Perm infos) (hsecond : second.Perm infos) :
    electionSlotLeaderBySlot st first second slotId = leaderOf (winner recency termOf (repliesOf second slotId)) := by
  refine leaderBySlot_eq (expectedReply_perm hfirst hexpect) ?_
  exact ids_of_replies fun e he => hinfos e (hsecond.subset he)

theorem slotLeader_greatest_iff (hmap : (infos.map Prod.fst).Nodup)
    (hne : repliesOf infos slotId ≠ []) : (∀ first second, first.Perm infos → second.Perm infos →
        ∃ log, Greatest recency (repliesOf infos slotId) (electionSlotLeaderBySlot st first second slotId, log)) ↔
      Undisputed recency termOf (repliesOf infos slotId) := by
  have hnodup : ((repliesOf infos slotId).map Prod.fst).Nodup := (ids_repliesOf slotId).nodup hmap
  have hleader {second : SlotLogInfos} (hsecond : second.Perm infos) := greatest_leaderOf_iff (ids_of_replies hinfos) hnodup
    fun w (hw : winner recency termOf (repliesOf second slotId) = some w) => (hsecond.filterMap _).subset (winner_mem hw)
  rw [← greatest_winner_iff hne]
  constructor
  · intro h ys hys
    obtain ⟨second, hsecond, rfl⟩ := exists_perm_filterMap hys infos rfl
    have hgreatest := h infos second (.refl _) hsecond
    rw [slotLeader_eq hinfos hexpect (.refl _) hsecond] at hgreatest
    exact (hleader hsecond).mp hgreatest
  · intro h first second hfirst hsecond
    rw [slotLeader_eq hinfos hexpect hfirst hsecond]
    exact (hleader hsecond).mpr (h _ (hsecond.filterMap _))

end

theorem channelLeader_greatest_iff (hids : ∀ r ∈ replies, r.1 ≠ 0) (hnodup : (replies.map Prod.fst).Nodup) :
    (∀ walk, walk.Perm replies → ∃ log, Greatest recency replies (electionNewLeader walk, log)) ↔
      Undisputed recency termOf (replies.filter hasLog) := by
  have hmem {walk : List Reply} (hwalk : walk.Perm replies) {w : Reply}
      (hw : winner recency termOf (walk.filter hasLog) = some w) : w ∈ replies.filter hasLog :=
    (hwalk.filter _).subset (winner_mem hw)
  have hleader {walk : List Reply} (hwalk : walk.Perm replies) :
      (∃ log, Greatest recency replies (electionNewLeader walk, log)) ↔
        ∃ w, winner recency termOf (walk.filter hasLog) = some w ∧ Greatest recency (replies.filter hasLog) w := by
    rw [electionNewLeader_eq, greatest_leaderOf_iff hids hnodup fun w hw => (mem_filter.mp (hmem hwalk hw)).1]
    refine exists_congr fun w => and_congr_right fun hw => (greatest_filter_iff (hmem hwalk hw)).symm
  by_cases hne : replies.filter hasLog = []
  · refine iff_of_false (fun h => ?_) ?_
    · obtain ⟨w, hw, -⟩ := (hleader (.refl _)).mp (h replies (.refl _))
      rw [hne] at hw
      cases hw
    · rintro ⟨r, hr, -⟩
      rw [hne] at hr
      cases hr
  · rw [← greatest_winner_iff hne]
    constructor
    · intro h ys hys
      rw [← filterMap_eq_filter] at hys
      obtain ⟨walk, hwalk, rfl⟩ := exists_perm_filterMap hys replies rfl
      rw [filterMap_eq_filter]
      exact (hleader hwalk).mp (h walk hwalk)
    · intro h walk hwalk
      exact (hleader hwalk).mpr (h _ (hwalk.filter _))

theorem channelLeader_eq_zero {walk : List Reply} (hids : ∀ r ∈ replies, r.1 ≠ 0)
    (hwalk : walk.Perm replies) : electionNewLeader walk = 0 ↔ ∀ r ∈ replies, hasLog r = false := by
  rw [electionNewLeader_eq, leaderOf_eq_zero fun r hr => hids r (hwalk.subset (mem_filter.mp hr).1), filter_eq_nil_iff]
  constructor
  · intro h r hr
    exact Bool.eq_false_iff.mpr (h r (hwalk.symm.subset hr))
  · intro h r hr
    exact Bool.eq_false_iff.mp (h r (hwalk.subset hr))

/-- Where the most recent log is not disputed, a channel's leader that was taken from the answers of
a majority is not behind any entry that a majority of the replicas has. -/
theorem elected_leader_has_stored_entries {replicas : List NodeId} {stored : Finset NodeId}
    (hstored : Majority replicas stored)
    (hanswered : Majority replicas (replies.map Prod.fst).toFinset) {entry : ℕ ×ₗ ℕ}
    (hentry : ∀ r ∈ replies, r.1 ∈ stored → entry ≤ recency r) (hids : ∀ r ∈ replies, r.1 ≠ 0)
    (hnodup : (replies.map Prod.fst).Nodup) (hbest : Undisputed recency termOf (replies.filter hasLog)) {walk : List Reply}
    (hwalk : walk.Perm replies) : ∃ log, (electionNewLeader walk, log) ∈ replies ∧
      entry ≤ recency (electionNewLeader walk, log) := by
  obtain ⟨log, hmem, hleader⟩ := (channelLeader_greatest_iff hids hnodup).mpr hbest walk hwalk
  obtain ⟨node, hnode, hreply⟩ := hstored.meet hanswered
  obtain ⟨r, hr, rfl⟩ := mem_map.mp (mem_toFinset.mp hreply)
  exact ⟨log, hmem, (hentry r hr hnode).trans (hleader r hr)⟩

/-- Nodes 1 and 2 of three answer, and nodes 2 and 3 have the entry. -/
theorem elected_leader_has_stored_entries_of_two :
    let replies : List Reply := [(1, ⟨10, 1, 2⟩), (2, ⟨12, 2, 2⟩)]
    ∃ log, (electionNewLeader replies, log) ∈ replies ∧ toLex (2, 12) ≤ recency (electionNewLeader replies, log) :=
  @elected_leader_has_stored_entries _ [1, 2, 3] {2, 3} ⟨by simp, by decide⟩ ⟨by simp, by decide⟩ _ (by decide) (by decide)
    (by decide) ⟨(2, ⟨12, 2, 2⟩), by decide⟩ _ (.refl _)

/-- A slot and a channel get a leader with a most recent log, in every order of the answers, exactly
when one answer is not behind any other in log and term; for a channel only the answers of replicas
with a log count. No leader is found for a slot when nobody answered, but for a channel when nobody
has a log. -/
theorem elected_leader_has_recent_log (st : Option Slot) (infos : SlotLogInfos) (slotId : SlotId) (replies : List Reply)
    (hinfos : ∀ e ∈ infos, e.1 ≠ 0) (hmap : (infos.map Prod.fst).Nodup) (hreplies : ∀ r ∈ replies, r.1 ≠ 0)
    (hnodup : (replies.map Prod.fst).Nodup) (hexpect : expectedReply st infos slotId = none)
    (hne : repliesOf infos slotId ≠ []) :
    ((∀ first second : SlotLogInfos, first.Perm infos → second.Perm infos →
        ∃ log, Greatest recency (repliesOf infos slotId) (electionSlotLeaderBySlot st first second slotId, log)) ↔
      Undisputed recency termOf (repliesOf infos slotId)) ∧
    ((∀ walk : List Reply, walk.Perm replies → ∃ log, Greatest recency replies (electionNewLeader walk, log)) ↔
      Undisputed recency termOf (replies.filter hasLog)) ∧
    (∀ first second : SlotLogInfos, first.Perm infos → second.Perm infos →
      electionSlotLeaderBySlot st first second slotId ≠ 0) ∧
    (∀ walk : List Reply, walk.Perm replies → (electionNewLeader walk = 0 ↔ ∀ r ∈ replies, hasLog r = false)) := by
  refine ⟨slotLeader_greatest_iff hinfos hexpect hmap hne, channelLeader_greatest_iff hreplies hnodup, ?_, ?_⟩
  · intro first second hfirst hsecond hzero
    rw [slotLeader_eq hinfos hexpect hfirst hsecond, leaderOf_eq_zero] at hzero
    · have hnil := (hsecond.filterMap fun e => (e.2 slotId).map fun info => (e.1, info.toLastLog)).symm
      exact hne (perm_nil.mp (hzero ▸ hnil))
    · exact ids_of_replies fun e he => hinfos e (hsecond.subset he)
  · intro walk hwalk
    exact channelLeader_eq_zero hreplies hwalk

private def answers (first second : LastLog) : SlotLogInfos :=
  [(1, fun slotId => some { first with slotId }), (2, fun slotId => some { second with slotId })]

/-- The first replica is in a higher term, so that the more recent log of the second one is passed
over; and a channel without logs gets no leader. -/
theorem elected_leader_has_recent_log_fails :
    (¬∀ infos : SlotLogInfos, (∀ e ∈ infos, e.1 ≠ 0) → (infos.map Prod.fst).Nodup → repliesOf infos 7 ≠ [] →
      ∃ log, Greatest recency (repliesOf infos 7) (electionSlotLeaderBySlot none infos infos 7, log)) ∧
    ¬∀ replies : List Reply, (∀ r ∈ replies, r.1 ≠ 0) → (replies.map Prod.fst).Nodup →
      replies ≠ [] → electionNewLeader replies ≠ 0 := by
  constructor
  · intro h
    have hids : ∀ e ∈ answers ⟨10, 1, 3⟩ ⟨12, 2, 2⟩, e.1 ≠ 0 := by simp [answers]
    obtain ⟨log, hmem, hbest⟩ := h (answers ⟨10, 1, 3⟩ ⟨12, 2, 2⟩) hids (by decide) (by decide)
    have hleader : electionSlotLeaderBySlot none (answers ⟨10, 1, 3⟩ ⟨12, 2, 2⟩) (answers ⟨10, 1, 3⟩ ⟨12, 2, 2⟩) 7 = 1 := by
      decide +kernel
    have hsecond := hbest (2, ⟨12, 2, 2⟩) (by simp [repliesOf, answers])
    rw [hleader] at hmem hsecond
    have hlog : log = ⟨10, 1, 3⟩ := by simpa [repliesOf, answers] using hmem
    rw [hlog, recency] at hsecond
    exact absurd hsecond (by decide)
  · intro h
    exact h [(1, {}), (2, {})] (by simp) (by decide) (by decide) (by decide +kernel)

theorem elected_leader_has_recent_log_of_two :
    ∃ log, Greatest recency (repliesOf (answers ⟨10, 1, 2⟩ ⟨12, 2, 2⟩) 7)
      (electionSlotLeaderBySlot none (answers ⟨10, 1, 2⟩ ⟨12, 2, 2⟩) (answers ⟨10, 1, 2⟩ ⟨12, 2, 2⟩) 7, log) := by
  have hids : ∀ e ∈ answers ⟨10, 1, 2⟩ ⟨12, 2, 2⟩, e.1 ≠ 0 := by simp [answers]
  have h := elected_leader_has_recent_log none (answers ⟨10, 1, 2⟩ ⟨12, 2, 2⟩) 7 [] hids
    (by decide) nofun .nil rfl (by decide)
  refine h.1.mpr ⟨(2, ⟨12, 2, 2⟩), by simp [repliesOf, answers], fun r hr => ?_⟩ _ _ (.refl _) (.refl _)
  have hr : r = (1, ⟨10, 1, 2⟩) ∨ r = (2, ⟨12, 2, 2⟩) := by simpa [repliesOf, answers] using hr
  rcases hr with rfl | rfl
  · exact ⟨by decide, by decide⟩
  · exact ⟨le_rfl, le_rfl⟩

end WuKongIM.Nodes

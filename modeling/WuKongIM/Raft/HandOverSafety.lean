import WuKongIM.Raft.HandOver
import WuKongIM.Raft.LogSteps

/-! What a new leader has when its configuration is saved. -/
namespace WuKongIM.Raft
open Lib Relation List Option
open HandOver (Start)

def Queue.Bounded (q : Queue) : Prop := q.storedIndex ≤ q.lastLogIndex ∧ q.committedIndex ≤ q.lastLogIndex

namespace Node
variable {n m : Node} {e : Event} {err : Option RaftError} {k : Node}

/-- The configuration and the end of the log stay, and no role request is sent. -/
structure Idle (n m : Node) : Prop where
  cfg : m.cfg = n.cfg
  last : m.queue.lastLogIndex = n.queue.lastLogIndex
  bounded : n.queue.Bounded → m.queue.Bounded
  roleRequests : m.roleRequests = n.roleRequests

theorem Idle.refl (n : Node) : Idle n n := ⟨rfl, rfl, id, rfl⟩

theorem Idle.trans (h : Idle n m) (h' : Idle m k) : Idle n k :=
  ⟨h'.cfg.trans h.cfg, h'.last.trans h.last, fun hb => h'.bounded (h.bounded hb), h'.roleRequests.trans h.roleRequests⟩

theorem Idle.of_core (hcore : m.toNodeCore = n.toNodeCore) (hevents : m.events = n.events) : Idle n m := by
  have hcfg : m.cfg = n.cfg := congrArg NodeCore.cfg hcore
  have hqueue : m.queue = n.queue := congrArg NodeCore.queue hcore
  refine ⟨hcfg, by rw [hqueue], fun hb => by rwa [hqueue], ?_⟩
  rw [Node.roleRequests, hevents, Node.roleRequests]

instance : Std.Refl Idle := ⟨Idle.refl⟩

instance : IsTrans Node Idle := ⟨fun _ _ _ => Idle.trans⟩

theorem idle_say (n : Node) (new : List Event) (h : ∀ e ∈ new, e.type.isRoleRequest = false) :
    Idle n { n with events := n.events ++ new } := by
  refine ⟨rfl, rfl, id, ?_⟩
  have hnone : new.filter (fun e => e.type.isRoleRequest) = [] := by
    rw [filter_eq_nil_iff]
    intro e he
    rw [h e he]
    exact Bool.false_ne_true
  rw [roleRequests, filter_append, hnone, append_nil, roleRequests]

theorem idle_emit (n : Node) (h : e.type.isRoleRequest = false) : Idle n (n.emit e) :=
  n.idle_say [e] fun _ hx => mem_singleton.mp hx ▸ h

theorem idle_calms (h : Calms Mild n m) : Idle n m := by
  refine reflTransGen_le_of_le (fun k j hx => ?_) n m h
  cases hx with
  | note h =>
    cases h with
    | keep hc he => exact .of_core hc he
    | record => exact .of_core rfl rfl
    | say new h => exact k.idle_say new fun e he => (h e he).2
  | fetch r info q hl hq =>
    refine Idle.trans ?_ (idle_emit _ (by rw [hq.1]; rfl))
    exact .of_core rfl rfl
  | commit i h hs => exact ⟨rfl, rfl, fun hb => ⟨hb.1, le_trans hs hb.1⟩, rfl⟩

theorem idle_fetchForReplica (n : Node) (e : Event) : Idle n (n.fetchForReplica e) := by
  rw [fetchForReplica]
  split
  · exact .of_core rfl rfl
  · refine Idle.trans ?_ (idle_emit _ rfl)
    exact .of_core rfl rfl

theorem idle_stored (h : n.stored e = some m) : Idle n m := by
  obtain ⟨-, rfl⟩ | ⟨-, hle, q, hq, rfl⟩ := stored_cases h
  · exact ⟨rfl, rfl, id, rfl⟩
  obtain ⟨-, rfl⟩ | ⟨-, -, -, rfl⟩ := Queue.storeTo_eq_some hq
  · exact ⟨rfl, rfl, id, rfl⟩
  · exact ⟨rfl, rfl, fun hb => ⟨hle, hb.2⟩, rfl⟩

structure Asked (cfg : Config) (r : Event) : Prop where
  member : r.fromNode = cfg.migrateTo
  learner : r.type = .learnerToLeaderReq → cfg.migrateTo ∈ cfg.learners
  follower : r.type = .followerToLeaderReq → cfg.migrateTo ∉ cfg.learners
  stays : r.type = .learnerToFollowerReq → cfg.migrateFrom ≠ cfg.leader

/-- A role is asked for in answer to a report of the member to which the group moves; for a new
leader, the member has to be as far as the leader. -/
structure Asks (n : Node) (e : Event) (m : Node) : Prop where
  cfg : m.cfg = n.cfg
  last : m.queue.lastLogIndex = n.queue.lastLogIndex
  bounded : n.queue.Bounded → m.queue.Bounded
  member : e.fromNode = n.cfg.migrateTo
  sent : ∃ r, m.roleRequests = n.roleRequests ++ [r] ∧ Asked n.cfg r ∧
    (r.type.asksForLeader = true → add64 n.queue.lastLogIndex 1 ≤ e.index)

theorem Idle.asks (h : Idle n m) (h' : Asks m e k) : Asks n e k := by
  obtain ⟨r, hsent, hasked, hreached⟩ := h'.sent
  refine ⟨h'.cfg.trans h.cfg, h'.last.trans h.last, fun hb => h'.bounded (h.bounded hb),
    h.cfg ▸ h'.member, r, ?_, h.cfg ▸ hasked, ?_⟩
  · rw [hsent, h.roleRequests]
  · rw [← h.last]
    exact hreached

theorem Asks.idle (h : Asks n e m) (h' : Idle m k) : Asks n e k := by
  obtain ⟨r, hsent, hrest⟩ := h.sent
  refine ⟨h'.cfg.trans h.cfg, h'.last.trans h.last, fun hb => h'.bounded (h.bounded hb), h.member, r, ?_, hrest⟩
  rw [h'.roleRequests, hsent]

theorem switchIfNeed_cases (n : Node) (e : Event) : Idle n (n.roleSwitchIfNeed e) ∨ Asks n e (n.roleSwitchIfNeed e) := by
  have hsent (r : Event) (hrole : r.type.isRoleRequest) (hasked : Asked n.cfg r) (hfrom : e.fromNode = n.cfg.migrateTo)
      (hreached : r.type.asksForLeader → add64 n.queue.lastLogIndex 1 ≤ e.index) :
      Asks n e ((n.setRoleSwitching e.fromNode true).emit r) := by
    have hset := idle_calms (n.notes_switching e.fromNode true).calms
    refine ⟨hset.cfg, hset.last, hset.bounded, hfrom, r, ?_, hasked, hreached⟩
    rw [roleRequests, emit, filter_append, filter_cons_of_pos (p := fun e : Event => e.type.isRoleRequest) hrole]
    exact congrArg (· ++ [r]) hset.roleRequests
  rw [roleSwitchIfNeed]
  split
  · exact .inl (.refl n)
  split
  · exact .inl (.refl n)
  rename_i hfrom
  have hfrom : e.fromNode = n.cfg.migrateTo := (not_not.mp hfrom).symm
  split
  · exact .inl (.refl n)
  split
  · next hlearner =>
    rw [hfrom, isLearner, contains_iff_mem] at hlearner
    split
    · split
      · next hreached => exact .inr (hsent _ rfl ⟨hfrom, fun _ => hlearner, by rintro ⟨⟩, by rintro ⟨⟩⟩ hfrom fun _ => hreached)
      · split
        · exact .inl (.of_core rfl rfl)
        · exact .inl (.refl n)
    · next hstays =>
      split
      · exact .inr (hsent _ rfl ⟨hfrom, by rintro ⟨⟩, by rintro ⟨⟩, fun _ => hstays⟩ hfrom (by rintro ⟨⟩))
      · split
        · exact .inr (hsent _ rfl ⟨hfrom, by rintro ⟨⟩, by rintro ⟨⟩, fun _ => hstays⟩ hfrom (by rintro ⟨⟩))
        · exact .inl (.refl n)
  · next hlearner =>
    rw [hfrom, isLearner, contains_iff_mem] at hlearner
    split
    · split
      · next hreached => exact .inr (hsent _ rfl ⟨hfrom, by rintro ⟨⟩, fun _ => hlearner, by rintro ⟨⟩⟩ hfrom fun _ => hreached)
      · split
        · exact .inl (.of_core rfl rfl)
        · exact .inl (.refl n)
    · exact .inl (.refl n)

theorem stepSyncReq_cases (n : Node) (e : Event) : Idle n (n.stepSyncReq e) ∨ Asks n e (n.stepSyncReq e) := by
  have hrecord : Idle n (n.recordSyncReq e) ∨ Asks n e (n.recordSyncReq e) := by
    have hcounted := idle_calms (n.calms_counted e)
    exact (switchIfNeed_cases _ e).imp hcounted.trans hcounted.asks
  have hanswer := idle_calms (notes_answerEmptySync (n.recordSyncReq e) e).calms
  rw [stepSyncReq]
  split
  · exact hrecord.imp (·.trans hanswer) (·.idle hanswer)
  · exact hrecord.imp (·.trans (idle_fetchForReplica _ e)) (·.idle (idle_fetchForReplica _ e))

theorem stepLeader_cases (hp : e.type ≠ .propose) (h : n.stepLeader e = some (m, err)) :
    Idle n m ∨ e.type = .syncReq ∧ Asks n e m := by
  rw [stepLeader] at h
  split at h
  case h_1 hpropose => exact absurd hpropose hp
  case h_2 hsync =>
    cases h
    exact (stepSyncReq_cases n e).imp_right fun hasks => ⟨hsync, hasks⟩
  case h_3 =>
    obtain ⟨k, hk, hm⟩ := map_eq_some_iff.mp h
    have hstored := idle_stored hk
    split at hm
    · cases hm
      refine .inl (hstored.trans (Idle.trans ?_ (idle_calms (notes_notifySync_all _).calms)))
      split
      · exact idle_calms k.calms_leaderCommit
      · exact .refl k
    · cases hm
      exact .inl hstored
  case h_4 =>
    cases h
    refine .inl (Idle.trans ?_ (idle_emit _ rfl))
    split
    · exact .refl n
    · exact .of_core rfl rfl
  case h_5 | h_6 | h_7 =>
    cases h
    refine .inl (Idle.trans ?_ (idle_calms (notes_switching _ e.fromNode false).calms))
    exact .of_core rfl rfl
  case h_8 =>
    cases h
    exact .inl (idle_emit n rfl)
  case h_9 =>
    cases h
    exact .inl (.refl n)

theorem stepLeader_propose (reqs : List ProposeReq)
    (hfits : n.stopPropose = false → n.queue.lastLogIndex + reqs.length ≤ maxUint64)
    (h : n.stepLeader { type := .propose, logs := logsFrom n.queue.lastLogIndex n.cfg.term reqs } = some (m, err)) :
    err ≠ none ∧ n.stopPropose ∧ m = n ∨ err = none ∧ n.stopPropose = false ∧ m.cfg = n.cfg ∧
      m.queue.lastLogIndex = n.queue.lastLogIndex + reqs.length ∧
        m.queue.storedIndex = n.queue.storedIndex ∧ m.queue.committedIndex = n.queue.committedIndex ∧
        m.roleRequests = n.roleRequests := by
  rw [stepLeader] at h
  dsimp only at h
  split at h
  · next hstop =>
    cases h
    exact .inl ⟨nofun, hstop, rfl⟩
  · next hstop =>
    have hstop := Bool.eq_false_iff.mpr hstop
    obtain ⟨⟨q, err'⟩, happend, hm⟩ := map_eq_some_iff.mp h
    cases hm
    have hfits := hfits hstop
    have hnumbered := numbered_logsFrom n.queue.lastLogIndex n.cfg.term reqs hfits
    have hlength := length_logsFrom n.queue.lastLogIndex n.cfg.term reqs
    right
    cases hlogs : logsFrom n.queue.lastLogIndex n.cfg.term reqs with
    | nil =>
      rw [hlogs] at happend hlength
      cases happend
      exact ⟨rfl, hstop, rfl, by rw [← hlength]; rfl, rfl, rfl, rfl⟩
    | cons first rest =>
      rw [hlogs] at happend hlength hnumbered
      have hfits : n.queue.Fits (first :: rest) := by rwa [Queue.Fits, hlength]
      rw [(Queue.append_next hnumbered hfits).1] at happend
      cases happend
      have hfirst : first.index = n.queue.lastLogIndex + 1 := hnumbered.1
      have hend := Queue.index_getLastD (hfirst ▸ hnumbered)
      refine ⟨rfl, hstop, rfl, ?_, rfl, rfl, rfl⟩
      change (rest.getLast?.getD first).index = _
      rw [← hlength, length_cons]
      omega

theorem idle_readyStore (h : n.readyStore = some m) : Idle n m := by
  obtain ⟨-, rfl⟩ | ⟨batch, -, -, -, -, rfl⟩ := readyStore_cases h
  · exact .refl m
  · refine Idle.trans ?_ (idle_emit _ rfl)
    exact ⟨rfl, rfl, id, rfl⟩

theorem idle_readyApply (n : Node) : Idle n n.readyApply := by
  obtain h | ⟨-, h⟩ := n.readyApply_cases
  · rw [h]
    exact .refl n
  · rw [h]
    refine Idle.trans ?_ (idle_emit _ rfl)
    exact ⟨rfl, rfl, id, rfl⟩

theorem ready_roleRequests {events : List Event} (h : n.ready = some (m, events)) :
    m.cfg = n.cfg ∧ m.queue.lastLogIndex = n.queue.lastLogIndex ∧ (n.queue.Bounded → m.queue.Bounded) ∧ m.roleRequests = [] ∧
      (events.filter fun e => e.type.isRoleRequest) = n.roleRequests := by
  obtain ⟨k, hk, hm⟩ := map_eq_some_iff.mp h
  have hidle := (idle_readyStore hk).trans (idle_readyApply k)
  cases hm
  exact ⟨hidle.cfg, hidle.last, hidle.bounded, rfl, hidle.roleRequests⟩

end Node

/-- The new leader has the later term unless it was a learner or the terms have run out. -/
def Config.RaisedBy (cfg cfg' : Config) : Prop :=
  cfg.term < cfg'.term ↔ cfg.migrateTo ∉ cfg.learners ∧ cfg.term ≠ maxUint32

theorem roleChange_leader {cfg cfg' : Config} {r : Event} (hasked : Node.Asked cfg r)
    (h : roleChange cfg r.type r.fromNode = some cfg')
    (hleader : cfg'.leader ≠ cfg.leader) :
    r.type.asksForLeader ∧ cfg'.leader = cfg.migrateTo ∧ cfg.RaisedBy cfg' := by
  have hlearn (h : learnTo cfg r.fromNode = some cfg') : cfg.migrateFrom = cfg.leader ∧
      cfg'.leader = cfg.migrateTo ∧ cfg'.term = cfg.term := by
    obtain ⟨-, hmembers, hterm⟩ := learnTo_eq_some h
    have hpromoted : cfg'.leader = if cfg.migrateFrom = cfg.leader then cfg.migrateTo else cfg.leader :=
      congrArg Membership.leader hmembers
    by_cases hmoves : cfg.migrateFrom = cfg.leader
    · rw [if_pos hmoves] at hpromoted
      exact ⟨hmoves, hpromoted, hterm⟩
    · rw [if_neg hmoves] at hpromoted
      exact absurd hpromoted hleader
  unfold roleChange at h
  split at h
  · next htype =>
    obtain ⟨-, hnew, hterm⟩ := hlearn h
    refine ⟨htype ▸ rfl, hnew, iff_of_false ?_ fun hx => hx.1 (hasked.learner htype)⟩
    rw [hterm]
    exact lt_irrefl _
  · next htype => exact absurd (hlearn h).1 (hasked.stays htype)
  · next htype =>
    obtain ⟨-, hmembers, hterm⟩ := followerToLeader_eq_some h
    have hnew : cfg'.leader = r.fromNode := congrArg Membership.leader hmembers
    refine ⟨htype ▸ rfl, hnew.trans hasked.member, ?_⟩
    rw [Config.RaisedBy, hterm, and_iff_right (hasked.follower htype), succ32]
    split
    · next hmax => exact iff_of_false (Nat.not_lt_zero _) (not_not.mpr hmax)
    · next hmax => exact iff_of_true (Nat.lt_succ_self _) hmax
  · cases h

namespace HandOver
variable {s t : HandOver}

/-- While another leader is under way, the target has the log of the leader, which does not grow any
more. -/
structure Inv (s : HandOver) : Prop where
  last : s.node.queue.lastLogIndex = s.log.length
  bounded : s.node.queue.Bounded
  asked : ∀ r ∈ s.node.roleRequests ++ s.requests, Node.Asked s.node.cfg r
  changed : ∀ cfg ∈ s.pending ++ s.saved.map Prod.fst, cfg.leader ≠ s.node.cfg.leader →
    cfg.leader = s.node.cfg.migrateTo ∧ s.node.cfg.RaisedBy cfg
  caught : s.underWay = true → s.target = s.log
  saved : ∀ c ∈ s.saved, c.1.leader ≠ s.node.cfg.leader → c.2 = s.log

theorem underWay_iff : s.underWay ↔ (∃ r ∈ s.node.roleRequests ++ s.requests, r.type.asksForLeader) ∨
      ∃ cfg ∈ s.pending ++ s.saved.map Prod.fst, cfg.leader ≠ s.node.cfg.leader := by
  simp only [underWay, Bool.or_eq_true, List.any_eq_true, decide_eq_true_eq]

theorem Start.inv (h : s.Start) : s.Inv := by
  have hnone : s.node.roleRequests ++ s.requests = [] := by rw [h.sent, h.requests, append_nil]
  have hnone' : s.pending ++ s.saved.map Prod.fst = [] := by rw [h.pending, h.saved, map_nil, append_nil]
  refine ⟨h.last, ⟨h.stored, h.committed⟩, ?_, ?_, fun hway => ?_, ?_⟩
  · rw [hnone]
    exact forall_mem_nil _
  · rw [hnone']
    exact nofun
  · rw [underWay_iff, hnone, hnone'] at hway
    rcases hway with ⟨r, hr, -⟩ | ⟨cfg, hcfg, -⟩
    · exact absurd hr not_mem_nil
    · exact absurd hcfg not_mem_nil
  · rw [h.saved]
    exact nofun

variable (h : s.Inv) {i : Nat}
include h

theorem Inv.next (hcfg : t.node.cfg = s.node.cfg) (hlast : t.node.queue.lastLogIndex = s.node.queue.lastLogIndex)
    (hbounded : t.node.queue.Bounded) (hlog : t.log = s.log)
    (hasked : ∀ r ∈ t.node.roleRequests ++ t.requests, r ∈ s.node.roleRequests ++ s.requests ∨ Node.Asked s.node.cfg r)
    (hchanged : ∀ cfg ∈ t.pending ++ t.saved.map Prod.fst, cfg.leader ≠ s.node.cfg.leader →
      cfg ∈ s.pending ++ s.saved.map Prod.fst ∨
        s.underWay ∧ cfg.leader = s.node.cfg.migrateTo ∧ s.node.cfg.RaisedBy cfg)
    (hcaught : t.underWay → s.underWay ∧ t.target = s.target ∨ t.target = t.log)
    (hsaved : ∀ c ∈ t.saved, c.1.leader ≠ s.node.cfg.leader → c ∈ s.saved ∨ c.2 = s.target ∧ s.underWay) : t.Inv := by
  refine ⟨by rw [hlast, hlog, h.last], hbounded, fun r hr => ?_, fun cfg hmem hleader => ?_,
    fun hway => ?_, fun c hc hleader => ?_⟩
  · rw [hcfg]
    exact (hasked r hr).elim (h.asked r) id
  · rw [hcfg] at hleader ⊢
    exact (hchanged cfg hmem hleader).elim (fun hold => h.changed cfg hold hleader) (·.2)
  · rcases hcaught hway with ⟨hway, htarget⟩ | htarget
    · rw [htarget, h.caught hway, hlog]
    · exact htarget
  · rw [hcfg] at hleader
    rw [hlog]
    rcases hsaved c hc hleader with hold | ⟨htarget, hway⟩
    · exact h.saved c hold hleader
    · rw [htarget, h.caught hway]

theorem Inv.propose {reqs : List ProposeReq} (hcareful : s.careful (.propose reqs))
    (hstep : s.step (.propose reqs) = some t) : t.Inv := by
  obtain ⟨⟨node, err⟩, hnode, rfl⟩ := map_eq_some_iff.mp hstep
  have hcareful (hstop : s.node.stopPropose = false) :
      s.underWay = false ∧ s.log.length + reqs.length ≤ maxUint64 := by
    rw [careful, hstop, Bool.false_or, Bool.and_eq_true, Bool.not_eq_true', decide_eq_true_eq] at hcareful
    exact hcareful
  rcases Node.stepLeader_propose reqs (fun hstop => h.last ▸ (hcareful hstop).2) hnode with
    ⟨herr, -, rfl⟩ | ⟨rfl, hstop, hcfg, hlast, hstored, hcommitted, hrequests⟩
  · rw [if_neg herr]
    exact h
  have hidle := (hcareful hstop).1
  have hnot : ¬s.underWay := Bool.eq_false_iff.mp hidle
  rw [underWay_iff] at hnot
  have hsame : underWay { s with node := node, log := s.log ++ logsFrom s.node.queue.lastLogIndex s.node.cfg.term reqs } = s.underWay := by
    simp only [underWay, hrequests, hcfg]
  refine ⟨?_, ?_, ?_, ?_, fun hway => ?_, fun c hc hleader => ?_⟩
  · rw [hlast, h.last, if_pos rfl, length_append, length_logsFrom]
  · obtain ⟨hb, hb'⟩ := h.bounded
    exact ⟨by rw [hlast, hstored]; omega, by rw [hlast, hcommitted]; omega⟩
  · rw [hrequests, hcfg]
    exact h.asked
  · rw [hcfg]
    exact h.changed
  · rw [if_pos rfl] at hway
    rw [hsame, hidle] at hway
    cases hway
  · rw [hcfg] at hleader
    exact absurd (.inr ⟨c.1, mem_append_right _ (mem_map_of_mem hc), hleader⟩) hnot

theorem Inv.deliver {e : Event} (hcareful : s.careful (.deliver e)) (hstep : s.step (.deliver e) = some t) : t.Inv := by
  rw [step] at hstep
  split at hstep
  · cases hstep
  rename_i hpropose
  obtain ⟨⟨node, err⟩, hnode, rfl⟩ := map_eq_some_iff.mp hstep
  rcases Node.stepLeader_cases hpropose hnode with hidle | ⟨hsync, hasks⟩
  · have hsame : underWay { s with node := node } = s.underWay := by simp only [underWay, hidle.roleRequests, hidle.cfg]
    refine h.next hidle.cfg hidle.last (hidle.bounded h.bounded) rfl ?_ (fun _ hcfg _ => .inl hcfg) ?_ fun _ hc _ => .inl hc
    · intro r hr
      rw [hidle.roleRequests] at hr
      exact .inl hr
    · intro hway
      exact .inl ⟨hsame ▸ hway, rfl⟩
  · obtain ⟨r, hsent, hasked, hreached⟩ := hasks.sent
    have hmem {r' : Event} (hr' : r' ∈ node.roleRequests ++ s.requests) :
        r' ∈ s.node.roleRequests ++ s.requests ∨ r' = r := by
      rw [hsent] at hr'
      simp only [mem_append, mem_singleton] at hr' ⊢
      tauto
    refine h.next hasks.cfg hasks.last (hasks.bounded h.bounded) rfl ?_ (fun _ hcfg _ => .inl hcfg) ?_ fun _ hc _ => .inl hc
    · intro r' hr'
      rcases hmem hr' with hold | rfl
      · exact .inl hold
      · exact .inr hasked
    · intro hway
      rcases underWay_iff.mp hway with ⟨r', hr', hasks'⟩ | ⟨cfg, hcfg, hleader⟩
      · rcases hmem hr' with hold | rfl
        · exact .inl ⟨underWay_iff.mpr (.inl ⟨r', hold, hasks'⟩), rfl⟩
        -- the target reports the end of its log, which is that of the leader
        right
        obtain ⟨hindex, hprefix, hroom⟩ := of_decide_eq_true hcareful hsync hasks.member
        have hlen := hreached hasks'
        rw [h.last, add64_of_le hroom] at hlen
        exact hprefix.eq_of_length_le (by omega)
      · have hcfg' : node.cfg = s.node.cfg := hasks.cfg
        refine .inl ⟨underWay_iff.mpr (.inr ⟨cfg, hcfg, ?_⟩), rfl⟩
        rwa [← hcfg']

theorem Inv.ready (hstep : s.step .ready = some t) : t.Inv := by
  obtain ⟨⟨node, events⟩, hnode, rfl⟩ := map_eq_some_iff.mp hstep
  obtain ⟨hcfg, hlast, hbounded, hnone, htaken⟩ := Node.ready_roleRequests hnode
  rw [htaken]
  have hmem {r : Event} (hr : r ∈ node.roleRequests ++ (s.requests ++ s.node.roleRequests)) :
      r ∈ s.node.roleRequests ++ s.requests := by
    rw [hnone, nil_append] at hr
    exact mem_append.mpr (mem_append.mp hr).symm
  refine h.next hcfg hlast (hbounded h.bounded) rfl (fun r hr => .inl (hmem hr))
    (fun _ hcfg _ => .inl hcfg) ?_ fun _ hc _ => .inl hc
  intro hway
  refine .inl ⟨underWay_iff.mpr ?_, rfl⟩
  rcases underWay_iff.mp hway with ⟨r, hr, hasks⟩ | ⟨cfg, hmem', hleader⟩
  · exact .inl ⟨r, hmem hr, hasks⟩
  · have hcfg' : node.cfg = s.node.cfg := hcfg
    exact .inr ⟨cfg, hmem', hcfg' ▸ hleader⟩

theorem Inv.target {target : List Log} (htarget : s.target = s.log → target = s.log) : Inv { s with target := target } := by
  refine h.next rfl rfl h.bounded rfl (fun r hr => .inl hr) (fun _ hcfg _ => .inl hcfg) ?_ fun _ hc _ => .inl hc
  intro hway
  exact .inr (htarget (h.caught hway))

theorem Inv.change (hstep : s.step (.change i) = some t) : t.Inv := by
  obtain ⟨e, he, rfl⟩ := map_eq_some_iff.mp hstep
  have hrequest : e ∈ s.node.roleRequests ++ s.requests := mem_append_right _ (mem_of_getElem? he)
  have hmem {r : Event} (hr : r ∈ s.node.roleRequests ++ s.requests.eraseIdx i) : r ∈ s.node.roleRequests ++ s.requests :=
    mem_append.mpr ((mem_append.mp hr).imp_right fun hr => (eraseIdx_sublist s.requests i).subset hr)
  have hnew {cfg : Config} (hcfg : cfg ∈ s.pending ++ (roleChange s.node.cfg e.type e.fromNode).toList ++ s.saved.map Prod.fst)
      (hleader : cfg.leader ≠ s.node.cfg.leader) :
      cfg ∈ s.pending ++ s.saved.map Prod.fst ∨ s.underWay ∧ cfg.leader = s.node.cfg.migrateTo ∧
        s.node.cfg.RaisedBy cfg := by
    rcases mem_append.mp hcfg with hcfg | hcfg
    · rcases mem_append.mp hcfg with hcfg | hcfg
      · exact .inl (mem_append_left _ hcfg)
      · obtain ⟨hasks, hrest⟩ := roleChange_leader (h.asked e hrequest) (mem_toList.mp hcfg) hleader
        exact .inr ⟨underWay_iff.mpr (.inl ⟨e, hrequest, hasks⟩), hrest⟩
    · exact .inl (mem_append_right _ hcfg)
  refine h.next rfl rfl h.bounded rfl (fun r hr => .inl (hmem hr))
    (fun cfg hcfg hleader => hnew hcfg hleader) ?_ fun _ hc _ => .inl hc
  intro hway
  refine .inl ⟨?_, rfl⟩
  rcases underWay_iff.mp hway with ⟨r, hr, hasks⟩ | ⟨cfg, hcfg, hleader⟩
  · exact underWay_iff.mpr (.inl ⟨r, hmem hr, hasks⟩)
  · rcases hnew hcfg hleader with hold | ⟨hway, -⟩
    · exact underWay_iff.mpr (.inr ⟨cfg, hold, hleader⟩)
    · exact hway

theorem Inv.save {succeeds : Bool} (hstep : s.step (.save i succeeds) = some t) : t.Inv := by
  obtain ⟨cfg, hcfg, rfl⟩ := map_eq_some_iff.mp hstep
  have hpending : cfg ∈ s.pending := mem_of_getElem? hcfg
  have hsaved {c : Config × List Log} (hc : c ∈ if succeeds then s.saved ++ [(cfg, s.target)] else s.saved) :
      c ∈ s.saved ∨ c = (cfg, s.target) := by
    cases succeeds with
    | false => exact .inl hc
    | true => exact (mem_append.mp hc).imp_right mem_singleton.mp
  have hmem {cfg' : Config} (hcfg' : cfg' ∈ s.pending.eraseIdx i ++ (if succeeds then s.saved ++ [(cfg, s.target)] else s.saved).map Prod.fst) :
      cfg' ∈ s.pending ++ s.saved.map Prod.fst := by
    rcases mem_append.mp hcfg' with hcfg' | hcfg'
    · exact mem_append_left _ ((eraseIdx_sublist s.pending i).subset hcfg')
    obtain ⟨c, hc, rfl⟩ := mem_map.mp hcfg'
    rcases hsaved hc with hold | rfl
    · exact mem_append_right _ (mem_map_of_mem hold)
    · exact mem_append_left _ hpending
  refine h.next rfl rfl h.bounded rfl (fun r hr => .inl hr) (fun cfg' hcfg' _ => .inl (hmem hcfg')) ?_ fun c hc hleader => ?_
  · intro hway
    refine .inl ⟨underWay_iff.mpr ?_, rfl⟩
    exact (underWay_iff.mp hway).imp_right fun ⟨cfg', hcfg', hleader⟩ => ⟨cfg', hmem hcfg', hleader⟩
  · rcases hsaved hc with hold | rfl
    · exact .inl hold
    · exact .inr ⟨rfl, underWay_iff.mpr (.inr ⟨cfg, mem_append_left _ hpending, hleader⟩)⟩

theorem Inv.step {a : HandOverStep} (hcareful : s.careful a) (hstep : s.step a = some t) : t.Inv := by
  cases a with
  | propose reqs => exact h.propose hcareful hstep
  | deliver e => exact h.deliver hcareful hstep
  | ready => exact h.ready hstep
  | fetch count =>
    cases hstep
    refine h.target fun hcaught => ?_
    rw [hcaught, drop_length, take_nil, append_nil]
  | truncate index =>
    rw [HandOver.step] at hstep
    split at hstep
    · cases hstep
    rename_i hdiffers
    cases hstep
    exact h.target fun hcaught => absurd (hcaught ▸ prefix_refl _) hdiffers
  | change i => exact h.change hstep
  | save i succeeds => exact h.save hstep

end HandOver

private def caughtUp : HandOver where
  node :=
    { opts := { nodeId := 1 }
      cfg := { migrateFrom := 1, migrateTo := 2, replicas := [1, 2, 3], role := .leader, term := 1, leader := 1 }
      stepFunc := .leader
      queue := newQueue 1 1 }
  log := [{ id := 7, index := 1, term := 1, data := [1] }]
  target := [{ id := 7, index := 1, term := 1, data := [1] }]

private theorem caughtUp_start : caughtUp.Start := ⟨rfl, by decide, by decide, rfl, rfl, rfl, rfl⟩

private def askedFor : List HandOverStep :=
  [.deliver { type := .syncReq, fromNode := 2, toNode := 1, index := 2, storedIndex := 2 }]

private def handedOver : List HandOverStep := [.ready, .change 0, .save 0 true]

end WuKongIM.Raft

import WuKongIM.Raft.QueueSpec
import WuKongIM.Raft.Quiet

/-! The small changes of which the steps of a node are made. -/
namespace WuKongIM.Raft
open Relation List Option
open ReflTransGen (head mono)

def EventType.isRoleRequest : EventType → Bool
  | .learnerToLeaderReq | .learnerToFollowerReq | .followerToLeaderReq => true
  | _ => false

/-- The events after which the role of a node may change. -/
def EventType.movesRole : EventType → Bool
  | .confChange | .campaign | .voteReq | .voteResp | .ping | .configResp => true
  | _ => false

def Node.getingLogs (n : Node) (r : Nat) : Bool := (n.replicaSync.lookup r).any (·.getingLogs)

/-- The node notes something, or sends others events of the kind `P`. -/
inductive Note (P : Event → Prop) (n : Node) : Node → Prop
  | keep {m : Node} (hc : m.toNodeCore = n.toNodeCore) (he : m.events = n.events) (hr : m.replicaSync = n.replicaSync) :
      Note P n m
  | record (r : Nat) (info : SyncInfo) (h : info.getingLogs = true → n.getingLogs r = true) :
      Note P n { n with replicaSync := n.replicaSync.insert r info }
  | say (new : List Event) (h : ∀ e ∈ new, Chatter n.toNodeCore e ∧ P e) : Note P n { n with events := n.events ++ new }

/-- The node keeps its role and its log. It may have logs fetched, or commit what is stored. -/
inductive Calm (P : Event → Prop) (n : Node) : Node → Prop
  | note {m : Node} (h : Note P n m) : Calm P n m
  | fetch (r : Nat) (info : SyncInfo) (q : Event) (hl : n.stepFunc = .leader) (hq : q.type = .getLogsReq ∧ q.fromNode = r) :
      Calm P n (({ n with replicaSync := n.replicaSync.insert r info } : Node).emit q)
  | commit (i : Nat) (h : n.queue.committedIndex < i) (hs : i ≤ n.queue.storedIndex) :
      Calm P n { n with queue := { n.queue with committedIndex := i } }

/-- The node keeps its role. -/
inductive LogChange (n : Node) : Node → Prop
  | calm {m : Node} (h : Calm (fun _ => True) n m) : LogChange n m
  | queue (q : Queue) (h : n.queue.SameApplied q) : LogChange n { n with queue := q }
  | truncating (b : Bool) : LogChange n { n with truncating := b }
  | order (i : Nat) : LogChange n (n.sendTruncateReq i)

/-- The node keeps its log. Terms do not go back if `T` holds. -/
inductive RoleMove (T : Prop) (n : Node) : Node → Prop
  | calm {m : Node} (h : Calm (fun _ => True) n m) : RoleMove T n m
  | become {m : Node} (he : m.events = n.events) (hq : m.queue = n.queue) (hs : m.lastTermStartIndex = n.lastTermStartIndex)
      (ht : m.truncating = n.truncating) (hr : m.replicaSync = ∅) (hf : n.stepFunc ≠ .unknown → m.stepFunc ≠ .unknown)
      (hterm : T → n.cfg.term ≤ m.cfg.term) (hv : n.cfg.version ≤ m.cfg.version) : RoleMove T n m
  | vote {m : Node} (new : List Event) (he : m.events = n.events ++ new)
      (hnew : ∀ e ∈ new, e.type = .voteReq ∨ e.type = .voteResp)
      (hc : m.cfg = n.cfg) (hf : m.stepFunc = n.stepFunc) (hq : m.queue = n.queue)
        (hs : m.lastTermStartIndex = n.lastTermStartIndex)
      (ht : m.truncating = n.truncating) (hr : m.replicaSync = n.replicaSync) : RoleMove T n m

inductive Change (T : Prop) (n : Node) : Node → Prop
  | log {m : Node} (h : LogChange n m) : Change T n m
  | role {m : Node} (h : RoleMove T n m) : Change T n m

/-- Followers and learners synchronise their log with the leader's. -/
def Node.synchronises (n : Node) : Bool := n.stepFunc == .follower || n.stepFunc == .learner

def Node.stores (n : Node) : Bool := n.synchronises || n.stepFunc == .leader

def Node.appends (n : Node) (e : Event) : Bool :=
  (n.stepFunc == .leader && e.type == .propose && !n.stopPropose) ||
    (n.synchronises && e.type == .syncResp && e.reason == .ok)

/-- What an event of the node's own term does to the log, before anything that leaves the log
alone. -/
inductive LogOp (n : Node) (e : Event) : Node → Prop
  | same (hs : e.type = .storeResp → n.stores = false) (ht : e.type = .truncateResp → n.synchronises = false) : LogOp n e n
  | append (q : Queue) (err : Option RaftError) (ha : n.appends e = true) (h : n.queue.append e.logs = some (q, err)) :
      LogOp n e { n with queue := q }
  | order (hs : n.synchronises = true) (he : e.type = .syncResp ∧ e.reason = .truncate) (ht : n.truncating = false) :
      LogOp n e ({ n with truncating := true }.sendTruncateReq e.index)
  | cut (q : Queue) (hs : n.synchronises = true) (he : e.type = .truncateResp ∧ e.reason = .ok)
      (hi : e.index < n.queue.lastLogIndex) (h : n.queue.truncateLogTo e.index = some q) :
      LogOp n e { n with truncating := false, queue := q }
  | uncut (hs : n.synchronises = true) (he : e.type = .truncateResp) (hi : e.reason = .ok → n.queue.lastLogIndex ≤ e.index) :
      LogOp n e { n with truncating := false }
  | stored (q : Queue) (hs : n.stores = true) (he : e.type = .storeResp ∧ e.reason = .ok)
      (hi : e.index ≤ n.queue.lastLogIndex) (h : n.queue.storeTo e.index = some q) : LogOp n e { n with queue := q }
  | unstored (hs : n.stores = true) (he : e.type = .storeResp ∧ e.reason ≠ .ok) :
      LogOp n e { n with queue := { n.queue with appending := false } }

abbrev Notes (P : Event → Prop) : Node → Node → Prop := ReflTransGen (Note P)

abbrev Calms (P : Event → Prop) : Node → Node → Prop := ReflTransGen (Calm P)

abbrev LogChanges : Node → Node → Prop := ReflTransGen LogChange

abbrev RoleMoves (T : Prop) : Node → Node → Prop := ReflTransGen (RoleMove T)

abbrev Changes (T : Prop) : Node → Node → Prop := ReflTransGen (Change T)

def LogStep (n : Node) (e : Event) (m : Node) : Prop := ∃ k, LogOp n e k ∧ Calms (fun _ => True) k m

/-- Requests for other roles are not said. -/
def Mild (e : Event) : Prop := e.type.isRoleRequest = false

variable {P : Event → Prop} {T : Prop} {e : Event}

variable {n m : Node}

theorem Note.quiet (h : Note P n m) : Quiet n m := by
  cases h with
  | keep hc he => exact .of_events hc he
  | record => exact .of_events rfl rfl
  | say new h => exact ⟨rfl, new, rfl, fun e he => (h e he).1⟩

theorem Notes.quiet (h : Notes P n m) : Quiet n m :=
  reflTransGen_le_of_le (r := Quiet) (fun _ _ hx => Note.quiet hx) n m h

theorem Note.any (h : Note P n m) : Note (fun _ => True) n m := by
  cases h with
  | keep hc he hr => exact .keep hc he hr
  | record r info h => exact .record r info h
  | say new h => exact .say new fun e he => ⟨(h e he).1, trivial⟩

theorem Calm.any (h : Calm P n m) : Calm (fun _ => True) n m := by
  cases h with
  | note h => exact .note h.any
  | fetch r info q hl hq => exact .fetch r info q hl hq
  | commit i h hs => exact .commit i h hs

theorem Notes.calms (h : Notes P n m) : Calms P n m := mono (fun _ _ => Calm.note) _ _ h

theorem Calms.any (h : Calms P n m) : Calms (fun _ => True) n m := mono (fun _ _ h => h.any) _ _ h

theorem Calms.log (h : Calms P n m) : LogChanges n m := mono (fun _ _ h => .calm h.any) _ _ h

theorem Calms.role (h : Calms P n m) : RoleMoves T n m := mono (fun _ _ h => .calm h.any) _ _ h

theorem Notes.log (h : Notes P n m) : LogChanges n m := h.calms.log

theorem LogOp.log (h : LogOp n e m) : LogChanges n m := by
  cases h with
  | same => exact .refl
  | append q _ _ h => exact .single (.queue q (Queue.append_sameApplied h))
  | order => exact .tail (.single (.truncating true)) (.order e.index)
  | cut q _ _ _ h => exact .tail (.single (.truncating false)) (.queue q (Queue.truncate_sameApplied h))
  | uncut => exact .single (.truncating false)
  | stored q _ _ _ h => exact .single (.queue q (Queue.storeTo_sameApplied h))
  | unstored => exact .single (.queue _ ⟨rfl, rfl, rfl⟩)

theorem LogStep.log (h : LogStep n e m) : LogChanges n m := by
  obtain ⟨k, hop, hcalm⟩ := h
  exact hop.log.trans hcalm.log

theorem LogStep.calms {k : Node} (h : LogStep n e k) (hk : Calms P k m) : LogStep n e m := by
  obtain ⟨j, hop, hcalm⟩ := h
  exact ⟨j, hop, hcalm.trans hk.any⟩

theorem LogStep.keep {k : Node} (h : LogStep n e k) (hc : m.toNodeCore = k.toNodeCore) (he : m.events = k.events)
    (hr : m.replicaSync = k.replicaSync) : LogStep n e m := h.calms (P := Mild) (.single (.note (.keep hc he hr)))

theorem LogOp.step (h : LogOp n e m) : LogStep n e m := ⟨m, h, .refl⟩

theorem LogStep.of_type {type : EventType} (he : e.type = type) (hs : type ≠ .storeResp)
    (ht : type ≠ .truncateResp) : LogStep n e n :=
  LogOp.step (.same (fun hx => absurd (he.symm.trans hx) hs) fun hx => absurd (he.symm.trans hx) ht)

theorem LogChanges.change (h : LogChanges n m) : Changes T n m := mono (fun _ _ => .log) _ _ h

theorem RoleMoves.change (h : RoleMoves T n m) : Changes T n m := mono (fun _ _ => .role) _ _ h

theorem Notes.of_core (hc : m.toNodeCore = n.toNodeCore) (he : m.events = n.events)
    (hr : m.replicaSync = n.replicaSync) : Notes P n m := .single (.keep hc he hr)

theorem Notes.emit (h : Notes P n m) (he : Chatter n.toNodeCore e) (hs : P e) : Notes P n (m.emit e) := by
  refine h.tail (.say [e] fun x hx => ?_)
  rw [mem_singleton.mp hx, h.quiet.core]
  exact ⟨he, hs⟩

theorem Notes.of_emit (he : Chatter n.toNodeCore e) (hs : P e) : Notes P n (n.emit e) := .emit .refl he hs

theorem reflTransGen_foldl {σ α : Type} {r : σ → σ → Prop} {f : σ → α → σ} {l : List α} {s : σ}
    (h : ∀ t, ReflTransGen r s t → ∀ a ∈ l, ReflTransGen r t (f t a)) : ReflTransGen r s (l.foldl f s) := by
  have main : ∀ t, ReflTransGen r s t → ReflTransGen r s (l.foldl f t) := by
    induction l with
    | nil => exact fun t ht => ht
    | cons a l ih =>
      intro t ht
      exact ih (fun u hu b hb => h u hu b (.tail a hb)) _ (ht.trans (h t ht a (.head l)))
  exact main s .refl

namespace Node
variable (n : Node)

theorem notes_publish : Notes P n n.publishReadState := .of_core rfl rfl rfl

theorem notes_unsuspend (replicaId : Nat) : Notes P n (n.unsuspend replicaId) := by
  unfold unsuspend
  split
  · exact .refl
  · rename_i info hl
    exact .single (.record replicaId _ fun h => by rwa [getingLogs, hl])

theorem notes_switching (nodeId : Nat) (b : Bool) : Notes P n (n.setRoleSwitching nodeId b) := by
  unfold setRoleSwitching
  split
  · exact .refl
  · rename_i info hl
    exact .single (.record nodeId _ fun h => by rwa [getingLogs, hl])

theorem getingLogs_of_lookup {r : Nat} (h : ((n.replicaSync.lookup r).getD {}).getingLogs) : n.getingLogs r := by
  unfold getingLogs
  cases hl : n.replicaSync.lookup r with
  | none =>
    rw [hl] at h
    cases h
  | some info =>
    rw [hl] at h
    exact h

theorem notes_notifySync_all : Notes Mild n (n.sendNotifySync allId) := by
  refine reflTransGen_foldl fun m _ replicaId _ => ?_
  split
  · exact .refl
  · rename_i hne
    exact (m.notes_unsuspend replicaId).emit (.notifySync replicaId hne) rfl

theorem notes_sendSyncReq : Notes Mild n n.sendSyncReq := by
  unfold sendSyncReq
  split
  · exact .refl
  · refine Notes.emit ?_ (.syncReq _) rfl
    exact .of_core rfl rfl rfl

theorem notes_sendPing (target : Nat)
    (h : target = allId ∨ target ≠ n.opts.nodeId ∧ target ∈ n.cfg.replicas ++ n.cfg.learners) :
      Notes Mild n (n.sendPing target) := by
  unfold sendPing
  split
  · exact .refl
  rename_i hl
  have hl : n.cfg.leader = n.opts.nodeId := not_not.mp hl
  split
  · rename_i ha
    obtain ⟨hne, hm⟩ := h.resolve_left ha
    exact .of_emit (.ping target _ _ hne hm hl le_rfl le_rfl) rfl
  · refine .single (.say _ fun e he => ?_)
    obtain ⟨replicaId, hr, rfl⟩ := mem_map.mp he
    obtain ⟨hin, hne⟩ := mem_filter.mp hr
    exact ⟨.ping replicaId 0 0 (by simpa using hne) hin hl (Nat.zero_le _) (Nat.zero_le _), rfl⟩

theorem notes_sendSyncResp (target syncIndex : Nat) (logs : List Log) (reason : Reason) (speed : Speed) :
    Notes Mild n (n.sendSyncResp target syncIndex logs reason speed) := .of_emit (.syncResp ..) rfl

theorem notes_sendConfigReq : Notes Mild n n.sendConfigReq := .of_emit .configReq rfl

theorem notes_sendConfigResp (target : Nat) (cfg : Config) : Notes Mild n (n.sendConfigResp target cfg) :=
  .of_emit (.configResp target cfg) rfl

theorem notes_switchIfNeed (e : Event) : Notes (fun _ => True) n (n.roleSwitchIfNeed e) := by
  have switch : Notes (fun _ => True) n (n.setRoleSwitching e.fromNode true) := n.notes_switching e.fromNode true
  unfold roleSwitchIfNeed
  repeat' split
  all_goals first
    | exact .refl
    | exact .of_core rfl rfl rfl
    | exact switch.emit (.learnerToLeaderReq _) trivial
    | exact switch.emit (.learnerToFollowerReq _) trivial
    | exact switch.emit (.followerToLeaderReq _) trivial

theorem notes_answerEmptySync (e : Event) : Notes Mild n (n.answerEmptySync e) := by
  unfold answerEmptySync
  split
  · refine Notes.emit ?_ (.syncResp ..) rfl
    exact .single (.record e.fromNode _ n.getingLogs_of_lookup)
  · exact n.notes_sendSyncResp ..

theorem notes_rejectLowerTerm (e : Event) : Notes Mild n (n.rejectLowerTerm e) := by
  unfold rejectLowerTerm
  repeat' split
  all_goals first
    | exact .refl
    | exact .of_emit (.termResp _) rfl

theorem notes_rejected (e : Event) : Notes Mild n (n.rejectLowerTerm e).publishReadState :=
  (n.notes_rejectLowerTerm e).trans (notes_publish _)

theorem quiet_publish : Quiet n n.publishReadState := .of_events rfl rfl

theorem notes_tickSync : Notes Mild n n.tickSync := by
  unfold tickSync
  split
  · dsimp only
    split <;> exact .of_core rfl rfl rfl
  dsimp only
  split
  · split
    · exact .of_core rfl rfl rfl
    have h := notes_sendSyncReq { n with syncElapsed := n.syncElapsed + 1 }
    refine head ?_ (h.tail ?_)
    all_goals exact .keep rfl rfl rfl
  · exact .of_core rfl rfl rfl

theorem notes_tickHeartbeat : Notes Mild n n.tickHeartbeat := by
  unfold tickHeartbeat
  split
  · dsimp only
    split
    · refine head ?_ (notes_sendPing _ allId (.inl rfl))
      exact .keep rfl rfl rfl
    · exact .of_core rfl rfl rfl
  · refine reflTransGen_foldl fun m hm replicaId hr => ?_
    split
    · exact .refl
    rename_i hne
    have hmem : replicaId ∈ m.cfg.replicas ++ m.cfg.learners := by rwa [(Notes.quiet hm).core]
    have hrecord (info : SyncInfo) (hi : info.getingLogs = ((m.replicaSync.lookup replicaId).getD {}).getingLogs) :
        Note Mild m { m with replicaSync := m.replicaSync.insert replicaId info } :=
      .record replicaId info fun hx => m.getingLogs_of_lookup (hi ▸ hx)
    unfold sendPingIfNeed
    dsimp only
    split
    · refine ReflTransGen.trans ?_ (notes_sendPing _ replicaId (.inr ⟨hne, hmem⟩))
      exact .single (hrecord _ rfl)
    · exact .single (hrecord _ rfl)

theorem notes_tickIdle : Notes Mild n n.tickIdle := by
  unfold tickIdle
  dsimp only
  split
  · refine Notes.emit ?_ .destory rfl
    exact .of_core rfl rfl rfl
  · exact .of_core rfl rfl rfl

theorem notes_tickLearner : Notes Mild n n.tickLearner := by
  unfold tickLearner
  split
  · exact .refl
  · exact n.notes_tickSync

theorem forLeader_le (h : n.queue.committedIndex < n.committedIndexForLeader) :
    n.committedIndexForLeader ≤ n.queue.storedIndex := by
  unfold committedIndexForLeader at h ⊢
  split
  · exact le_refl _
  rename_i hquorum
  rw [if_neg hquorum] at h
  dsimp only at h ⊢
  split
  · exact Nat.min_le_right _ _
  · rename_i hold
    rw [if_neg hold] at h
    exact absurd h (lt_irrefl _)

theorem calms_leaderCommit : Calms P n n.updateLeaderCommittedIndex := by
  unfold updateLeaderCommittedIndex
  dsimp only
  split
  · rename_i hmore
    exact .single (.commit _ hmore (n.forLeader_le hmore))
  · exact .refl

theorem calms_followCommit (i : Nat) : Calms P n (n.updateFollowCommittedIndex i) := by
  unfold updateFollowCommittedIndex
  dsimp only
  split
  · exact .refl
  rename_i hnew
  split
  · rename_i hmore
    refine .single (.commit _ hmore ?_)
    rw [committedIndexForFollow, if_pos (Nat.lt_of_not_le fun hx => hnew (.inr hx))]
    exact Nat.min_le_right _ _
  · exact .refl

theorem calms_fetchForReplica (hl : n.stepFunc = .leader) (e : Event) : Calms P n (n.fetchForReplica e) := by
  unfold fetchForReplica
  dsimp only
  split
  · rename_i hg
    exact .single (.note (.record e.fromNode _ fun _ => n.getingLogs_of_lookup hg))
  · exact .single (.fetch e.fromNode _ _ hl ⟨rfl, rfl⟩)

theorem calms_counted (e : Event) : Calms P n (if n.isLearner e.fromNode then { n with idleTick := 0 }.updateSyncInfo e
    else ({ n with idleTick := 0 }.updateSyncInfo e).updateLeaderCommittedIndex) := by
  have hinfo : Calms P n ({ n with idleTick := 0 }.updateSyncInfo e) := by
    refine head (.note (.keep (m := { n with idleTick := 0 }) rfl rfl rfl)) (.single (.note ?_))
    exact .record e.fromNode _ (getingLogs_of_lookup _)
  split
  · exact hinfo
  · exact hinfo.trans (calms_leaderCommit _)

theorem calms_recordSyncReq (e : Event) : Calms (fun _ => True) n (n.recordSyncReq e) :=
  (n.calms_counted e).trans (notes_switchIfNeed _ e).calms

theorem calms_hearPing (e : Event) : Calms Mild n (n.hearPing e) := by
  have hcommit : Calms Mild n { n.updateFollowCommittedIndex e.committedIndex with idleTick := 0 } :=
    (n.calms_followCommit e.committedIndex).tail (.note (.keep rfl rfl rfl))
  unfold hearPing
  dsimp only
  split
  · exact hcommit.trans (notes_sendConfigReq _).calms
  · exact hcommit

variable {n} {err : Option RaftError}

theorem stepFunc_calms (h : Calms P n m) : m.stepFunc = n.stepFunc := by
  induction h with
  | refl => rfl
  | tail _ h ih =>
    refine Eq.trans ?_ ih
    cases h with
    | note h => rw [h.quiet.core]
    | fetch | commit => rfl

theorem calms_stepSyncReq (hl : n.stepFunc = .leader) (e : Event) : Calms (fun _ => True) n (n.stepSyncReq e) := by
  have hrecord := n.calms_recordSyncReq e
  unfold stepSyncReq
  dsimp only
  split
  · exact hrecord.trans (notes_answerEmptySync _ e).calms.any
  · exact hrecord.trans (calms_fetchForReplica _ ((stepFunc_calms hrecord).trans hl) e)

theorem stored_cases (h : n.stored e = some m) : e.reason ≠ .ok ∧
    m = { n with queue := { n.queue with appending := false } } ∨
    e.reason = .ok ∧ e.index ≤ n.queue.lastLogIndex ∧ ∃ q, n.queue.storeTo e.index = some q ∧ m = { n with queue := q } := by
  unfold stored at h
  dsimp only at h
  split at h
  · rename_i hr
    cases h
    exact .inl ⟨hr, rfl⟩
  rename_i hr
  split at h
  · cases h
  rename_i hi
  obtain ⟨q, hq, rfl⟩ := map_eq_some_iff.mp h
  -- `storeTo` clears the flag once more, so the queue may as well not have been touched before
  exact .inr ⟨not_not.mp hr, Nat.le_of_not_lt hi, q, hq, rfl⟩

theorem stored_logStep (hs : n.stores) (ht : e.type = .storeResp) (h : n.stored e = some m) : LogStep n e m := by
  obtain ⟨hr, rfl⟩ | ⟨hr, hi, q, hq, rfl⟩ := stored_cases h
  · exact LogOp.step (.unstored hs ⟨ht, hr⟩)
  · exact LogOp.step (.stored q hs ⟨ht, hr⟩ hi hq)

theorem stepLeader_logStep (hl : n.stepFunc = .leader) (h : n.stepLeader e = some (m, err)) : LogStep n e m := by
  unfold stepLeader at h
  split at h
  case h_1 ht =>
    split at h
    · cases h
      exact .of_type ht nofun nofun
    · rename_i hp
      obtain ⟨⟨q, err'⟩, hq, he⟩ := map_eq_some_iff.mp h
      have hop : LogOp n e _ := .append q err' (by simp [appends, hl, ht, hp]) hq
      cases he
      exact hop.step.keep rfl rfl rfl
  case h_2 ht =>
    cases h
    exact (LogStep.of_type ht nofun nofun).calms (calms_stepSyncReq hl e)
  case h_3 ht =>
    obtain ⟨k, hk, he⟩ := map_eq_some_iff.mp h
    have hs := stored_logStep (by simp [stores, hl]) ht hk
    split at he
    · cases he
      refine LogStep.calms ?_ (notes_notifySync_all _).calms
      split
      · exact hs.calms (P := Mild) k.calms_leaderCommit
      · exact hs
    · cases he
      exact hs
  case h_4 ht =>
    cases h
    refine (LogStep.of_type ht nofun nofun).calms (Notes.calms (ReflTransGen.trans ?_ (notes_sendSyncResp _ _ _ _ _ _)))
    split
    · exact .refl
    · exact .single (.record _ _ nofun)
  case h_5 ht | h_6 ht | h_7 ht =>
    cases h
    refine LogStep.calms ?_ (Notes.calms (P := Mild) (notes_switching _ _ _))
    exact (LogStep.of_type ht nofun nofun).keep rfl rfl rfl
  case h_8 ht =>
    cases h
    exact (LogStep.of_type ht nofun nofun).calms (n.notes_sendConfigResp _ _).calms
  case h_9 _ _ hns _ _ _ _ _ =>
    cases h
    exact LogOp.step (.same (fun hx => absurd hx hns) fun _ => by simp [synchronises, hl])

section
variable (hs : n.synchronises = true)
include hs

theorem stepSyncResp_logStep (ht : e.type = .syncResp) (h : n.stepSyncResp e = some (m, err)) : LogStep n e m := by
  have hsame : LogStep n e n := .of_type ht nofun nofun
  unfold stepSyncResp at h
  dsimp only at h
  split at h
  case h_1 hr =>
    split at h
    · obtain ⟨⟨q, err'⟩, hq, he⟩ := map_eq_some_iff.mp h
      have hop : LogOp n e _ := .append q err' (by simp [appends, hs, ht, hr]) hq
      split at he
      · cases he
        exact hop.step.keep rfl rfl rfl
      · cases he
        refine LogStep.calms (P := Mild) ?_ (calms_followCommit _ _)
        exact hop.step.keep rfl rfl rfl
    · cases h
      refine LogStep.calms (P := Mild) ?_ (calms_followCommit _ _)
      exact hsame.keep rfl rfl rfl
  case h_2 hr =>
    split at h
    · cases h
      exact hsame.keep rfl rfl rfl
    rename_i hn
    cases h
    have hop : LogOp n e _ := .order hs ⟨ht, hr⟩ (Bool.not_eq_true _ ▸ hn)
    exact hop.step.keep rfl rfl rfl
  case h_3 =>
    cases h
    exact hsame.keep rfl rfl rfl

theorem stepTruncateResp_logStep (ht : e.type = .truncateResp)
    (h : n.stepTruncateResp e = some (m, err)) : LogStep n e m := by
  unfold stepTruncateResp at h
  dsimp only at h
  split at h
  · rename_i hr
    split at h
    · rename_i hi
      obtain ⟨q, hq, he⟩ := map_eq_some_iff.mp h
      cases he
      exact (LogOp.step (.cut q hs ⟨ht, hr⟩ hi hq)).calms (notes_sendSyncReq _).calms
    · rename_i hi
      cases h
      exact (LogOp.step (.uncut hs ht fun _ => Nat.le_of_not_lt hi)).calms (notes_sendSyncReq _).calms
  · rename_i hr
    cases h
    exact LogOp.step (.uncut hs ht fun hx => absurd hx hr)

theorem storeResp_logStep (ht : e.type = .storeResp) (h : n.stepStoreRespFollow e = some (m, err)) : LogStep n e m := by
  obtain ⟨k, hk, he⟩ := map_eq_some_iff.mp h
  have hstored := stored_logStep (by simp [stores, hs]) ht hk
  cases he
  split
  · exact hstored.calms k.notes_sendSyncReq.calms
  · exact hstored

end

section
variable (hp : e.type ≠ .ping)
include hp

/-- A learner does what a follower does, but for heartbeats and for a suspension when it is told to
synchronise. -/
theorem stepLearner_eq (hn : e.type ≠ .notifySync) : n.stepLearner e = n.stepFollower e := by
  unfold stepLearner stepFollower
  split
  case h_2 => contradiction
  case h_3 => contradiction
  all_goals rfl

variable (hs : n.synchronises = true) (hc : e.type ≠ .configResp)
include hs hc

theorem stepFollower_logStep (h : n.stepFollower e = some (m, err)) : LogStep n e m := by
  unfold stepFollower at h
  split at h
  case h_1 ht =>
    cases h
    exact .of_type ht nofun nofun
  case h_2 => contradiction
  case h_3 ht =>
    cases h
    refine LogStep.calms ?_ (notes_sendSyncReq _).calms
    exact (LogStep.of_type ht nofun nofun).keep rfl rfl rfl
  case h_4 ht => exact stepSyncResp_logStep hs ht h
  case h_5 ht => exact stepTruncateResp_logStep hs ht h
  case h_6 ht => exact storeResp_logStep hs ht h
  case h_7 => contradiction
  case h_8 =>
    cases h
    exact .of_type rfl ‹_› ‹_›

theorem stepLearner_logStep (h : n.stepLearner e = some (m, err)) : LogStep n e m := by
  by_cases hn : e.type = .notifySync
  · rw [stepLearner, hn] at h
    cases h
    refine LogStep.calms ?_ (notes_sendSyncReq _).calms
    exact (LogStep.of_type hn nofun nofun).keep rfl rfl rfl
  · exact stepFollower_logStep hp hs hc (stepLearner_eq hp hn ▸ h)

end

variable {term : Nat}

theorem role_becomeFollower (h : T → n.cfg.term ≤ term) (leader : Nat) :
    RoleMoves T n (n.becomeFollower term leader) := .single (.become rfl rfl rfl rfl rfl nofun h (le_refl _))

theorem role_becomeLearner (h : T → n.cfg.term ≤ term) (leader : Nat) :
    RoleMoves T n (n.becomeLearner term leader) := .single (.become rfl rfl rfl rfl rfl nofun h (le_refl _))

theorem role_becomeLeader (h : T → n.cfg.term ≤ term) : RoleMoves T n (n.becomeLeader term) :=
  .single (.become rfl rfl rfl rfl rfl nofun h (le_refl _))

theorem role_roleChangeIfNeed {cfg : Config} (n : Node) (old : Config) (h : n.cfg.term ≤ cfg.term) :
    RoleMoves T n (n.roleChangeIfNeed old cfg) := by
  unfold roleChangeIfNeed
  repeat' split
  all_goals first
    | exact .refl
    | exact role_becomeLeader fun _ => h
    | exact role_becomeFollower (fun _ => h) _
    | exact role_becomeLearner (fun _ => h) _

theorem completeConfig_term (n : Node) (cfg : Config) :
    n.cfg.term ≤ (n.completeConfig cfg).term ∧ (n.completeConfig cfg).version = cfg.version := by
  have hterm : n.cfg.term ≤ (if cfg.term < n.cfg.term then { cfg with term := n.cfg.term } else cfg).term ∧
      (if cfg.term < n.cfg.term then { cfg with term := n.cfg.term } else cfg).version = cfg.version := by
    split
    · exact ⟨le_refl _, rfl⟩
    · rename_i hlt
      exact ⟨Nat.le_of_not_lt hlt, rfl⟩
  unfold completeConfig
  dsimp only
  generalize (if cfg.term < n.cfg.term then { cfg with term := n.cfg.term } else cfg) = c at hterm ⊢
  repeat' split
  all_goals exact hterm

theorem role_switchConfig (n : Node) (cfg : Config) : RoleMoves T n (n.switchConfig cfg) := by
  unfold switchConfig
  split
  · exact .refl
  rename_i hv
  obtain ⟨ht, hver⟩ := n.completeConfig_term cfg
  refine ReflTransGen.trans ?_ (role_roleChangeIfNeed _ _ (le_refl _))
  exact .single (.become rfl rfl rfl rfl rfl id (fun _ => ht) (hver ▸ Nat.le_of_not_lt hv))

theorem role_sendVoteReq (n : Node) (target : Nat) : RoleMoves T n (n.sendVoteReq target) := by
  refine .single (.vote _ rfl (fun e he => ?_) rfl rfl rfl rfl rfl rfl)
  rw [mem_singleton.mp he]
  exact .inl rfl

theorem role_campaign (hroom : T → n.cfg.term < maxUint32) (h : n.campaign = some m) : RoleMoves T n m := by
  unfold campaign at h
  split at h
  · cases h
    exact role_becomeFollower (fun _ => le_refl _) 0
  obtain ⟨k, hk, rfl⟩ := map_eq_some_iff.mp h
  refine head ?_ (reflTransGen_foldl fun j _ r _ => ?_)
  · unfold becomeCandidate at hk
    split at hk
    · cases hk
    · cases hk
      refine .become rfl rfl rfl rfl rfl nofun (fun htimed => ?_) (le_refl _)
      change n.cfg.term ≤ succ32 n.cfg.term
      rw [succ32_of_lt (hroom htimed)]
      exact Nat.le_succ _
  · split <;> exact j.role_sendVoteReq _

theorem role_stepPing (n : Node) (e : Event) (become : Node → Nat → Nat → Node)
    (hb : ∀ k, (T → k.cfg.term ≤ e.term) → RoleMoves T k (become k e.term e.fromNode))
    (he : T → n.cfg.term ≤ e.term) : RoleMoves T n (n.stepPing e become) := by
  have h0 : RoleMoves T n { n with electionElapsed := 0 } := .single (.calm (.note (.keep rfl rfl rfl)))
  refine ReflTransGen.trans ?_ (calms_hearPing _ e).role
  split
  · exact h0.trans (hb _ he)
  · exact h0

theorem role_stepVoteReq (n : Node) (he : T → n.cfg.term ≤ e.term) : RoleMoves T n (n.stepVoteReq e) := by
  have hone (x : Event) (hx : x.type = .voteResp) : ∀ q ∈ [x], q.type = .voteReq ∨ q.type = .voteResp :=
    fun q hq => .inr (mem_singleton.mp hq ▸ hx)
  unfold stepVoteReq
  split
  · split
    all_goals exact .single (.vote _ rfl (hone _ rfl) rfl rfl rfl rfl rfl rfl)
  · exact role_becomeFollower he _

theorem role_poll (n : Node) (e : Event) : RoleMoves T n (n.poll e) := by
  have hcount : RoleMoves T n { n with votes := n.votes.insert e.fromNode (e.reason == .ok) } :=
    .single (.vote [] (append_nil _).symm (forall_mem_nil _) rfl rfl rfl rfl rfl rfl)
  unfold poll
  dsimp only
  split
  · exact hcount
  split
  · refine (hcount.trans (role_becomeLeader fun _ => le_refl _)).trans ?_
    exact (notes_sendPing _ allId (.inl rfl)).calms.role
  · exact hcount.trans (role_becomeFollower (fun _ => le_refl _) _)

theorem role_enterTerm (n : Node) (e : Event) : RoleMoves T n (n.enterTerm e) := by
  unfold enterTerm adoptHigherTerm
  dsimp only
  split
  · rename_i ht
    split
    · exact role_becomeLearner (fun _ => le_of_lt ht) _
    · exact role_becomeFollower (fun _ => le_of_lt ht) _
  · exact .refl

theorem enterTerm_frame (n : Node) (e : Event) : (n.enterTerm e).opts = n.opts ∧
    (n.enterTerm e).cfg.replicas = n.cfg.replicas ∧
    (n.enterTerm e).queue = n.queue ∧ (n.enterTerm e).events = n.events ∧
      ((n.enterTerm e).stepFunc = .follower ∨ (n.enterTerm e).stepFunc = .learner ∨ n.enterTerm e = n) := by
  unfold enterTerm adoptHigherTerm
  dsimp only
  split
  · split
    · exact ⟨rfl, rfl, rfl, rfl, .inr (.inl rfl)⟩
    · exact ⟨rfl, rfl, rfl, rfl, .inl rfl⟩
  · exact ⟨rfl, rfl, rfl, rfl, .inr (.inr rfl)⟩

/-- A lower term is rejected; otherwise the event is handled in its own term. -/
theorem step_cases (h : n.step e = some (m, err)) :
    (e.term ≠ 0 ∧ e.term < n.cfg.term) ∧ m = (n.rejectLowerTerm e).publishReadState ∨
      ¬(e.term ≠ 0 ∧ e.term < n.cfg.term) ∧ ∃ k, (n.enterTerm e).stepEvent e = some (k, err) ∧ m = k.publishReadState := by
  unfold step at h
  split at h
  · rename_i hlow
    cases h
    exact .inl ⟨hlow, rfl⟩
  · rename_i hlow
    obtain ⟨⟨k, err'⟩, hk, hx⟩ := map_eq_some_iff.mp h
    cases hx
    exact .inr ⟨hlow, k, hk, rfl⟩

private theorem synchronised_cases {become : Node → Nat → Nat → Node} {r : StepResult}
    (hb : ∀ k, (T → k.cfg.term ≤ e.term) → RoleMoves T k (become k e.term e.fromNode))
    (he : T → e.type = .ping → n.cfg.term ≤ e.term) (hping : e.type = .ping → r = (n.stepPing e become).done)
    (hcfg : e.type = .configResp → r = (n.stepConfigResp e).done)
    (hlog : e.type ≠ .ping → e.type ≠ .configResp → r = some (m, err) → LogStep n e m)
    (h : r = some (m, err)) : LogStep n e m ∨ e.type.movesRole ∧ RoleMoves T n m := by
  by_cases hp : e.type = .ping
  · cases (hping hp).symm.trans h
    exact .inr ⟨by rw [hp]; rfl, n.role_stepPing e become hb fun ht => he ht hp⟩
  by_cases hc : e.type = .configResp
  · cases (hcfg hc).symm.trans h
    exact .inr ⟨by rw [hc]; rfl, n.role_switchConfig _⟩
  · exact .inl (hlog hp hc h)

/-- An event of the term of the node, or without a term if it is none of those that set the term. A
campaign finds a term that is left. -/
structure Timely (n : Node) (e : Event) : Prop where
  term : e.type = .ping ∨ e.type = .voteReq → n.cfg.term ≤ e.term
  room : e.type = .campaign → n.cfg.term < maxUint32

theorem stepEvent_cases (ha : e.type ≠ .applyResp) (he : T → Timely n e)
    (h : n.stepEvent e = some (m, err)) : LogStep n e m ∨ e.type.movesRole ∧ RoleMoves T n m := by
  have hstay (hs : n.stores = false) : LogStep n e n := by
    refine LogOp.step (.same (fun _ => hs) fun _ => ?_)
    rw [stores, Bool.or_eq_false_iff] at hs
    exact hs.1
  unfold stepEvent at h
  split at h
  case h_1 ht =>
    cases h
    exact .inr ⟨by rw [ht]; rfl, n.role_switchConfig _⟩
  case h_2 ht =>
    obtain ⟨k, hk, hx⟩ := map_eq_some_iff.mp h
    cases hx
    exact .inr ⟨by rw [ht]; rfl, role_campaign (fun htimed => (he htimed).room ht) hk⟩
  case h_3 ht =>
    cases h
    exact .inr ⟨by rw [ht]; rfl, n.role_stepVoteReq fun htimed => (he htimed).term (.inr ht)⟩
  case h_4 ht => exact absurd ht ha
  case h_5 =>
    split at h
    · exact .inl (stepLeader_logStep ‹_› h)
    · rename_i hf
      exact synchronised_cases (fun k hk => role_becomeFollower hk _) (fun htimed hp => (he htimed).term (.inl hp))
        (fun hp => by rw [stepFollower, hp]) (fun hc => by rw [stepFollower, hc])
        (fun hp => stepFollower_logStep hp (by simp [synchronises, hf])) h
    · rename_i hf
      unfold stepCandidate at h
      split at h
      case h_2 ht =>
        cases h
        exact .inr ⟨by rw [ht]; rfl, n.role_poll e⟩
      all_goals
        cases h
        exact .inl (hstay (by simp [stores, synchronises, hf]))
    · rename_i hf
      exact synchronised_cases (fun k hk => role_becomeLearner hk _) (fun htimed hp => (he htimed).term (.inl hp))
        (fun hp => by rw [stepLearner, hp]) (fun hc => by rw [stepLearner, hc])
        (fun hp => stepLearner_logStep hp (by simp [synchronises, hf])) h
    · rename_i hf
      cases h
      exact .inl (hstay (by simp [stores, synchronises, hf]))

theorem changes_stepEvent (ha : e.type ≠ .applyResp) (he : T → Timely n e)
    (h : n.stepEvent e = some (m, err)) : Changes T n m := by
  obtain hlog | ⟨-, hrole⟩ := stepEvent_cases ha he h
  · exact hlog.log.change
  · exact hrole.change

theorem changes_publish {k : Node} (h : Changes T n k) : Changes T n k.publishReadState :=
  h.trans (Notes.log (P := Mild) k.notes_publish).change

theorem changes_step (ha : e.type ≠ .applyResp) (he : T → e.type = .ping ∨ e.type = .voteReq → e.term ≠ 0)
    (hroom : T → e.type = .campaign → (n.enterTerm e).cfg.term < maxUint32)
    (h : n.step e = some (m, err)) : Changes T n m := by
  obtain ⟨-, rfl⟩ | ⟨hlow, k, hk, rfl⟩ := step_cases h
  · exact changes_publish (n.notes_rejectLowerTerm e).log.change
  refine changes_publish ((n.role_enterTerm e).change.trans
    (changes_stepEvent ha (fun htimed => ⟨fun ht => ?_, hroom htimed⟩) hk))
  -- the term of the event is not lower, and a higher one has been adopted
  have hge : n.cfg.term ≤ e.term := Nat.le_of_not_lt fun hlt => hlow ⟨he htimed ht, hlt⟩
  unfold enterTerm adoptHigherTerm
  dsimp only
  split
  · split <;> exact le_refl _
  · exact hge

/-- A tick only counts, unless the node campaigns. -/
theorem tick_cases (h : n.tick = some m) :
    ∃ k, (∃ j, Notes Mild n j ∧ (k = j ∨ j.campaign = some k)) ∧ m = k.publishReadState := by
  obtain ⟨k, hk, rfl⟩ := map_eq_some_iff.mp h
  refine ⟨k, ?_, rfl⟩
  have hidle : Notes Mild n n.tickIdle := n.notes_tickIdle
  generalize n.tickIdle = i at hk hidle
  have hon {j : Node} (hj : Notes Mild n j) (hx : (if j.opts.electionOn then j.tickElection else some j) = some k) :
      ∃ j, Notes Mild n j ∧ (k = j ∨ j.campaign = some k) := by
    split at hx
    · unfold tickElection at hx
      dsimp only at hx
      split at hx
      · exact ⟨_, hj.tail (.keep rfl rfl rfl), .inr hx⟩
      · cases hx
        refine ⟨_, ?_, .inl rfl⟩
        exact hj.tail (.keep rfl rfl rfl)
    · cases hx
      exact ⟨k, hj, .inl rfl⟩
  split at hk
  · cases hk
    exact ⟨_, hidle.trans i.notes_tickHeartbeat, .inl rfl⟩
  · refine hon ?_ hk
    split
    · exact hidle
    · exact hidle.trans i.notes_tickSync
  · exact hon hidle hk
  · cases hk
    exact ⟨_, hidle.trans i.notes_tickLearner, .inl rfl⟩
  · cases hk
    exact ⟨k, hidle, .inl rfl⟩

theorem role_tick (hroom : T → n.cfg.term < maxUint32) (h : n.tick = some m) : RoleMoves T n m := by
  obtain ⟨k, ⟨j, hj, hk⟩, rfl⟩ := tick_cases h
  refine ReflTransGen.trans ?_ (Notes.calms (P := Mild) k.notes_publish).role
  refine hj.calms.role.trans ?_
  rcases hk with rfl | hk
  · exact .refl
  · have hcfg : j.cfg = n.cfg := congrArg NodeCore.cfg hj.quiet.core
    exact role_campaign (hcfg ▸ hroom) hk

def storeReqOf (n : Node) (logs : List Log) : Event :=
  { type := .storeReq, term := n.cfg.term, toNode := localNode, logs := logs, termStartIndexInfo := n.termStartOf logs }

theorem readyStore_cases (h : n.readyStore = some m) : (n.queue.hasNextStoreLogs = false ∨ n.queue.logs = []) ∧ m = n ∨
      ∃ batch, batch = n.queue.logs.take (n.queue.lastLogIndex - n.queue.storedIndex) ∧ batch ≠ [] ∧
        n.queue.hasNextStoreLogs ∧ n.queue.lastLogIndex - n.queue.storedIndex ≤ n.queue.logs.length ∧
        m = { n with
          queue := { n.queue with appending := true }
          lastTermStartIndex := (n.termStartOf batch).getD n.lastTermStartIndex }.emit (n.storeReqOf batch) := by
  unfold readyStore at h
  split at h
  · rename_i hdue
    obtain ⟨⟨q, batch⟩, hq, rfl⟩ := map_eq_some_iff.mp h
    obtain ⟨hnil, rfl, rfl⟩ | ⟨hlogs, hle, rfl, rfl⟩ := Queue.nextStoreLogs_eq_some hq
    · exact .inl ⟨.inr hnil, rfl⟩
    have hlt : n.queue.storedIndex < n.queue.lastLogIndex := by
      unfold Queue.hasNextStoreLogs at hdue
      split at hdue
      · cases hdue
      · exact of_decide_eq_true hdue
    have hne : n.queue.logs.take (n.queue.lastLogIndex - n.queue.storedIndex) ≠ [] := by
      rw [← length_pos_iff, length_take]
      omega
    refine .inr ⟨_, rfl, hne, hdue, hle, ?_⟩
    rw [if_pos (length_pos_iff.mpr hne), storeReqOf]
    split
    all_goals
      rename_i hterm
      rw [show n.termStartOf (n.queue.logs.take (n.queue.lastLogIndex - n.queue.storedIndex)) = _ from hterm]
      rfl
  · rename_i hdue
    cases h
    exact .inl ⟨.inl (Bool.not_eq_true _ ▸ hdue), rfl⟩

theorem readyApply_cases (n : Node) : n.readyApply = n ∨ n.queue.applying = false ∧ n.readyApply =
    { n with queue := { n.queue with applying := true } }.sendApplyReq (n.queue.appliedIndex + 1)
      (n.queue.committedIndex + 1) := by
  unfold readyApply
  split
  · rename_i hdue
    obtain ⟨hno, hnext⟩ := Queue.nextApplyLogs_of_due hdue
    rw [hnext]
    exact .inr ⟨hno, rfl⟩
  · exact .inl rfl

end Node
end WuKongIM.Raft

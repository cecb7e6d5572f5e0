import WuKongIM.WKDB.Batches

/-! The calls that commit batches, and the loops that carry them out. -/
namespace WuKongIM.WKDB.BatchDB
open Lib List Option Function

/-- A batch on its way. The number of the call that it is from stands for the channel on which the
caller waits. -/
structure Task where
  call : Nat
  batch : Batch
  wait : Bool
  deriving DecidableEq

structure Commit where
  tasks : List Task
  ok : Bool

/-- A database with its loop. Some calls have not got to send their batch yet. What was sent and
what was committed is kept for the record. -/
structure Loop where
  store : Bytes → Option Bytes
  unsent : List Task := []
  batchChan : List Task := []
  answers : List (Nat × Bool) := []
  sent : List Task := []
  commits : List Commit := []

structure BatchCall where
  issued : List Batch.Issued
  wait : Bool

def BatchCall.parts (call : BatchCall) : List Batch := Batch.groupBatch (Batch.batches call.issued)

structure BatchSystem where
  calls : List BatchCall := []
  loops : Nat → Loop

inductive BatchAction
  | submit (call : BatchCall)
  | send (db : Nat) (t : Task)
  | execute (db n : Nat) (ok : Bool)

def Loop.bring (l : Loop) (db c : Nat) (call : BatchCall) : Loop :=
  { l with unsent := l.unsent ++ (call.parts.filter fun b => b.db = db).map fun b => ⟨c, b, call.wait⟩ }

def Loop.send (l : Loop) (t : Task) : Option Loop :=
  if t ∈ l.unsent then some { l with unsent := l.unsent.erase t, batchChan := l.batchChan ++ [t], sent := l.sent ++ [t] } else none

/-- The first `n` batches go into one physical batch. When one of its operations or its commit
fails, nothing of it is done. -/
def Loop.executeBatch (l : Loop) (n : Nat) (ok : Bool) : Option Loop :=
  if 1 ≤ n ∧ n ≤ 100 ∧ n ≤ l.batchChan.length then
    let tasks := l.batchChan.take n
    some { l with
      store := if ok then writes (tasks.flatMap fun t => t.batch.applyBatchOperations) l.store else l.store
      batchChan := l.batchChan.drop n
      answers := l.answers ++ (tasks.filter (·.wait)).map fun t => (t.call, ok)
      commits := l.commits ++ [⟨tasks, ok⟩] }
  else none

namespace BatchSystem

def step (s : BatchSystem) : BatchAction → Option BatchSystem
  | .submit call =>
    some { calls := s.calls ++ [call], loops := fun db => (s.loops db).bring db s.calls.length call }
  | .send db t => ((s.loops db).send t).map fun l => { s with loops := update s.loops db l }
  | .execute db n ok => ((s.loops db).executeBatch n ok).map fun l => { s with loops := update s.loops db l }

/-- What a call returns when all its batches have been answered: nil, or an error. -/
def returned (s : BatchSystem) (c : Nat) : Option Bool :=
  (s.calls[c]?).bind fun call =>
    if ∀ b ∈ call.parts, ∃ a ∈ (s.loops b.db).answers, a.1 = c then
      some (decide (∀ b ∈ call.parts, (c, true) ∈ (s.loops b.db).answers))
    else none

/-- In each database the last operation of the call on a key that it sets is a set. -/
def InOrder : BatchAction → Prop
  | .submit call => ∀ db, Settled ((Batch.opsOf db call.issued).map BatchOp.write)
  | _ => True

end BatchSystem

/-- The operations of a task's call for a database, in the order in which they were issued. -/
def issuedOps (calls : List BatchCall) (db : Nat) (t : Task) : List (Write Bytes Bytes) :=
  match calls[t.call]? with
  | some call => (Batch.opsOf db call.issued).map BatchOp.write
  | none => []

def PartOf (calls : List BatchCall) (db : Nat) (t : Task) : Prop :=
  ∃ call, calls[t.call]? = some call ∧ t.batch ∈ call.parts ∧ t.batch.db = db ∧ t.wait = call.wait

namespace Loop

/-- What has been done to a database: the operations of the successful commits, batch after batch as
they were issued. -/
def done (l : Loop) (calls : List BatchCall) (db : Nat) : List (Write Bytes Bytes) :=
  (l.commits.filter (·.ok)).flatMap fun c => c.tasks.flatMap (issuedOps calls db)

structure Sound (start : Bytes → Option Bytes) (calls : List BatchCall) (db : Nat) (l : Loop) : Prop where
  store : l.store = writes (l.done calls db) start
  fifo : l.commits.flatMap (·.tasks) ++ l.batchChan = l.sent
  answers : l.answers = l.commits.flatMap fun c => (c.tasks.filter (·.wait)).map fun t => (t.call, c.ok)
  nodup : ((l.unsent ++ l.sent).map (·.call)).Nodup
  origin : ∀ t ∈ l.unsent ++ l.sent, PartOf calls db t
  inOrder : ∀ call ∈ calls, Settled ((Batch.opsOf db call.issued).map BatchOp.write)

variable {start : Bytes → Option Bytes} {calls : List BatchCall} {db : Nat} {l l' : Loop} {t : Task} {call : BatchCall}

theorem issuedOps_of_call (h : calls[t.call]? = some call) :
    issuedOps calls db t = (Batch.opsOf db call.issued).map BatchOp.write := by
  rw [issuedOps, h]

theorem Sound.writes_tasks (h : l.Sound start calls db) {tasks : List Task}
    (ht : ∀ t ∈ tasks, PartOf calls db t) (m : Bytes → Option Bytes) :
    writes (tasks.flatMap fun t => t.batch.applyBatchOperations) m = writes (tasks.flatMap (issuedOps calls db)) m := by
  induction tasks generalizing m with
  | nil => rfl
  | cons t tasks ih =>
    obtain ⟨call, hcall, hpart, hdb, -⟩ := ht t mem_cons_self
    have hholds := (Batch.groupBatch_spec call.issued).2.2 t.batch hpart
    rw [hdb] at hholds
    have hsettled := h.inOrder call (mem_of_getElem? hcall)
    rw [flatMap_cons, flatMap_cons, writes_append, writes_append, hholds.in_order_iff.mpr hsettled,
      issuedOps_of_call hcall]
    exact ih (fun t ht' => ht t (mem_cons_of_mem _ ht')) _

theorem Sound.mem_sent (h : l.Sound start calls db) {c : Commit} (hc : c ∈ l.commits) (ht : t ∈ c.tasks) : t ∈ l.sent := by
  rw [← h.fifo]
  exact mem_append_left _ (mem_flatMap.mpr ⟨c, hc, ht⟩)

theorem length_parts_le (call : BatchCall) (db : Nat) : (call.parts.filter fun b => b.db = db).length ≤ 1 := by
  have hnodup : ((call.parts.filter fun b => b.db = db).map (·.db)).Nodup :=
    (Batch.groupBatch_spec call.issued).1.sublist (filter_sublist.map _)
  have hall : (call.parts.filter fun b => b.db = db).map (·.db) =
      replicate (call.parts.filter fun b => b.db = db).length db := by
    exact eq_replicate_iff.mpr ⟨length_map _, forall_mem_map.mpr fun b hb => of_decide_eq_true (mem_filter.mp hb).2⟩
  rwa [hall, nodup_replicate] at hnodup

variable (h : l.Sound start calls db) {ok : Bool}
include h

theorem Sound.bring (hok : Settled ((Batch.opsOf db call.issued).map BatchOp.write)) :
    (l.bring db calls.length call).Sound start (calls ++ [call]) db := by
  have hcalls {c : Nat} {call' : BatchCall} (hc : calls[c]? = some call') : (calls ++ [call])[c]? = some call' := by
    rw [getElem?_append_left (List.getElem?_eq_some_iff.mp hc).1, hc]
  refine ⟨?_, h.fifo, h.answers, ?_, ?_, ?_⟩
  · refine h.store.trans (congrArg (writes · start) ?_)
    refine flatMap_congr fun c hc => flatMap_congr fun t ht => ?_
    obtain ⟨call', hcall', -⟩ := h.origin t (mem_append_right _ (h.mem_sent (mem_filter.mp hc).1 ht))
    rw [issuedOps_of_call hcall', issuedOps_of_call (hcalls hcall')]
  · -- the number of the call is new, and the call has at most one batch for the database
    have hnew : (((call.parts.filter fun b => b.db = db).map fun b => (⟨calls.length, b, call.wait⟩ : Task)).map (·.call)).Nodup := by
      rw [List.map_map, show ((·.call) ∘ fun b => (⟨calls.length, b, call.wait⟩ : Task)) = const Batch calls.length from rfl,
        map_const, nodup_replicate]
      exact length_parts_le call db
    have hperm : (((l.bring db calls.length call).unsent ++ l.sent).map (·.call)).Perm ((l.unsent ++ l.sent).map (·.call) ++
        ((call.parts.filter fun b => b.db = db).map fun b => (⟨calls.length, b, call.wait⟩ : Task)).map (·.call)) := by
      rw [← map_append]
      refine Perm.map _ ?_
      rw [Loop.bring, append_assoc, append_assoc]
      exact Perm.append_left _ perm_append_comm
    refine hperm.nodup_iff.mpr (Nodup.append h.nodup hnew fun c hc hc' => ?_)
    obtain ⟨t, ht, rfl⟩ := List.mem_map.mp hc
    obtain ⟨call', hcall', -⟩ := h.origin t ht
    have hlt := (List.getElem?_eq_some_iff.mp hcall').1
    rw [List.map_map, List.mem_map] at hc'
    obtain ⟨b, -, hb⟩ := hc'
    exact absurd hb (ne_of_gt hlt)
  · intro t ht
    simp only [Loop.bring, append_assoc, mem_append, List.mem_map, mem_filter] at ht
    rcases ht with hold | ⟨b, ⟨hb, hdb⟩, rfl⟩ | hold
    · obtain ⟨call', hcall', hpart⟩ := h.origin t (mem_append_left _ hold)
      exact ⟨call', hcalls hcall', hpart⟩
    · exact ⟨call, by simp, hb, of_decide_eq_true hdb, rfl⟩
    · obtain ⟨call', hcall', hpart⟩ := h.origin t (mem_append_right _ hold)
      exact ⟨call', hcalls hcall', hpart⟩
  · intro call' hcall'
    rcases mem_append.mp hcall' with hold | hnew
    · exact h.inOrder call' hold
    · rw [mem_singleton.mp hnew]
      exact hok

theorem Sound.send (hl : l.send t = some l') : l'.Sound start calls db := by
  rw [Loop.send] at hl
  split at hl
  · next hmem =>
    cases hl
    have hperm : (l.unsent.erase t ++ (l.sent ++ [t])).Perm (l.unsent ++ l.sent) := by
      refine perm_append_comm.trans ?_
      rw [append_assoc]
      exact ((perm_cons_erase hmem).symm.append_left _).trans perm_append_comm
    refine ⟨h.store, ?_, h.answers, (hperm.map _).nodup_iff.mpr h.nodup,
      fun t' ht' => h.origin t' (hperm.mem_iff.mp ht'), h.inOrder⟩
    rw [← append_assoc, h.fifo]
  · cases hl

theorem Sound.executeBatch {n : Nat} (hl : l.executeBatch n ok = some l') : l'.Sound start calls db := by
  rw [Loop.executeBatch] at hl
  split at hl
  · cases hl
    have htasks (t) (ht : t ∈ l.batchChan.take n) : PartOf calls db t := by
      refine h.origin t (mem_append_right _ ?_)
      rw [← h.fifo]
      exact mem_append_right _ (mem_of_mem_take ht)
    refine ⟨?_, ?_, ?_, h.nodup, h.origin, h.inOrder⟩
    · simp only [done, filter_append, flatMap_append, writes_append]
      rw [h.store]
      cases ok with
      | true =>
        simp only [filter_cons_of_pos, filter_nil, flatMap_singleton]
        exact h.writes_tasks htasks _
      | false => rfl
    · simp only [flatMap_append, flatMap_singleton, append_assoc, take_append_drop, h.fifo]
    · simp only [flatMap_append, flatMap_singleton, h.answers]
  · cases hl

theorem Sound.nodup_commits : ((l.commits.flatMap (·.tasks)).map (·.call)).Nodup := by
  refine h.nodup.sublist (Sublist.map _ ?_)
  rw [← h.fifo]
  exact (sublist_append_left _ _).trans (sublist_append_right _ _)

theorem Sound.commit_unique {c c' : Commit} (hc : c ∈ l.commits) (hc' : c' ∈ l.commits)
    {t t' : Task} (ht : t ∈ c.tasks) (ht' : t' ∈ c'.tasks) (hcall : t.call = t'.call) : c = c' := by
  have hnodup := h.nodup_commits
  rw [map_flatMap, nodup_flatMap] at hnodup
  by_contra hne
  have : Std.Symm (onFun Disjoint fun c : Commit => c.tasks.map (·.call)) := ⟨fun _ _ hd _ ha hb => hd hb ha⟩
  refine hnodup.2.forall hc hc' hne (List.mem_map_of_mem ht) ?_
  rw [hcall]
  exact List.mem_map_of_mem ht'

theorem Sound.mem_answers {c : Nat} : (c, ok) ∈ l.answers ↔ ∃ commit ∈ l.commits, commit.ok = ok ∧
    ∃ t ∈ commit.tasks, t.call = c ∧ t.wait := by
  simp only [h.answers, mem_flatMap, List.mem_map, mem_filter, Prod.mk.injEq]
  constructor
  · rintro ⟨commit, hcommit, t, ⟨ht, hwait⟩, hcall, hok⟩
    exact ⟨commit, hcommit, hok, t, ht, hcall, hwait⟩
  · rintro ⟨commit, hcommit, hok, t, ht, hcall, hwait⟩
    exact ⟨commit, hcommit, t, ⟨ht, hwait⟩, hcall, hok⟩

theorem Sound.nodup_answers : (l.answers.map (·.1)).Nodup := by
  have hanswers : l.answers.map (·.1) = ((l.commits.flatMap (·.tasks)).filter (·.wait)).map (·.call) := by
    rw [h.answers, filter_flatMap, map_flatMap, map_flatMap]
    refine flatMap_congr fun c _ => ?_
    rw [List.map_map]
    rfl
  rw [hanswers]
  exact h.nodup_commits.sublist (filter_sublist.map _)

end Loop

namespace BatchSystem
variable {start : Nat → Bytes → Option Bytes} {s t : BatchSystem} {a : BatchAction}

section
variable (h : ∀ db, (s.loops db).Sound (start db) s.calls db)
include h

theorem sound_step (ha : InOrder a) (hs : s.step a = some t) :
    ∀ db, (t.loops db).Sound (start db) t.calls db := by
  cases a with
  | submit call =>
    cases hs
    exact fun db => (h db).bring (ha db)
  | send db task =>
    obtain ⟨l, hl, rfl⟩ := map_eq_some_iff.mp hs
    refine fun db' => forall_update_iff s.loops
      (fun db' l => l.Sound (start db') s.calls db') |>.mpr ⟨?_, fun db' _ => h db'⟩ db'
    exact (h db).send hl
  | execute db n ok =>
    obtain ⟨l, hl, rfl⟩ := map_eq_some_iff.mp hs
    refine fun db' => forall_update_iff s.loops
      (fun db' l => l.Sound (start db') s.calls db') |>.mpr ⟨?_, fun db' _ => h db'⟩ db'
    exact (h db).executeBatch hl

/-- A call that has returned returned nil just when the commits that hold its operations
succeeded. -/
theorem returned_iff {c : Nat} {call : BatchCall} {r : Bool} (hcall : s.calls[c]? = some call) (hr : s.returned c = some r) :
    r ↔ ∀ b ∈ call.parts, ∃ commit ∈ (s.loops b.db).commits, commit.ok ∧ ∃ t ∈ commit.tasks, t.call = c := by
  rw [returned, hcall, bind_some] at hr
  split at hr
  · next hanswered =>
    obtain rfl := some.inj hr
    rw [decide_eq_true_eq]
    refine forall₂_congr fun b hb => ?_
    rw [(h b.db).mem_answers]
    constructor
    · rintro ⟨commit, hcommit, hok, t, ht, htc, -⟩
      exact ⟨commit, hcommit, hok, t, ht, htc⟩
    rintro ⟨commit, hcommit, hok, t, ht, htc⟩
    obtain ⟨⟨c', ok⟩, ha, rfl⟩ := hanswered b hb
    obtain ⟨commit', hcommit', -, t', ht', htc', hwait⟩ := (h b.db).mem_answers.mp ha
    obtain rfl := (h b.db).commit_unique hcommit hcommit' ht ht' (htc.trans htc'.symm)
    exact ⟨commit, hcommit, hok, t', ht', htc', hwait⟩
  · cases hr

end

/-- A grouped batch has the effect of its operations in issue order just when the last operation on
each key that it sets is a set. When all calls are of this kind, each database is as if the
operations of the successful commits had been performed in issue order, batch after batch as they
were sent; every batch that is waited for is answered once, with the outcome of its commit; and a
call returns nil just when the commits that hold its operations succeeded. -/
theorem batches_in_order (h : Reach (fun s => s = { loops := fun db => { store := start db } }) step (fun _ a => InOrder a) s) :
    (∀ issued, ∀ b ∈ Batch.groupBatch (Batch.batches issued),
      (∀ m, writes b.applyBatchOperations m = writes ((Batch.opsOf b.db issued).map BatchOp.write) m) ↔
        Settled ((Batch.opsOf b.db issued).map BatchOp.write)) ∧
    (∀ db, (s.loops db).store = writes ((s.loops db).done s.calls db) (start db)) ∧
    (∀ db, (s.loops db).commits.flatMap (·.tasks) ++ (s.loops db).batchChan = (s.loops db).sent) ∧
    (∀ db, ((s.loops db).answers.map (·.1)).Nodup ∧ ∀ c ok, (c, ok) ∈ (s.loops db).answers ↔
      ∃ commit ∈ (s.loops db).commits, commit.ok = ok ∧ ∃ t ∈ commit.tasks, t.call = c ∧ t.wait = true) ∧
    ∀ c call r, s.calls[c]? = some call → s.returned c = some r →
      (r = true ↔ ∀ b ∈ call.parts, ∃ commit ∈ (s.loops b.db).commits, commit.ok = true ∧
        ∃ t ∈ commit.tasks, t.call = c) := by
  have hsound : ∀ db, (s.loops db).Sound (start db) s.calls db := by
    refine h.invariant (fun s => ∀ db, (s.loops db).Sound (start db) s.calls db) (fun s hs => ?_) fun s a t hs ha hstep =>
      sound_step hs ha hstep
    subst hs
    exact fun db => ⟨rfl, rfl, rfl, nodup_nil, nofun, nofun⟩
  refine ⟨fun issued b hb => ?_, fun db => (hsound db).store, fun db => (hsound db).fifo,
    fun db => ⟨(hsound db).nodup_answers,
      fun c ok => (hsound db).mem_answers⟩, fun c call r hcall hr => returned_iff hsound hcall hr⟩
  exact ((Batch.groupBatch_spec issued).2.2 b hb).in_order_iff

private def oneBatch (ops : List BatchOp) : List BatchAction :=
  [.submit ⟨[(0, ops)], true⟩, .send 0 ⟨0, Batch.ofOps 0 ops, true⟩, .execute 0 1 true]

private def setsOnly : BatchAction → Bool
  | .submit call => call.issued.all fun i => i.2.all fun op => op.write.isSet
  | _ => true

private theorem inOrder_of_setsOnly (h : setsOnly a) : InOrder a := by
  cases a with
  | submit call =>
    intro db
    refine settled_of_sets fun w hw => ?_
    obtain ⟨op, hop, rfl⟩ := List.mem_map.mp hw
    obtain ⟨i, hi, hop⟩ := mem_flatMap.mp hop
    simp only [setsOnly, List.all_eq_true] at h
    exact h i (mem_filter.mp hi).1 op hop
  | send db t | execute db n ok => trivial

/-- Two sets of one key. -/
theorem batches_in_order_sets : ∃ s, Reach (fun s =>
    s = { loops := fun _ => { store := fun _ => none } }) step (fun _ a => InOrder a) s ∧
    s.returned 0 = some true ∧ (s.loops 0).store [97] = some [50] := by
  have hstart : Reach (fun s => s = { loops := fun _ => { store := fun _ => none } }) step (fun _ a => InOrder a)
      { loops := fun _ => { store := fun _ => none } } := .init rfl
  obtain ⟨s, hs, hp⟩ := hstart.exists_of_exec (fun _ a => setsOnly a) (fun _ _ => inOrder_of_setsOnly)
    (oneBatch [.set [97] [49], .set [97] [50]])
    (fun s => s.returned 0 = some true ∧
      writes ((s.loops 0).done s.calls 0) (fun _ => none) [97] = some [50]) (by decide +kernel)
  obtain ⟨hreturned, hdone⟩ := of_decide_eq_true hp
  refine ⟨s, hs, hreturned, ?_⟩
  rw [(batches_in_order hs).2.1, hdone]

/-- A key is set and then deleted in one batch: the key is there afterwards. -/
theorem batches_in_order_fails : ∃ s, Reach (fun s =>
    s = { loops := fun _ => { store := fun _ => none } }) step (fun _ _ => True) s ∧
    s.returned 0 = some true ∧ (s.loops 0).store [97] = some [49] ∧
    writes ((s.loops 0).done s.calls 0) (fun _ => none) [97] = none := by
  have hstart : Reach (fun s => s = { loops := fun _ => { store := fun _ => none } }) step (fun _ _ => True)
      { loops := fun _ => { store := fun _ => none } } := .init rfl
  exact hstart.exists_of_run (oneBatch [.set [97] [49], .delete [97]]) _ (by decide +kernel)

end BatchSystem
end WuKongIM.WKDB.BatchDB

import Mathlib.Data.List.Nodup
import WuKongIM.Lib.Run
import WuKongIM.Lib.Writes
import WuKongIM.WKDB.Message

/-! The write batches of package wkdb. -/
namespace WuKongIM.WKDB.BatchDB
open Lib List

inductive BatchOp
  | set (key value : Bytes)
  | delete (key : Bytes)
  | deleteRange (start stop : Bytes)
  deriving DecidableEq

/-- What an operation does to a database. A range ends before its second key. -/
def BatchOp.write : BatchOp → Write Bytes Bytes
  | set key value => .set key value
  | delete key => .erase fun k => k = key
  | deleteRange start stop => .erase fun k => ¬k < start ∧ k < stop

structure Batch where
  db : Nat
  setKvs : List (Bytes × Bytes) := []
  delKvs : List Bytes := []
  delRangeKvs : List (Bytes × Bytes) := []
  deriving DecidableEq

namespace Batch

def issue (b : Batch) : BatchOp → Batch
  | .set key value => { b with setKvs := b.setKvs ++ [(key, value)] }
  | .delete key => { b with delKvs := b.delKvs ++ [key] }
  | .deleteRange start stop => { b with delRangeKvs := b.delRangeKvs ++ [(start, stop)] }

def ofOps (db : Nat) (ops : List BatchOp) : Batch := ops.foldl issue { db }

def applyBatchOperations (b : Batch) : List (Write Bytes Bytes) :=
  b.delKvs.map (fun k => (BatchOp.delete k).write) ++ b.delRangeKvs.map (fun r => (BatchOp.deleteRange r.1 r.2).write) ++
    b.setKvs.map fun kv => (BatchOp.set kv.1 kv.2).write

def join (nb b : Batch) : Batch :=
  { nb with setKvs := nb.setKvs ++ b.setKvs, delKvs := nb.delKvs ++ b.delKvs, delRangeKvs := nb.delRangeKvs ++ b.delRangeKvs }

/-- The batch goes into the first one of the same database, else behind all. -/
def addTo (b : Batch) : List Batch → List Batch
  | [] => [b]
  | nb :: rest => if nb.db = b.db then nb.join b :: rest else nb :: addTo b rest

def groupBatch (bs : List Batch) : List Batch := bs.foldl (fun newBatchs b => addTo b newBatchs) []

structure Holds (b : Batch) (ops : List BatchOp) : Prop where
  sets : b.setKvs = ops.filterMap fun | .set key value => some (key, value) | _ => none
  dels : b.delKvs = ops.filterMap fun | .delete key => some key | _ => none
  delRanges : b.delRangeKvs = ops.filterMap fun | .deleteRange start stop => some (start, stop) | _ => none

variable {ops : List BatchOp} {b : Batch}

theorem Holds.issue (h : b.Holds ops) (op : BatchOp) : (b.issue op).Holds (ops ++ [op]) := by
  obtain ⟨hs, hd, hr⟩ := h
  cases op <;> constructor <;> simp [Batch.issue, hs, hd, hr]

theorem holds_ofOps (db : Nat) (ops : List BatchOp) : (ofOps db ops).db = db ∧ (ofOps db ops).Holds ops := by
  induction ops using reverseRecOn with
  | nil => exact ⟨rfl, rfl, rfl, rfl⟩
  | append_singleton ops op ih =>
    rw [ofOps, foldl_append]
    refine ⟨?_, ih.2.issue op⟩
    cases op <;> exact ih.1

theorem Holds.join {nb : Batch} {ops' : List BatchOp} (h : nb.Holds ops) (h' : b.Holds ops') :
    (nb.join b).Holds (ops ++ ops') := by
  constructor
  · rw [filterMap_append, ← h.sets, ← h'.sets]
    rfl
  · rw [filterMap_append, ← h.dels, ← h'.dels]
    rfl
  · rw [filterMap_append, ← h.delRanges, ← h'.delRanges]
    rfl

/-- The physical batch has the effect of the operations in their order, on every database, just when
the last operation on each key that is set is a set. -/
theorem Holds.in_order_iff (h : b.Holds ops) :
    (∀ s, writes b.applyBatchOperations s = writes (ops.map BatchOp.write) s) ↔ Settled (ops.map BatchOp.write) := by
  have hsets : b.setKvs.map (fun kv => (BatchOp.set kv.1 kv.2).write) = (ops.map BatchOp.write).filter Write.isSet := by
    rw [h.sets]
    clear h
    induction ops with
    | nil => rfl
    | cons op ops ih =>
      cases op with
      | set key value => exact congrArg (cons _) ih
      | delete key | deleteRange start stop => exact ih
  rw [applyBatchOperations, hsets]
  refine writes_erased_first fun w => ?_
  rw [h.dels, h.delRanges]
  simp only [mem_append, mem_map, mem_filterMap]
  constructor
  · rintro (⟨k, ⟨op, hop, hk⟩, rfl⟩ | ⟨r, ⟨op, hop, hr⟩, rfl⟩)
    · cases op <;> cases hk
      exact ⟨⟨_, hop, rfl⟩, rfl⟩
    · cases op <;> cases hr
      exact ⟨⟨_, hop, rfl⟩, rfl⟩
  · rintro ⟨⟨op, hop, rfl⟩, hset⟩
    cases op with
    | set key value => cases hset
    | delete key => exact .inl ⟨key, ⟨_, hop, rfl⟩, rfl⟩
    | deleteRange start stop => exact .inr ⟨(start, stop), ⟨_, hop, rfl⟩, rfl⟩

abbrev Issued := Nat × List BatchOp

def opsOf (db : Nat) (call : List Issued) : List BatchOp := (call.filter fun i => i.1 = db).flatMap (·.2)

def batches (call : List Issued) : List Batch := call.map fun i => ofOps i.1 i.2

variable {nbs : List Batch}

theorem map_db_addTo : (addTo b nbs).map (·.db) = if b.db ∈ nbs.map (·.db) then nbs.map (·.db)
    else nbs.map (·.db) ++ [b.db] := by
  induction nbs with
  | nil => rfl
  | cons nb rest ih =>
    rw [addTo]
    split
    · next h => simp [h, join]
    · next h =>
      have h : ¬b.db = nb.db := fun heq => h heq.symm
      simp only [map_cons, ih, mem_cons, h, false_or]
      split <;> simp

theorem nodup_addTo (h : (nbs.map (·.db)).Nodup) : ((addTo b nbs).map (·.db)).Nodup := by
  rw [map_db_addTo]
  split
  · exact h
  · next hb => exact Nodup.append h (nodup_singleton _) (by simpa using hb)

theorem opsOf_append (db : Nat) (call : List Issued) (i : Issued) :
    opsOf db (call ++ [i]) = opsOf db call ++ if i.1 = db then i.2 else [] := by
  split <;> simp_all [opsOf]

theorem holds_addTo {call : List Issued} {i : Issued} (hnodup : (nbs.map (·.db)).Nodup)
    (h : ∀ nb ∈ nbs, nb.Holds (opsOf nb.db call)) (hnone : i.1 ∉ nbs.map (·.db) → opsOf i.1 call = []) :
    ∀ nb ∈ addTo (ofOps i.1 i.2) nbs, nb.Holds (opsOf nb.db (call ++ [i])) := by
  obtain ⟨hdb, hholds⟩ := holds_ofOps i.1 i.2
  have hother {nb : Batch} (hne : nb.db ≠ i.1) (hnb : nb.Holds (opsOf nb.db call)) :
      nb.Holds (opsOf nb.db (call ++ [i])) := by
    rw [opsOf_append, if_neg hne.symm, append_nil]
    exact hnb
  induction nbs with
  | nil =>
    intro nb hnb
    rw [addTo, mem_singleton] at hnb
    subst hnb
    rw [hdb, opsOf_append, if_pos rfl, hnone not_mem_nil]
    exact hholds
  | cons first rest ih =>
    rw [map_cons, nodup_cons] at hnodup
    intro nb hnb
    rw [addTo] at hnb
    split at hnb
    · next heq =>
      rw [hdb] at heq
      rcases mem_cons.mp hnb with rfl | hnb
      · have hfirst := h first mem_cons_self
        rw [show (first.join (ofOps i.1 i.2)).db = first.db from rfl, opsOf_append, if_pos heq.symm]
        exact hfirst.join hholds
      · refine hother (fun hne => hnodup.1 ?_) (h nb (mem_cons_of_mem first hnb))
        rw [heq, ← hne]
        exact mem_map_of_mem hnb
    · next hne =>
      rw [hdb] at hne
      rcases mem_cons.mp hnb with rfl | hnb
      · exact hother hne (h nb mem_cons_self)
      · refine ih hnodup.2 (fun nb hnb => h nb (mem_cons_of_mem first hnb)) (fun hrest => hnone ?_) nb hnb
        rw [map_cons, mem_cons, not_or]
        exact ⟨Ne.symm hne, hrest⟩

theorem groupBatch_spec (call : List Issued) : ((groupBatch (batches call)).map (·.db)).Nodup ∧
    (∀ db, db ∈ (groupBatch (batches call)).map (·.db) ↔ db ∈ call.map (·.1)) ∧
    ∀ nb ∈ groupBatch (batches call), nb.Holds (opsOf nb.db call) := by
  induction call using reverseRecOn with
  | nil => exact ⟨nodup_nil, fun _ => Iff.rfl, nofun⟩
  | append_singleton call i ih =>
    obtain ⟨hnodup, hdbs, hholds⟩ := ih
    have hgroup : groupBatch (batches (call ++ [i])) = addTo (ofOps i.1 i.2) (groupBatch (batches call)) := by
      rw [groupBatch, batches, map_append, foldl_append]
      rfl
    rw [hgroup]
    refine ⟨nodup_addTo hnodup, fun db => ?_, holds_addTo hnodup hholds fun hi => ?_⟩
    · rw [map_db_addTo, (holds_ofOps i.1 i.2).1, map_append, mem_append, ← hdbs, map_singleton, mem_singleton]
      split
      · next hi => exact ⟨.inl, fun h => h.elim id fun h => h ▸ hi⟩
      · rw [mem_append, mem_singleton]
    · rw [hdbs] at hi
      rw [opsOf, filter_eq_nil_iff.mpr, flatMap_nil]
      intro j hj
      rw [decide_eq_true_eq]
      intro heq
      exact hi (heq ▸ mem_map_of_mem hj)

end Batch
end WuKongIM.WKDB.BatchDB

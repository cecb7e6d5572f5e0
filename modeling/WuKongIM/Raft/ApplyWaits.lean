import WuKongIM.Lib.Run

/-! The calls of a raft group that wait until an index is applied. They register a progress in the
bucket of their key; the event loop publishes a new applied index and then notifies the bucket.
Progresses are objects that a pool hands out again, and each registration makes a new channel.
`none` is a panic, a send that blocks for ever, or a step that is not possible. -/
namespace WuKongIM.RaftGroup
open Function

abbrev Key := List UInt8

/-- The hash is computed on 64-bit integers and cut to 32 bits. -/
def fnv32 (key : Key) : UInt32 :=
  (key.foldl (fun hash byte => (hash ^^^ byte.toUInt64) * 16777619) (2166136261 : UInt64)).toUInt32

def bucketIndex (key : Key) : Nat := (fnv32 key % 100).toNat

/-- A progress that has been reset has no channel. -/
structure Progress where
  key : Key := []
  maxIndex : Nat := 0
  waitC : Option Nat := none
  waitApplied : Bool := false
  done : Bool := false
  deriving DecidableEq

/-- One registration: what it waits for, its progress, and its channel with room for one signal.
`left` is set when its call has returned. -/
structure Waiter where
  key : Key
  maxIndex : Nat
  progress : Nat
  sent : Nat := 0
  buffered : Bool := false
  closed : Bool := false
  left : Bool := false
  deriving DecidableEq

structure Bucket where
  progresses : List Nat := []
  pool : List Nat := []
  deriving DecidableEq

/-- The objects and the buckets. A progress is named by its place in `heap`, and a channel by the
place of its registration. -/
structure Waits where
  heap : List Progress := []
  waiters : List Waiter := []
  buckets : Nat → Bucket := fun _ => {}

namespace Waits

variable (s : Waits)

/-- A send on a closed channel panics, and one on a full channel blocks. -/
def send (c : Nat) : Option Waits :=
  match s.waiters[c]? with
  | none => none
  | some w =>
    if w.closed || w.buffered then none
    else some { s with waiters := s.waiters.set c { w with sent := w.sent + 1, buffered := true } }

def close (c : Nat) : Option Waits :=
  match s.waiters[c]? with
  | none => none
  | some w => if w.closed then none else some { s with waiters := s.waiters.set c { w with closed := true } }

/-- A progress from the pool, or a new one. -/
def getProgress (bucket : Nat) : Option Nat → Option (Waits × Nat)
  | none => some ({ s with heap := s.heap ++ [{}] }, s.heap.length)
  | some k =>
    let b := s.buckets bucket
    (b.pool[k]?).map fun p =>
      ({ s with buckets := update s.buckets bucket { b with pool := b.pool.eraseIdx k } }, p)

variable (key : Key)

/-- Register under the lock of the bucket, where the published index is read as well. An index that
is published between the read and the release of the lock is notified after the registration. -/
def waitApply (maxIndex appliedIndex : Nat) (reuse : Option Nat) : Option Waits :=
  let bucket := bucketIndex key
  (s.getProgress bucket reuse).bind fun r =>
    let c := r.1.waiters.length
    let s : Waits := { r.1 with
      heap := r.1.heap.set r.2 { key := key, maxIndex := maxIndex, waitC := some c, waitApplied := true }
      waiters := r.1.waiters ++ [{ key := key, maxIndex := maxIndex, progress := r.2 }] }
    if appliedIndex ≥ maxIndex then
      let pr : Progress :=
        { key := key, maxIndex := maxIndex, waitC := some c, waitApplied := true, done := true }
      send { s with heap := s.heap.set r.2 pr } c
    else
      let b := s.buckets bucket
      some { s with buckets := update s.buckets bucket { b with progresses := b.progresses ++ [r.2] } }

/-- The body of the loop over the progresses of a bucket. -/
def notify (maxLogIndex : Nat) (s : Waits) (p : Nat) : Option Waits :=
  match s.heap[p]? with
  | none => none
  | some pr =>
    if pr.key ≠ key then some s
    else if pr.done || !pr.waitApplied then some s
    else
      match pr.waitC with
      | some c =>
        if maxLogIndex ≥ pr.maxIndex then send { s with heap := s.heap.set p { pr with done := true } } c else some s
      | none => some s

def clean (bucket : Nat) : Waits :=
  let b := s.buckets bucket
  let waiting := b.progresses.filter fun p => !(s.heap[p]?).any (·.done)
  { s with buckets := update s.buckets bucket { b with progresses := waiting } }

def didApply (maxLogIndex : Nat) : Option Waits :=
  let bucket := bucketIndex key
  ((s.buckets bucket).progresses.foldlM (notify key maxLogIndex) s).map (·.clean bucket)

/-- Take a progress out of its bucket, close its channel and give it back to the pool. -/
def put (p : Nat) : Option Waits :=
  match s.heap[p]? with
  | none => none
  | some pr =>
    let bucket := bucketIndex pr.key
    match pr.waitC with
    | none => none
    | some c =>
      (s.close c).map fun s =>
        let b := s.buckets bucket
        { s with
          heap := s.heap.set p {}
          buckets := update s.buckets bucket { progresses := b.progresses.erase p, pool := b.pool ++ [p] } }

end Waits

/-- A raft group with its keys: the applied index that each raft has published, the index that the
last completed notification carried, and the notification that the event loop still owes. -/
structure ApplyWaits where
  waits : Waits := {}
  published : Key → Nat
  notified : Key → Nat := fun _ => 0
  owed : Option (Key × Nat) := none

namespace ApplyWaits

inductive Action where
  | waitApply (key : Key) (maxIndex : Nat) (reuse : Option Nat)
  | stepApplyResp (key : Key) (index : Nat)
  | didApply
  | receive (i : Nat)
  | put (i : Nat)
  | leave (i : Nat)

variable (s : ApplyWaits)

/-- What can happen next: a pool that is asked for an object has it, the event loop steps a response
once it has notified the one before, and a call that has not returned receives its signal, puts
its progress back and returns, or returns without doing so. -/
def Enabled : Action → Prop
  | .waitApply key _ reuse => ∀ k ∈ reuse, k < (s.waits.buckets (bucketIndex key)).pool.length
  | .stepApplyResp _ _ => s.owed = none
  | .didApply => s.owed ≠ none
  | .receive i => ∃ w ∈ s.waits.waiters[i]?, w.left = false ∧ w.buffered = true
  | .put i => ∃ w ∈ s.waits.waiters[i]?, w.left = false
  | .leave i => ∃ w ∈ s.waits.waiters[i]?, w.left = false

instance (s : ApplyWaits) (a : Action) : Decidable (s.Enabled a) :=
  match a with
  | .waitApply key _ reuse =>
    inferInstanceAs (Decidable (∀ k ∈ reuse, k < (s.waits.buckets (bucketIndex key)).pool.length))
  | .stepApplyResp _ _ => inferInstanceAs (Decidable (s.owed = none))
  | .didApply => inferInstanceAs (Decidable (s.owed ≠ none))
  | .receive i => inferInstanceAs (Decidable (∃ w ∈ s.waits.waiters[i]?, w.left = false ∧ w.buffered = true))
  | .put i => inferInstanceAs (Decidable (∃ w ∈ s.waits.waiters[i]?, w.left = false))
  | .leave i => inferInstanceAs (Decidable (∃ w ∈ s.waits.waiters[i]?, w.left = false))

def perform : Action → Option ApplyWaits
  | .waitApply key maxIndex reuse =>
    (s.waits.waitApply key maxIndex (s.published key) reuse).map fun w => { s with waits := w }
  | .stepApplyResp key index =>
    -- a response below the applied index is ignored, and the loop notifies all the same
    let applied := if index < s.published key then s.published key else index
    some { s with published := update s.published key applied, owed := some (key, applied) }
  | .didApply =>
    s.owed.bind fun o =>
      (s.waits.didApply o.1 o.2).map fun w =>
        { s with waits := w, notified := update s.notified o.1 o.2, owed := none }
  | .receive i =>
    some { s with waits := { s.waits with waiters := s.waits.waiters.modify i fun w => { w with buffered := false } } }
  | .put i =>
    (s.waits.waiters[i]?).bind fun w =>
      (s.waits.put w.progress).map fun v =>
        { s with waits := { v with waiters := v.waiters.modify i fun w => { w with left := true } } }
  | .leave i =>
    some { s with waits := { s.waits with waiters := s.waits.waiters.modify i fun w => { w with left := true } } }

def step (a : Action) : Option ApplyWaits := if s.Enabled a then s.perform a else none

end ApplyWaits
end WuKongIM.RaftGroup

import WuKongIM.Lib.Heap
import WuKongIM.Lib.Run
import WuKongIM.Lib.Serial

/-! The queue in memory through which messages go out to their receivers: what is done under its
mutex, and the goroutines around it. Times are read from the clock at each step, without any
assumption on them. -/
namespace WuKongIM.Delivery
open Lib Function

/-- In nanoseconds. -/
def deliveryRetryInitial : Nat := 100000000

def deliveryRetryMax : Nat := 5000000000

structure DeliveryKey where
  channelId : List UInt8
  channelType : UInt8
  uid : List UInt8
  deriving DecidableEq

/-- An attempt is a function that the queue only calls; what its calls do is in the steps of the
workers. -/
structure DeliveryLane (α : Type) where
  key : DeliveryKey
  attempts : List α := []
  readyAt : Int := 0
  order : Nat := 0
  retryDelay : Nat := 0
  panicLogged : Bool := false

/-- Lanes are known by their addresses, the first `allocated` of which are in use. -/
structure DeliveryQueue (α : Type) where
  objects : Nat → DeliveryLane α := fun _ => { key := ⟨[], 0, []⟩ }
  allocated : Nat := 0
  lanes : DeliveryKey → Option Nat := fun _ => none
  ready : List Nat := []
  pending : Int := 0
  order : Nat := 0
  stopped : Bool := false
  canceled : Bool := false
  wake : Bool := false

structure DeliveryJob (α : Type) where
  lane : Nat
  attempt : α

inductive DeliveryError
  | stopped
  | noAttempt
  deriving DecidableEq

variable {α : Type}

def DeliveryLane.less (l l' : DeliveryLane α) : Bool :=
  if l.readyAt = l'.readyAt then l.order < l'.order else l.readyAt < l'.readyAt

namespace DeliveryQueue

variable (q : DeliveryQueue α)

def modify (lane : Nat) (f : DeliveryLane α → DeliveryLane α) : DeliveryQueue α :=
  { q with objects := update q.objects lane (f (q.objects lane)) }

def less (i j : Nat) : Bool := (q.objects i).less (q.objects j)

def makeReady (lane : Nat) (time : Int) : DeliveryQueue α :=
  let q := { q with order := q.order + 1 }.modify lane fun l => { l with readyAt := time, order := q.order + 1 }
  { q with ready := heapPush q.less q.ready lane }

def notify : DeliveryQueue α := { q with wake := true }

variable (key : DeliveryKey)

def openLane : DeliveryQueue α :=
  { q with
    objects := update q.objects q.allocated { key := key }
    allocated := q.allocated + 1
    lanes := update q.lanes key (some q.allocated) }

def laneOf (now : Int) : DeliveryQueue α × Nat :=
  match q.lanes key with
  | some lane => (q, lane)
  | none => ((q.openLane key).makeReady q.allocated now, q.allocated)

variable (lane : Nat)

def append (attempt : α) : DeliveryQueue α :=
  { q with pending := q.pending + 1 }.modify lane fun l => { l with attempts := l.attempts ++ [attempt] }

def enqueue (attempt : Option α) (now : Int) : Except DeliveryError (DeliveryQueue α) :=
  if q.canceled then .error .stopped
  else if q.stopped then .error .stopped
  else
    match attempt with
    | none => .error .noAttempt
    | some attempt =>
      let found := q.laneOf key now
      .ok (found.1.append found.2 attempt).notify

/-- One look of the scheduler into the heap: a job, or the time until which there is none. The first
attempt of a lane without attempts would panic. -/
def next (now : Int) : Option (DeliveryQueue α × (DeliveryJob α ⊕ Option Int)) :=
  match q.ready with
  | [] => some (q, .inr none)
  | root :: _ =>
    if (q.objects root).readyAt ≤ now then
      (heapPop q.less q.ready).bind fun popped =>
        (q.objects popped.1).attempts.head?.map fun attempt => ({ q with ready := popped.2 }, .inl ⟨popped.1, attempt⟩)
    else some (q, .inr (some (q.objects root).readyAt))

def firstPanic : DeliveryQueue α := q.modify lane fun l => { l with panicLogged := true }

/-- The attempt of a lane has come back. -/
def complete (failed : Bool) (now : Int) : Option (DeliveryQueue α) :=
  if q.stopped then some q
  else if failed then
    let delay := (q.objects lane).retryDelay
    let delay := if delay = 0 then deliveryRetryInitial else min (delay * 2) deliveryRetryMax
    some ((q.modify lane fun l => { l with retryDelay := delay }).makeReady lane (now + delay)).notify
  else
    match (q.objects lane).attempts with
    | [] => none
    | _ :: attempts =>
      let q := { q with pending := q.pending - 1 }
      let q := q.modify lane fun l => { l with attempts := attempts, retryDelay := 0, panicLogged := false }
      if attempts.isEmpty then some { q with lanes := update q.lanes (q.objects lane).key none }
      else some (q.makeReady lane now).notify

/-- The end of the scheduler: what has not been done is forgotten. -/
def clear : DeliveryQueue α :=
  { q with
    stopped := true
    objects := fun p => if q.lanes (q.objects p).key = some p then { q.objects p with attempts := [] } else q.objects p
    lanes := fun _ => none
    ready := []
    pending := 0 }

end DeliveryQueue

/-- What came of one call of an attempt. A panic is caught and stands for an error. -/
inductive AttemptResult
  | ok
  | error
  | panicked
  deriving DecidableEq

/-- Where the scheduler is: before it looks whether the queue has been cancelled, before it takes
the mutex, with a job that no worker has taken yet, asleep until a signal comes or the time, if any,
is over, on its way out, or gone. -/
inductive Scheduler (α : Type)
  | checking
  | looking
  | offering (job : DeliveryJob α)
  | waiting (time : Option Int)
  | closing
  | gone

/-- Where a worker is. It has called the attempt from `running` on, and the attempt has come back in
`returned` and `completing`. -/
inductive Worker (α : Type)
  | idle
  | received (job : DeliveryJob α)
  | running (job : DeliveryJob α)
  | returned (job : DeliveryJob α) (result : AttemptResult)
  | completing (job : DeliveryJob α) (result : AttemptResult)
  | gone

/-- The queue with its goroutines. The log has what has become of the attempts, and nothing reads
it. -/
structure Deliveries (α : Type) where
  queue : DeliveryQueue α := {}
  scheduler : Scheduler α := .checking
  workers : List (Worker α)
  log : List (DeliveryKey × TaskEvent α) := []

inductive DeliveryStep (α : Type)
  | enqueue (key : DeliveryKey) (attempt : Option α) (now : Int)
  /-- The queue is stopped, or the context in which it was made ends. -/
  | cancel
  | check
  | look (now : Int)
  /-- A worker takes the job of the scheduler. -/
  | offer (w : Nat)
  | wake
  | timeout (now : Int)
  /-- The scheduler sees the cancellation where it waits for a worker or a signal. -/
  | leave
  | close
  /-- A worker sees the cancellation. -/
  | quit (w : Nat)
  | start (w : Nat)
  | finish (w : Nat) (result : AttemptResult)
  /-- A panic is logged unless one of the same attempt has been. -/
  | settle (w : Nat)
  | complete (w : Nat) (now : Int)

namespace Deliveries

variable (s : Deliveries α)

def keyOf (job : DeliveryJob α) : DeliveryKey := (s.queue.objects job.lane).key

def setWorker (w : Nat) (worker : Worker α) : Deliveries α := { s with workers := s.workers.set w worker }

def step : DeliveryStep α → Option (Deliveries α)
  | .enqueue key attempt now =>
    match s.queue.enqueue key attempt now with
    | .error _ => some s
    | .ok queue => attempt.map fun a => { s with queue := queue, log := s.log ++ [(key, .accepted a)] }
  | .cancel => some { s with queue := { s.queue with canceled := true } }
  | .check =>
    match s.scheduler with
    | .checking => some { s with scheduler := if s.queue.canceled then .closing else .looking }
    | _ => none
  | .look now =>
    match s.scheduler with
    | .looking => (s.queue.next now).map fun r => { s with queue := r.1, scheduler := r.2.elim .offering .waiting }
    | _ => none
  | .offer w =>
    match s.scheduler, s.workers[w]? with
    | .offering job, some .idle => some { s.setWorker w (.received job) with scheduler := .checking }
    | _, _ => none
  | .wake =>
    match s.scheduler with
    | .waiting _ => if s.queue.wake then some { s with queue := { s.queue with wake := false }, scheduler := .checking } else none
    | _ => none
  | .timeout now =>
    match s.scheduler with
    | .waiting (some time) => if time ≤ now then some { s with scheduler := .checking } else none
    | _ => none
  | .leave =>
    match s.scheduler with
    | .offering _ | .waiting _ => if s.queue.canceled then some { s with scheduler := .closing } else none
    | _ => none
  | .close =>
    match s.scheduler with
    | .closing => some { s with queue := s.queue.clear, scheduler := .gone }
    | _ => none
  | .quit w =>
    match s.workers[w]? with
    | some .idle | some (.received _) => if s.queue.canceled then some (s.setWorker w .gone) else none
    | _ => none
  | .start w =>
    match s.workers[w]? with
    | some (.received job) =>
      if s.queue.canceled then none
      else some { s.setWorker w (.running job) with log := s.log ++ [(s.keyOf job, .started job.attempt)] }
    | _ => none
  | .finish w result =>
    match s.workers[w]? with
    | some (.running job) =>
      some { s.setWorker w (.returned job result) with log := s.log ++ [(s.keyOf job, .ended job.attempt (result == .ok))] }
    | _ => none
  | .settle w =>
    match s.workers[w]? with
    | some (.returned job result) =>
      let queue := if result = .panicked then s.queue.firstPanic job.lane else s.queue
      some { s.setWorker w (.completing job result) with queue := queue }
    | _ => none
  | .complete w now =>
    match s.workers[w]? with
    | some (.completing job result) =>
      (s.queue.complete job.lane (result != .ok) now).map fun queue => { s.setWorker w .idle with queue := queue }
    | _ => none

def Start : Prop := ∃ workers, 0 < workers ∧ s = { workers := List.replicate workers .idle }

end Deliveries

def eventsOf (log : List (DeliveryKey × TaskEvent α)) (key : DeliveryKey) : List (TaskEvent α) :=
  log.filterMap fun e => if e.1 = key then some e.2 else none

def Scheduler.jobs : Scheduler α → List (DeliveryJob α)
  | .offering job => [job]
  | _ => []

def Worker.jobs : Worker α → List (DeliveryJob α)
  | .idle | .gone => []
  | .received job | .running job | .returned job _ | .completing job _ => [job]

/-- The attempt has come back without an error, which the queue has not been told. -/
def Worker.unrecorded : Worker α → Bool
  | .returned _ result | .completing _ result => result == .ok
  | _ => false

def Deliveries.jobs (s : Deliveries α) : List (DeliveryJob α) := s.scheduler.jobs ++ s.workers.flatMap Worker.jobs

/-- How many accepted attempts have not come back without an error. -/
def Deliveries.outstanding (s : Deliveries α) : Int :=
  (s.log.filterMap fun e => e.2.acceptedTask).length - (s.log.filterMap fun e => e.2.succeededTask).length

def DeliveryQueue.attempts (q : DeliveryQueue α) (key : DeliveryKey) : List α :=
  (q.lanes key).elim [] fun lane => (q.objects lane).attempts

end WuKongIM.Delivery

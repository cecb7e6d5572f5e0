import Mathlib.Data.List.Nodup
import WuKongIM.Delivery.DeliveryDiscipline

/-! The delivery queue in any interleaving of its callers, its scheduler and its workers, up to
where it is stopped. -/
namespace WuKongIM.Delivery
open Lib List Option Function DeliveryQueue TaskEvent
open Worker (unrecorded)
open Deliveries (Start)
variable {α : Type} {w : Nat}

namespace DeliveryQueue
variable {q q' : DeliveryQueue α} {f : DeliveryLane α → DeliveryLane α} {lane p : Nat} {attempt : Option α} {key : DeliveryKey}
  {now time : Int} {failed : Bool} {β : Type}

theorem modify_of_ne (h : p ≠ lane) : (q.modify lane f).objects p = q.objects p :=
  update_of_ne h _ _

theorem modify_self : (q.modify lane f).objects lane = f (q.objects lane) :=
  update_self _ _ _

theorem modify_congr (g : DeliveryLane α → β) (h : ∀ l, g (f l) = g l) (p : Nat) :
    g ((q.modify lane f).objects p) = g (q.objects p) := by
  by_cases hp : p = lane
  · subst hp
    rw [modify_self, h]
  · rw [modify_of_ne hp]

theorem makeReady_perm (time : Int) : (q.makeReady lane time).ready.Perm (lane :: q.ready) := heapPush_perm _ _ _

theorem makeReady_congr (g : DeliveryLane α → β)
    (h : ∀ l readyAt order, g { l with readyAt := readyAt, order := order } = g l)
    (time : Int) (p : Nat) : g ((q.makeReady lane time).objects p) = g (q.objects p) :=
  modify_congr g (fun l => h l _ _) p

theorem makeReady_of_ne (time : Int) (h : p ≠ lane) : (q.makeReady lane time).objects p = q.objects p :=
  update_of_ne h _ _

theorem key_requeue (hf : ∀ l, (f l).key = l.key)
    (p : Nat) : (((q.modify lane f).makeReady lane time).objects p).key = (q.objects p).key :=
  (makeReady_congr DeliveryLane.key (fun _ _ _ => rfl) time p).trans (modify_congr DeliveryLane.key hf p)

theorem attempts_requeue_of_ne (hp : p ≠ lane) :
    (((q.modify lane f).makeReady lane time).objects p).attempts = (q.objects p).attempts := by
  rw [makeReady_of_ne time hp, modify_of_ne hp]

theorem attempts_requeue_self : (((q.modify lane f).makeReady lane time).objects lane).attempts =
    (f (q.objects lane)).attempts := by
  rw [makeReady_congr DeliveryLane.attempts (fun _ _ _ => rfl) time, modify_self]

structure Appended (q q' : DeliveryQueue α) (lane : Nat) (a : α) : Prop where
  lanes : q'.lanes = q.lanes
  allocated : q'.allocated = q.allocated
  ready : q'.ready = q.ready
  keys : ∀ p, (q'.objects p).key = (q.objects p).key
  other : ∀ p ≠ lane, (q'.objects p).attempts = (q.objects p).attempts
  attempts : (q'.objects lane).attempts = (q.objects lane).attempts ++ [a]

structure Opened (q q' : DeliveryQueue α) (key : DeliveryKey) (a : α) : Prop where
  lanes : q'.lanes = update q.lanes key (some q.allocated)
  allocated : q'.allocated = q.allocated + 1
  ready : q'.ready.Perm (q.allocated :: q.ready)
  key : (q'.objects q.allocated).key = key
  other : ∀ p ≠ q.allocated, q'.objects p = q.objects p
  attempts : (q'.objects q.allocated).attempts = [a]

theorem append_self (a : α) : (q.append lane a).objects lane =
    { q.objects lane with attempts := (q.objects lane).attempts ++ [a] } :=
  modify_self

theorem append_of_ne (a : α) (hp : p ≠ lane) : (q.append lane a).objects p = q.objects p := modify_of_ne hp

theorem append_key (a : α) (p : Nat) : ((q.append lane a).objects p).key = (q.objects p).key :=
  modify_congr (f := fun l => { l with attempts := l.attempts ++ [a] }) DeliveryLane.key (fun _ => rfl) p

theorem enqueue_eq_ok (h : q.enqueue key attempt now = .ok q') : ∃ a, attempt = some a ∧
    q.canceled = false ∧ q'.stopped = q.stopped ∧ q'.wake ∧ q'.pending = q.pending + 1 ∧
      ((∃ lane, q.lanes key = some lane ∧ Appended q q' lane a) ∨ q.lanes key = none ∧ Opened q q' key a) := by
  unfold enqueue at h
  split at h
  · cases h
  rename_i hopen
  have hopen := Bool.eq_false_iff.mpr hopen
  split at h
  · cases h
  cases attempt with
  | none => cases h
  | some a =>
    cases h
    cases hlane : q.lanes key with
    | some lane =>
      have hfound : q.laneOf key now = (q, lane) := by rw [laneOf, hlane]
      rw [hfound]
      refine ⟨a, rfl, hopen, rfl, rfl, rfl, .inl ⟨lane, rfl, rfl, rfl, rfl, append_key a, fun p hp => ?_, ?_⟩⟩
      · exact congrArg DeliveryLane.attempts (append_of_ne a hp)
      · exact congrArg DeliveryLane.attempts (append_self a)
    | none =>
      have hfound : q.laneOf key now = ((q.openLane key).makeReady q.allocated now, q.allocated) := by rw [laneOf, hlane]
      have hnew : (q.openLane key).objects q.allocated = { key := key } := update_self _ _ _
      rw [hfound]
      refine ⟨a, rfl, hopen, rfl, rfl, rfl, .inr ⟨rfl, rfl, rfl, makeReady_perm _, ?_, fun p hp => ?_, ?_⟩⟩
      · refine (append_key a _).trans ((makeReady_congr DeliveryLane.key (fun _ _ _ => rfl) _ _).trans ?_)
        rw [hnew]
      · exact (append_of_ne a hp).trans ((makeReady_of_ne _ hp).trans (update_of_ne hp _ _))
      · refine (congrArg DeliveryLane.attempts (append_self a)).trans ?_
        rw [makeReady_congr DeliveryLane.attempts fun _ _ _ => rfl, hnew]
        rfl

theorem next_canceled {r : DeliveryQueue α × (DeliveryJob α ⊕ Option Int)}
    (h : q.next now = some r) : r.1.canceled = q.canceled := by
  rw [next] at h
  split at h
  · cases h
    rfl
  split at h
  · obtain ⟨popped, -, h⟩ := bind_eq_some_iff.mp h
    obtain ⟨attempt, -, rfl⟩ := map_eq_some_iff.mp h
    rfl
  · cases h
    rfl

theorem complete_canceled (h : q.complete lane failed now = some q') : q'.canceled = q.canceled := by
  unfold complete at h
  split at h
  · cases h
    rfl
  split at h
  · cases h
    rfl
  · split at h
    · cases h
    · split at h <;> cases h <;> rfl

structure Alike (q q' : DeliveryQueue α) : Prop where
  lanes : q'.lanes = q.lanes
  allocated : q'.allocated = q.allocated
  ready : q'.ready = q.ready
  pending : q'.pending = q.pending
  stopped : q'.stopped = q.stopped
  wake : q'.wake = q.wake
  keys : ∀ p, (q'.objects p).key = (q.objects p).key
  attempts : ∀ p, (q'.objects p).attempts = (q.objects p).attempts
  readyAt : ∀ p, (q'.objects p).readyAt = (q.objects p).readyAt

theorem Alike.refl (q : DeliveryQueue α) : Alike q q :=
  ⟨rfl, rfl, rfl, rfl, rfl, rfl, fun _ => rfl, fun _ => rfl, fun _ => rfl⟩

theorem alike_firstPanic (q : DeliveryQueue α) (lane : Nat) : Alike q (q.firstPanic lane) where
  lanes := rfl
  allocated := rfl
  ready := rfl
  pending := rfl
  stopped := rfl
  wake := rfl
  keys := modify_congr DeliveryLane.key fun _ => rfl
  attempts := modify_congr DeliveryLane.attempts fun _ => rfl
  readyAt := modify_congr DeliveryLane.readyAt fun _ => rfl

/-- The lane goes back to the heap, with the attempts that are left. -/
structure Requeued (q q' : DeliveryQueue α) (lane : Nat) (failed : Bool) : Prop where
  lanes : q'.lanes = q.lanes
  ready : q'.ready.Perm (lane :: q.ready)
  wake : q'.wake = true
  attempts : (q'.objects lane).attempts = if failed then (q.objects lane).attempts else (q.objects lane).attempts.tail
  left : (q'.objects lane).attempts ≠ []

structure Dismissed (q q' : DeliveryQueue α) (lane : Nat) (failed : Bool) : Prop where
  lanes : q'.lanes = update q.lanes (q.objects lane).key none
  ready : q'.ready = q.ready
  wake : q'.wake = q.wake
  readyAt : ∀ p, (q'.objects p).readyAt = (q.objects p).readyAt
  succeeded : failed = false
  last : (q.objects lane).attempts.tail = []

theorem complete_eq_some (hstopped : q.stopped = false) (hne : (q.objects lane).attempts ≠ [])
    (h : q.complete lane failed now = some q') : (∀ p, (q'.objects p).key = (q.objects p).key) ∧
    (∀ p ≠ lane, (q'.objects p).attempts = (q.objects p).attempts) ∧
      q'.allocated = q.allocated ∧ q'.stopped = false ∧ q'.pending = q.pending - (!failed).toNat ∧
      (Requeued q q' lane failed ∨ Dismissed q q' lane failed) := by
  unfold complete at h
  rw [if_neg (Bool.eq_false_iff.mp hstopped)] at h
  split at h
  · next hfailed =>
    cases h
    refine ⟨key_requeue fun _ => rfl, fun p hp => attempts_requeue_of_ne hp, rfl, hstopped, ?_,
      .inl ⟨rfl, makeReady_perm _, rfl, ?_, fun hnone => hne (attempts_requeue_self.symm.trans hnone)⟩⟩
    · rw [hfailed]
      exact (Int.sub_zero _).symm
    · rw [if_pos hfailed]
      exact attempts_requeue_self
  · next hsucceeded =>
    have hsucceeded := Bool.eq_false_iff.mpr hsucceeded
    split at h
    · cases h
    rename_i a attempts hattempts
    split at h
    · next hlast =>
      cases h
      have hsame {β : Type} (g : DeliveryLane α → β)
          (hg : ∀ l, g { l with attempts := attempts, retryDelay := 0, panicLogged := false } = g l) (p : Nat) :
          g (({ q with pending := q.pending - 1 }.modify lane fun l =>
            { l with attempts := attempts, retryDelay := 0, panicLogged := false }).objects p) = g (q.objects p) :=
        modify_congr g hg p
      refine ⟨hsame DeliveryLane.key fun _ => rfl,
        fun p hp => congrArg DeliveryLane.attempts (update_of_ne hp _ _), rfl, hstopped, ?_,
        .inr ⟨?_, rfl, rfl, hsame DeliveryLane.readyAt fun _ => rfl, hsucceeded, ?_⟩⟩
      · rw [hsucceeded]
        rfl
      · exact congrArg (fun key => update q.lanes key none) (hsame DeliveryLane.key (fun _ => rfl) lane)
      · rw [hattempts]
        exact isEmpty_iff.mp hlast
    · next hmore =>
      cases h
      refine ⟨key_requeue fun _ => rfl, fun p hp => attempts_requeue_of_ne hp, rfl, hstopped, ?_,
        .inl ⟨rfl, makeReady_perm _, rfl, ?_, fun hnone => hmore ?_⟩⟩
      · rw [hsucceeded]
        rfl
      · rw [hsucceeded, hattempts]
        exact attempts_requeue_self
      · exact isEmpty_iff.mpr (attempts_requeue_self.symm.trans hnone)

end DeliveryQueue

def Scheduler.places : Scheduler α → List (Nat × Place α)
  | .offering job => [(job.lane, .held job.attempt)]
  | _ => []

def Worker.places : Worker α → List (Nat × Place α)
  | .idle | .gone => []
  | .received job => [(job.lane, .held job.attempt)]
  | .running job => [(job.lane, .running job.attempt)]
  | .returned job result | .completing job result => [(job.lane, .ended job.attempt (result == .ok))]

def places (ready : List Nat) (scheduler : Scheduler α) (workers : List (Worker α)) : List (Nat × Place α) :=
  ready.map (fun p => (p, Place.ready)) ++ (scheduler.places ++ workers.flatMap Worker.places)

variable {ready ready' : List Nat} {scheduler : Scheduler α} {workers : List (Worker α)} {worker : Worker α}

theorem Scheduler.map_fst_places (scheduler : Scheduler α) :
    scheduler.places.map Prod.fst = scheduler.jobs.map DeliveryJob.lane := by
  cases scheduler <;> rfl

theorem Worker.map_fst_places (worker : Worker α) : worker.places.map Prod.fst = worker.jobs.map DeliveryJob.lane := by
  cases worker <;> rfl

theorem map_fst_places : (places ready scheduler workers).map Prod.fst =
    ready ++ (scheduler.jobs ++ workers.flatMap Worker.jobs).map DeliveryJob.lane := by
  have hready : (ready.map fun p => (p, (Place.ready : Place α))).map Prod.fst = ready := by
    rw [List.map_map]
    exact map_id ready
  rw [places, map_append, map_append, map_append, hready, Scheduler.map_fst_places, map_flatMap, map_flatMap]
  simp only [Worker.map_fst_places]

theorem places_ready (h : ready'.Perm (p :: ready)) :
    (places ready' scheduler workers).Perm ((p, .ready) :: places ready scheduler workers) :=
  (h.map fun p => (p, Place.ready)).append_right _

theorem places_perm (h : ready'.Perm ready) : (places ready' scheduler workers).Perm (places ready scheduler workers) :=
  (h.map fun p => (p, Place.ready)).append_right _

theorem places_offering (scheduler : Scheduler α) (h : scheduler.places = []) {job : DeliveryJob α} :
    (places ready (.offering job) workers).Perm ((job.lane, .held job.attempt) :: places ready scheduler workers) := by
  rw [places, places, h]
  exact perm_middle

theorem places_worker (h : workers[w]? = some worker) :
    (places ready scheduler workers).Perm (worker.places ++ places ready scheduler (workers.eraseIdx w)) := by
  obtain ⟨hw, rfl⟩ := List.getElem?_eq_some_iff.mp h
  have hflat := (getElem_cons_eraseIdx_perm hw).symm.flatMap_right Worker.places
  refine ((hflat.append_left scheduler.places).append_left _).trans ?_
  exact ((perm_append_comm_assoc _ _ _).append_left _).trans (perm_append_comm_assoc _ _ _)

theorem places_set (h : workers[w]? = some worker) (worker' : Worker α) :
    (places ready scheduler (workers.set w worker')).Perm
      (worker'.places ++ places ready scheduler (workers.eraseIdx w)) := by
  obtain ⟨hw, -⟩ := List.getElem?_eq_some_iff.mp h
  have hset : (workers.set w worker')[w]? = some worker' := getElem?_set_self hw
  have hperm : (places ready scheduler (workers.set w worker')).Perm _ := places_worker hset
  rwa [eraseIdx_set_eq] at hperm

namespace Deliveries
variable {s t : Deliveries α} {a : DeliveryStep α}

/-- What holds until the queue is stopped. A scheduler that sleeps without a signal sleeps until the
first of the heap is ready. -/
structure Inv (s : Deliveries α) : Prop where
  custody : Custody s.queue (places s.queue.ready s.scheduler s.workers) s.log
  stopped : s.queue.stopped = false
  closing : s.scheduler ≠ .closing
  asleep : ∀ time, s.scheduler = .waiting time →
    s.queue.wake = true ∨ time = s.queue.ready.head?.map fun p => (s.queue.objects p).readyAt
  pending : s.queue.pending = s.outstanding + s.workers.countP unrecorded

theorem Start.inv (h : s.Start) : s.Inv := by
  obtain ⟨workers, -, rfl⟩ := h
  have hplaces : places [] .checking (replicate workers (.idle : Worker α)) = [] := by
    induction workers with
    | zero => rfl
    | succ workers ih => exact ih
  have hcount : (replicate workers (.idle : Worker α)).countP unrecorded = 0 := by
    rw [countP_eq_zero]
    intro worker hworker
    rw [eq_of_mem_replicate hworker]
    exact Bool.false_ne_true
  refine ⟨?_, rfl, nofun, nofun, ?_⟩
  · rw [hplaces]
    refine ⟨nodup_nil, fun _ _ => iff_of_false nofun fun h => ?_, nofun, nofun, fun _ _ => Serial.nil⟩
    cases h.1
  · rw [hcount]
    rfl

theorem outstanding_append {e : TaskEvent α} (hlog : t.log = s.log ++ [(key, e)]) : t.outstanding =
    s.outstanding + e.acceptedTask.toList.length - e.succeededTask.toList.length := by
  have hone {β : Type} (f : TaskEvent α → Option β) :
      (t.log.filterMap fun e => f e.2).length = (s.log.filterMap fun e => f e.2).length + (f e).toList.length := by
    rw [hlog]
    cases hf : f e <;> simp [hf]
  rw [outstanding, outstanding, hone, hone]
  omega

theorem countP_set {p : Worker α → Bool} {workers : List (Worker α)} {worker : Worker α} (h : workers[w]? = some worker)
    (worker' : Worker α) : (workers.set w worker').countP p + (p worker).toNat = workers.countP p + (p worker').toNat := by
  obtain ⟨hw, rfl⟩ := List.getElem?_eq_some_iff.mp h
  rw [(set_perm_cons_eraseIdx hw worker').countP_eq, ← (getElem_cons_eraseIdx_perm hw).countP_eq,
    countP_cons, countP_cons]
  have hone (b : Bool) : b.toNat = if b then 1 else 0 := by cases b <;> rfl
  rw [hone, hone]
  omega

section
variable (h : s.Inv)
include h

theorem Inv.goOn {worker worker' : Worker α} {x y : Place α} (hw : s.workers[w]? = some worker)
    (hx : worker.places = [(p, x)]) (hy : worker'.places = [(p, y)])
    (hqueue : s.queue.Alike t.queue) (hscheduler : t.scheduler = s.scheduler)
    (hworkers : t.workers = s.workers.set w worker')
    (hlog : ∀ key ≠ (s.queue.objects p).key, eventsOf t.log key = eventsOf s.log key)
    (hsuits : x.Suits (s.queue.objects p).attempts (eventsOf s.log (s.queue.objects p).key) →
      y.Suits (s.queue.objects p).attempts (eventsOf t.log (s.queue.objects p).key))
    (hcount : t.outstanding + worker'.unrecorded.toNat = s.outstanding + worker.unrecorded.toNat) : t.Inv where
  custody := by
    have hcustody := h.custody.perm (places_worker hw).symm
    rw [hx] at hcustody
    rw [hqueue.ready, hscheduler, hworkers]
    refine Custody.perm ?_ ((places_set hw worker').trans (.of_eq (by rw [hy])))
    refine hcustody.move hqueue.lanes hqueue.allocated hqueue.keys (fun p' _ => hqueue.attempts p') hlog ?_
    rw [hqueue.attempts]
    exact hsuits (hcustody.suits (p, x) mem_cons_self)
  stopped := hqueue.stopped.trans h.stopped
  closing := hscheduler ▸ h.closing
  asleep time htime := by
    rw [hscheduler] at htime
    rw [hqueue.wake, hqueue.ready]
    simp only [hqueue.readyAt]
    exact h.asleep time htime
  pending := by
    have hset := countP_set (p := unrecorded) hw worker'
    rw [hqueue.pending, h.pending, hworkers]
    omega

theorem Inv.start (hstep : s.step (.start w) = some t) : t.Inv := by
  rw [step] at hstep
  split at hstep
  · next job hw =>
    split at hstep
    · cases hstep
    cases hstep
    refine h.goOn hw rfl rfl (.refl _) rfl rfl (fun key hkey => eventsOf_append_ne _ hkey _) (fun hsuits => ?_) ?_
    · exact (eventsOf_append_self s.log (s.keyOf job) _).symm ▸ hsuits.start
    · rw [outstanding_append rfl]
      simp [acceptedTask, succeededTask, unrecorded]
  · cases hstep

theorem Inv.finish {result : AttemptResult} (hstep : s.step (.finish w result) = some t) : t.Inv := by
  rw [step] at hstep
  split at hstep
  · next job hw =>
    cases hstep
    refine h.goOn hw rfl rfl (.refl _) rfl rfl (fun key hkey => eventsOf_append_ne _ hkey _) (fun hsuits => ?_) ?_
    · exact (eventsOf_append_self s.log (s.keyOf job) _).symm ▸ hsuits.finish _
    · rw [outstanding_append rfl]
      change _ + ((result == .ok).toNat : Int) = _
      cases result == .ok <;> simp [acceptedTask, succeededTask, unrecorded]
  · cases hstep

theorem Inv.settle (hstep : s.step (.settle w) = some t) : t.Inv := by
  rw [step] at hstep
  split at hstep
  · next job result hw =>
    cases hstep
    refine h.goOn hw rfl rfl ?_ rfl rfl (fun _ _ => rfl) id rfl
    split
    · exact alike_firstPanic _ _
    · exact .refl _
  · cases hstep

theorem Inv.complete (hstep : s.step (.complete w now) = some t) : t.Inv := by
  rw [step] at hstep
  split at hstep
  · next job result hw =>
    obtain ⟨queue, hqueue, rfl⟩ := map_eq_some_iff.mp hstep
    have hcustody := h.custody.perm (places_worker hw).symm
    have hsuits : (Place.ended job.attempt (result == .ok)).Suits _ _ := hcustody.suits (job.lane, _) mem_cons_self
    obtain ⟨hkeys, hother, hallocated, hstopped, hpending, hrest⟩ := complete_eq_some h.stopped hsuits.ne_nil hqueue
    have hpending : queue.pending = s.outstanding + (s.workers.set w .idle).countP unrecorded := by
      have hcount := countP_set (p := unrecorded) hw .idle
      change _ + (result == .ok).toNat = _ + 0 at hcount
      rw [hpending, h.pending]
      change _ - ((!!(result == .ok)).toNat : Int) = _
      rw [Bool.not_not]
      omega
    rcases hrest with hback | hgone
    · have hplaces : (places queue.ready s.scheduler (s.workers.set w .idle)).Perm
          ((job.lane, .ready) :: places s.queue.ready s.scheduler (s.workers.eraseIdx w)) :=
        (places_set hw .idle).trans (places_ready hback.ready)
      refine ⟨Custody.perm ?_ hplaces, hstopped, h.closing, fun _ _ => .inl hback.wake, hpending⟩
      refine hcustody.move hback.lanes hallocated hkeys hother (fun _ _ => rfl) ⟨hback.left, ?_⟩
      have hserial := hsuits.2
      rw [hback.attempts]
      change Serial _ (if (!(result == .ok)) then _ else _) false
      cases hok : result == .ok with
      | true | false => rwa [hok] at hserial
    · refine ⟨Custody.perm ?_ (places_set hw .idle), hstopped, h.closing, fun time htime => ?_, hpending⟩
      · rw [hgone.ready]
        refine hcustody.remove hgone.lanes hallocated hkeys hother ?_
        have hserial := hsuits.2
        have hok : (result == .ok) := by simpa using hgone.succeeded
        rw [hok, hgone.last] at hserial
        exact hserial
      · rw [hgone.ready, hgone.wake]
        simp only [hgone.readyAt]
        exact h.asleep time htime
  · cases hstep

theorem Inv.enqueue (hstep : s.step (.enqueue key attempt now) = some t) : t.Inv := by
  rw [step] at hstep
  split at hstep
  · cases hstep
    exact h
  · next queue hqueue =>
    obtain ⟨a, rfl, -, hstopped, hwake, hpending, hlane⟩ := enqueue_eq_ok hqueue
    cases hstep
    refine ⟨?_, hstopped.trans h.stopped, h.closing, fun _ _ => .inl hwake, ?_⟩
    · have hlog (key' : DeliveryKey) (hkey' : key' ≠ key) :
        eventsOf (s.log ++ [(key, .accepted a)]) key' = eventsOf s.log key' :=
        eventsOf_append_ne _ hkey' _
      have hself := eventsOf_append_self s.log key (.accepted a)
      rcases hlane with ⟨lane, hlane, happended⟩ | ⟨hnone, hopened⟩
      · obtain ⟨hmem, hkey⟩ := (h.custody.current key lane).mp hlane
        obtain ⟨⟨_, x⟩, hx, rfl⟩ := mem_map.mp hmem
        obtain ⟨before, after, hsplit⟩ := append_of_mem hx
        have hperm : (places s.queue.ready s.scheduler s.workers).Perm ((_, x) :: (before ++ after)) := hsplit ▸ perm_middle
        have hcustody := h.custody.perm hperm.symm
        rw [happended.ready]
        refine Custody.perm ?_ hperm
        refine hcustody.move happended.lanes happended.allocated happended.keys happended.other (hkey ▸ hlog) ?_
        rw [happended.attempts, hkey, hself]
        have hsuits := hcustody.suits (_, x) mem_cons_self
        rw [hkey] at hsuits
        exact hsuits.accept a
      · refine Custody.perm ?_ (places_ready hopened.ready)
        refine h.custody.add hnone hopened.lanes hopened.allocated hopened.key hopened.other hlog ?_
        rw [hopened.attempts, hself]
        exact ⟨cons_ne_nil _ _, (h.custody.absent key hnone).accept a⟩
    · rw [outstanding_append rfl]
      rw [hpending, h.pending]
      simp only [acceptedTask, succeededTask, toList, length_singleton, length_nil]
      omega

theorem Inv.proceed (hplaces : s.scheduler.places = []) (scheduler : Scheduler α) (hplaces' : scheduler.places = [])
    (hclosing : scheduler ≠ .closing) (hwaiting : ∀ time, scheduler ≠ .waiting time) (wake : Bool) :
    Inv { s with queue := { s.queue with wake := wake }, scheduler := scheduler } where
  custody := by
    have hcustody := h.custody
    rw [places, hplaces] at hcustody
    rw [places, hplaces']
    exact { hcustody with }
  stopped := h.stopped
  closing := hclosing
  asleep time htime := absurd htime (hwaiting time)
  pending := h.pending

theorem Inv.look (hstep : s.step (.look now) = some t) : t.Inv := by
  rw [step] at hstep
  split at hstep
  · next hlooking =>
    obtain ⟨⟨queue, found⟩, hnext, rfl⟩ := map_eq_some_iff.mp hstep
    have hcustody := h.custody
    rw [hlooking] at hcustody
    rw [DeliveryQueue.next] at hnext
    split at hnext
    · next hready =>
      cases hnext
      refine ⟨hcustody, h.stopped, nofun, fun time htime => .inr ?_, h.pending⟩
      cases htime
      rw [hready]
      rfl
    · next root rest hready =>
      split at hnext
      · obtain ⟨popped, hpop, hnext⟩ := bind_eq_some_iff.mp hnext
        obtain ⟨attempt, hhead, hnext⟩ := map_eq_some_iff.mp hnext
        cases hnext
        obtain ⟨ready, hpopped, hperm⟩ := heapPop_cons s.queue.less root rest
        rw [hready, hpopped] at hpop
        cases hpop
        rw [hready] at hcustody
        refine ⟨?_, h.stopped, nofun, nofun, h.pending⟩
        refine Custody.perm ?_ ((places_offering .looking rfl).trans ((places_perm hperm).cons _))
        refine hcustody.move rfl rfl (fun _ => rfl) (fun _ _ => rfl) (fun _ _ => rfl) ⟨hhead, ?_⟩
        exact (hcustody.suits (root, .ready) mem_cons_self).2
      · cases hnext
        refine ⟨hcustody, h.stopped, nofun, fun time htime => .inr ?_, h.pending⟩
        cases htime
        rw [hready]
        rfl
  · cases hstep

theorem Inv.offer (hstep : s.step (.offer w) = some t) : t.Inv := by
  rw [step] at hstep
  split at hstep
  · next job hoffering hw =>
    cases hstep
    have hcustody := h.custody
    rw [hoffering] at hcustody
    refine ⟨hcustody.perm ?_, h.stopped, nofun, nofun, ?_⟩
    · refine (places_set hw (.received job)).trans (.trans ?_ (places_offering .checking rfl).symm)
      exact (places_worker hw).symm.cons _
    · have hcount := countP_set (p := unrecorded) hw (.received job)
      exact h.pending.trans (congrArg (fun n : Nat => s.outstanding + n) hcount.symm)
  · cases hstep

end

theorem canceled_of_step (hstep : s.step a = some t) (h : t.queue.canceled = false) : s.queue.canceled = false := by
  cases a with
    rw [step] at hstep
  | enqueue key attempt now =>
    split at hstep
    · cases hstep
      exact h
    · next queue hqueue =>
      obtain ⟨-, -, hopen, -⟩ := enqueue_eq_ok hqueue
      exact hopen
  | cancel =>
    cases hstep
    cases h
  | look now =>
    split at hstep
    · obtain ⟨r, hnext, rfl⟩ := map_eq_some_iff.mp hstep
      exact (next_canceled hnext).symm.trans h
    · cases hstep
  | complete w now =>
    split at hstep
    · obtain ⟨queue, hqueue, rfl⟩ := map_eq_some_iff.mp hstep
      exact (complete_canceled hqueue).symm.trans h
    · cases hstep
  | settle w =>
    split at hstep
    · cases hstep
      split at h <;> exact h
    · cases hstep
  | check | offer w | wake | timeout now | leave | close | quit w | start w | finish w result =>
    repeat' split at hstep
    all_goals
      cases hstep
      try exact h

theorem Inv.step (h : s.Inv) (hopen : s.queue.canceled = false) (hopen' : t.queue.canceled = false)
    (hstep : s.step a = some t) : t.Inv := by
  have hcanceled : ¬s.queue.canceled := Bool.eq_false_iff.mp hopen
  cases a with
    rw [step] at hstep
  | enqueue key attempt now => exact h.enqueue hstep
  | cancel =>
    cases hstep
    cases hopen'
  | check =>
    split at hstep
    · next hchecking =>
      rw [if_neg hcanceled] at hstep
      cases hstep
      exact h.proceed (by rw [hchecking]; rfl) .looking rfl nofun nofun s.queue.wake
    · cases hstep
  | look now => exact h.look hstep
  | offer w => exact h.offer hstep
  | wake =>
    split at hstep
    · next hwaiting =>
      split at hstep
      · cases hstep
        exact h.proceed (by rw [hwaiting]; rfl) .checking rfl nofun nofun false
      · cases hstep
    · cases hstep
  | timeout now =>
    split at hstep
    · next hwaiting =>
      split at hstep
      · cases hstep
        exact h.proceed (by rw [hwaiting]; rfl) .checking rfl nofun nofun s.queue.wake
      · cases hstep
    · cases hstep
  | leave | quit w =>
    split at hstep
    · rw [if_neg hcanceled] at hstep
      cases hstep
    · rw [if_neg hcanceled] at hstep
      cases hstep
    · cases hstep
  | close =>
    split at hstep
    · next hclosing => exact absurd hclosing h.closing
    · cases hstep
  | start w => exact h.start hstep
  | finish w result => exact h.finish hstep
  | settle w => exact h.settle hstep
  | complete w now => exact h.complete hstep

end Deliveries

/-- Until the queue is stopped, the attempts of a key are made one after the other, in the order in
which they were accepted, each until it succeeds, and none of them is lost. What the queue counts as
pending is what has not succeeded and what has, but the worker has not told yet. Each lane is in the
heap once or with one job, it has an attempt to make, and the scheduler does not sleep past it. -/
theorem delivery_queue_discipline {s : Deliveries α}
    (h : Reach Start Deliveries.step (fun _ _ => True) s) (hopen : s.queue.canceled = false) :
    (∀ key, ∃ waiting running, Serial (eventsOf s.log key) waiting running ∧
        (eventsOf s.log key).filterMap TaskEvent.acceptedTask =
          (eventsOf s.log key).filterMap TaskEvent.succeededTask ++ waiting ∧
        waiting <:+ s.queue.attempts key) ∧
      s.queue.pending = s.outstanding + s.workers.countP unrecorded ∧
      (∀ key lane, s.queue.lanes key = some lane → (s.queue.objects lane).key = key ∧
        (s.queue.ready ++ s.jobs.map DeliveryJob.lane).count lane = 1) ∧
      (∀ lane ∈ s.queue.ready ++ s.jobs.map DeliveryJob.lane, (s.queue.objects lane).attempts ≠ []) ∧
      ∀ time, s.scheduler = .waiting time → s.queue.wake = true ∨
        time = s.queue.ready.head?.map fun lane => (s.queue.objects lane).readyAt := by
  have hinv : s.queue.canceled = false → s.Inv := by
    refine h.invariant (fun s => s.queue.canceled = false → s.Inv) (fun s hs _ => hs.inv) fun s a t hs _ hstep hopen => ?_
    have hopen' := Deliveries.canceled_of_step hstep hopen
    exact (hs hopen').step hopen' hopen hstep
  have hinv := hinv hopen
  have hplaces : (places s.queue.ready s.scheduler s.workers).map Prod.fst =
    s.queue.ready ++ s.jobs.map DeliveryJob.lane := map_fst_places
  refine ⟨fun key => ?_, hinv.pending, fun key lane hlane => ?_, fun lane hlane => ?_, hinv.asleep⟩
  · rw [attempts]
    cases hlane : s.queue.lanes key with
    | none =>
      have hserial := hinv.custody.absent key hlane
      exact ⟨[], false, hserial, hserial.accepted_eq, nil_suffix⟩
    | some lane =>
      obtain ⟨hmem, rfl⟩ := (hinv.custody.current key lane).mp hlane
      obtain ⟨⟨_, x⟩, hx, rfl⟩ := List.mem_map.mp hmem
      obtain ⟨waiting, running, hserial, hsuffix⟩ := (hinv.custody.suits _ hx).serial
      exact ⟨waiting, running, hserial, hserial.accepted_eq, hsuffix⟩
  · obtain ⟨hmem, hkey⟩ := (hinv.custody.current key lane).mp hlane
    rw [← hplaces]
    exact ⟨hkey, count_eq_one_of_mem hinv.custody.nodup hmem⟩
  · rw [← hplaces] at hlane
    obtain ⟨⟨_, x⟩, hx, rfl⟩ := List.mem_map.mp hlane
    exact (hinv.custody.suits _ hx).ne_nil

private def oneWorker : Deliveries Nat where
  workers := [.idle]

private theorem oneWorker_start : oneWorker.Start := ⟨1, Nat.one_pos, rfl⟩

private def receiver : DeliveryKey := ⟨[1], 1, [2]⟩

/-- The second attempt of a receiver is made once the first one, which fails at first, has
succeeded. -/
private def twoAttempts : List (DeliveryStep Nat) :=
  [.enqueue receiver (some 7) 0, .enqueue receiver (some 8) 0, .check, .look 0, .offer 0, .start 0,
    .finish 0 .panicked, .settle 0, .complete 0 1,
    .check, .look 100000001, .offer 0, .start 0, .finish 0 .ok, .settle 0, .complete 0 2, .check, .look 2, .offer 0, .start 0]

theorem delivery_queue_discipline_of_two : ∃ s : Deliveries Nat, Reach Start Deliveries.step (fun _ _ => True) s ∧
    eventsOf s.log receiver = [.accepted 7, .accepted 8, .started 7, .ended 7 false, .started 7, .ended 7 true, .started 8] ∧
    (∃ waiting running, Serial (eventsOf s.log receiver) waiting running ∧ waiting <:+ s.queue.attempts receiver) ∧
    s.queue.pending = s.outstanding + s.workers.countP unrecorded := by
  have hstart : Reach Start Deliveries.step (fun _ _ => True) oneWorker := .init oneWorker_start
  obtain ⟨s, hreach, hs⟩ := hstart.exists_of_run twoAttempts
    (fun s => s.queue.canceled = false ∧ eventsOf s.log receiver = [.accepted 7, .accepted 8,
      .started 7, .ended 7 false, .started 7, .ended 7 true, .started 8]) (by decide +kernel)
  obtain ⟨hopen, hlog⟩ := hs
  have hdiscipline := delivery_queue_discipline hreach hopen
  obtain ⟨waiting, running, hserial, -, hsuffix⟩ := hdiscipline.1 receiver
  exact ⟨s, hreach, hlog, ⟨waiting, running, hserial, hsuffix⟩, hdiscipline.2.1⟩

/-- An attempt has succeeded, and its worker has not come to tell the queue. -/
theorem delivery_queue_pending_fails : ∃ s : Deliveries Nat, Reach Start Deliveries.step (fun _ _ => True) s ∧
    s.queue.canceled = false ∧ s.queue.pending = 1 ∧ s.outstanding = 0 := by
  have hstart : Reach Start Deliveries.step (fun _ _ => True) oneWorker := .init oneWorker_start
  exact hstart.exists_of_run
    [.enqueue receiver (some 7) 0, .check, .look 0, .offer 0, .start 0, .finish 0 .ok] _ (by decide +kernel)

end WuKongIM.Delivery

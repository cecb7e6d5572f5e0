import WuKongIM.Lib.Positions
import WuKongIM.Lib.Run

/-! The calls of a node's client. Requests and authentications take their ids from one counter and
wait for the frame with their id, each on a one-shot channel of one table. -/
namespace WuKongIM.Server
open Lib List

/-- A `Resp` or a `Connack` frame of the peer. -/
structure Answer where
  connack : Bool
  id : Nat
  status : UInt8
  body : List UInt8
  deriving DecidableEq

inductive CallPhase
  | writing
  | waiting
  | returned (answer : Option Answer)
  | panicked
  deriving DecidableEq

/-- One call of `RequestWithContext` or `sendAuth`: whether its id stands in the wait table, what
its channel was sent, and how many frames had been handled before it. -/
structure Call where
  auth : Bool
  phase : CallPhase
  registered : Bool
  received : Option Answer := none
  since : Nat
  deriving DecidableEq

/-- The first frame with the call's id. -/
def Call.answer? (frames : List Answer) (i : Nat) (c : Call) : Option Answer :=
  (frames.drop c.since).find? fun a => a.id = i

/-- `Trigger`: a registered id is taken out of the table and its channel is sent the frame. -/
def Call.trigger (a : Answer) (c : Call) : Call :=
  if c.registered then { c with registered := false, received := some a } else c

/-- What the call does with a frame from its channel: the type assertion of the other kind of frame
panics, and a refused authentication is an error. -/
def Call.take (a : Answer) (c : Call) : CallPhase :=
  if a.connack ≠ c.auth then .panicked else .returned (if c.auth ∧ a.status ≠ 0 then none else some a)

/-- The requests that `Requesting` is to count. -/
def Call.requesting (c : Call) : Bool := !c.auth && (c.phase = .writing || c.phase = .waiting)

/-- How far a call comes before it writes. -/
inductive Opening
  | unmarshalled
  | unencoded
  | registered
  deriving DecidableEq

inductive ClientAction
  | call (auth : Bool) (opening : Opening)
  | write (i : Nat) (ok : Bool)
  | frame (a : Answer)
  | receive (i : Nat)
  | cancel (i : Nat)
  deriving DecidableEq

/-- The client, with the calls that took an id at the place of their id, and the answering frames of
the peer so far. -/
structure Client where
  calls : List Call := []
  requesting : Int := 0
  frames : List Answer := []
  deriving DecidableEq

variable {phase : CallPhase} {dec : Int} {next : Call → Option Call} {a : ClientAction} {i : Nat}

namespace Client

/-- A request is counted once it is marshalled, and registered once it is encoded. -/
def call (s : Client) (auth : Bool) (opening : Opening) : Client :=
  { s with
    requesting := if auth ∨ opening = .unmarshalled then s.requesting else s.requesting + 1
    calls := s.calls ++ [{
      auth
      phase := if opening = .registered then .writing else .returned none
      registered := opening = .registered
      since := s.frames.length }] }

/-- Call `i` leaves a phase as `next` says. -/
def move (s : Client) (i : Nat) (phase : CallPhase) (dec : Int) (next : Call → Option Call) : Option Client :=
  match s.calls[i]? with
  | some c =>
    if c.phase = phase then
      (next c).map fun c' => { s with
        requesting := if c.auth then s.requesting else s.requesting - dec
        calls := s.calls.set i c' }
    else none
  | none => none

/-- A failed write returns without `Requesting.Dec` and without releasing the id, and so does, as to
its id, an authentication that times out. -/
def step (s : Client) : ClientAction → Option Client
  | .call auth opening => s.call auth opening
  | .write i ok => s.move i .writing 0 fun c => some { c with phase := if ok then .waiting else .returned none }
  | .frame a =>
    let frames := s.frames ++ [a]
    match s.calls[a.id]? with
    | some c => some { s with frames, calls := s.calls.set a.id (c.trigger a) }
    | none => some { s with frames }
  | .receive i => s.move i .waiting 1 fun c => c.received.map fun a => { c with phase := c.take a }
  | .cancel i => s.move i .waiting 1 fun c =>
    some { c with phase := .returned none, registered := c.auth && c.registered }

/-- Nothing is left unencoded or unwritten, no authentication times out, and a frame for a
registered id is of the kind its call waits for. -/
def Kept (s : Client) : ClientAction → Prop
  | .call auth opening => opening = .unencoded → auth
  | .write _ ok => ok
  | .frame a => ∀ c ∈ s.calls[a.id]?, c.registered → a.connack = c.auth
  | .receive _ => True
  | .cancel i => ∀ c ∈ s.calls[i]?, c.auth = false

instance (s : Client) (a : ClientAction) : Decidable (s.Kept a) := by
  cases a <;> unfold Kept <;> infer_instance

variable {s t : Client} {j : Nat} {c c' : Call} {r : Option Answer}

theorem move_eq_some (h : s.move i phase dec next = some t) : ∃ c c', s.calls[i]? = some c ∧
    c.phase = phase ∧ next c = some c' ∧ { s with
      requesting := if c.auth then s.requesting else s.requesting - dec
      calls := s.calls.set i c' } = t := by
  unfold move at h
  split at h
  · rename_i c hi
    split at h
    · rename_i hp
      obtain ⟨c', hc', ht⟩ := Option.map_eq_some_iff.mp h
      exact ⟨c, c', hi, hp, hc', ht⟩
    · cases h
  · cases h

theorem move_returned (h : s.move j phase dec next = some t) (hp : phase ≠ .returned r)
    (hi : s.calls[i]? = some c) (hr : c.phase = .returned r) : t.calls[i]? = some c := by
  obtain ⟨b, b', hj, hb, -, rfl⟩ := move_eq_some h
  rw [getElem?_set_ne, hi]
  rintro rfl
  cases hj.symm.trans hi
  exact hp (hb.symm.trans hr)

theorem step_returned (hst : s.step a = some t) (hi : s.calls[i]? = some c)
    (hr : c.phase = .returned r) : ∃ c', t.calls[i]? = some c' ∧ c'.phase = .returned r := by
  cases a with
  | call auth opening =>
    cases hst
    exact ⟨c, by rw [call, getElem?_append_left (List.getElem?_eq_some_iff.mp hi).1, hi], hr⟩
  | frame f => grind [step, Call.trigger]
  | write j ok | receive j | cancel j => exact ⟨c, move_returned hst nofun hi hr, hr⟩

end Client

/-- What holds for the call with id `i` once the peer has sent the frames. -/
structure Call.Sound (frames : List Answer) (i : Nat) (c : Call) : Prop where
  calm : c.phase ≠ .panicked
  left : ∀ r, c.phase = .returned r → c.registered = false
  since : c.since ≤ frames.length
  unanswered : c.registered → c.answer? frames i = none
  received : ∀ a, c.received = some a → c.answer? frames i = some a ∧ a.connack = c.auth
  returned : ∀ a, c.phase = .returned (some a) → c.answer? frames i = some a

structure Client.Sound (s : Client) : Prop where
  calls : ∀ i (c : Call), s.calls[i]? = some c → c.Sound s.frames i
  counted : s.requesting = s.calls.countP Call.requesting

section
variable {frames : List Answer} {a : Answer} {c : Call} (h : c.Sound frames i)
include h

theorem Call.Sound.answer?_append : c.answer? (frames ++ [a]) i =
    (c.answer? frames i).or (if a.id = i then some a else none) := by
  rw [answer?, drop_append_of_le_length h.since, find?_append, answer?, find?_singleton]
  simp only [decide_eq_true_iff]

/-- A frame that finds no registered call changes nothing for it. -/
theorem Call.Sound.pass (ha : a.id = i → c.registered = false) : c.Sound (frames ++ [a]) i where
  calm := h.calm
  left := h.left
  since := Nat.le_trans h.since (sublist_append_left _ _).length_le
  unanswered hr := by
    rw [h.answer?_append, h.unanswered hr, if_neg fun he => Bool.eq_false_iff.mp (ha he) hr, Option.none_or]
  received b hb := by
    rw [h.answer?_append, (h.received b hb).1]
    exact ⟨rfl, (h.received b hb).2⟩
  returned b hb := by rw [h.answer?_append, h.returned b hb, Option.some_or]

theorem Call.Sound.trigger (hi : a.id = i) (hk : c.registered → a.connack = c.auth) :
    (c.trigger a).Sound (frames ++ [a]) i := by
  rw [Call.trigger]
  split
  · rename_i hr
    have hans : c.answer? (frames ++ [a]) i = some a := by
      rw [h.answer?_append, h.unanswered hr, if_pos hi, Option.none_or]
    refine ⟨h.calm, fun _ _ => rfl, Nat.le_trans h.since (sublist_append_left _ _).length_le, nofun, ?_, ?_⟩
    · rintro b ⟨⟩
      exact ⟨hans, hk hr⟩
    · intro b hb
      rw [h.left _ hb] at hr
      cases hr
  · rename_i hr
    exact h.pass fun _ => Bool.eq_false_iff.mpr hr

/-- The call takes what its channel was sent. -/
theorem Call.Sound.take (ha : c.received = some a) : Sound frames i { c with phase := c.take a } := by
  obtain ⟨hans, hk⟩ := h.received a ha
  have hr : c.registered = false := by
    refine Bool.eq_false_iff.mpr fun hr => ?_
    rw [h.unanswered hr] at hans
    cases hans
  rw [Call.take, if_neg (not_not_intro hk)]
  refine ⟨nofun, fun _ _ => hr, h.since, h.unanswered, h.received, fun b hb => ?_⟩
  split at hb
  · cases hb
  · cases hb
    exact hans

end

namespace Client
variable {s t : Client}

theorem Sound.move (h : s.Sound) (ht : s.move i phase dec next = some t)
    (hc : ∀ c c', c.Sound s.frames i → s.calls[i]? = some c → c.phase = phase → next c = some c' → c'.Sound s.frames i ∧
      (if c.requesting then 1 else 0) = (if c.auth then 0 else dec) + if c'.requesting then 1 else 0) : t.Sound := by
  obtain ⟨c, c', hi, hp, hc', rfl⟩ := move_eq_some ht
  obtain ⟨hs, hn⟩ := hc c c' (h.calls i c hi) hi hp hc'
  refine ⟨forall_set hs h.calls, ?_⟩
  have hcount := h.counted
  grind

theorem Sound.call (h : s.Sound) (auth : Bool) (opening : Opening)
    (ha : opening = .unencoded → auth) : (s.call auth opening).Sound where
  calls i c hc := by
    obtain hlt | hle := Nat.lt_or_ge i s.calls.length
    · rw [Client.call, getElem?_append_left hlt] at hc
      exact h.calls i c hc
    · rw [Client.call, getElem?_append_right hle, getElem?_singleton] at hc
      split at hc
      · cases hc
        refine ⟨?_, ?_, Nat.le_refl _, fun _ => by simp [Call.answer?, Client.call], nofun, ?_⟩ <;> cases opening <;> simp
      · cases hc
  counted := by
    rw [Client.call]
    cases auth <;> cases opening <;> simp_all [Call.requesting, h.counted]

theorem Sound.step (h : s.Sound) (ha : s.Kept a) (hst : s.step a = some t) : t.Sound := by
  cases a with
  | call auth opening =>
    cases hst
    exact h.call auth opening ha
  | write i ok =>
    cases show ok = true from ha
    refine h.move hst ?_
    rintro c - hs - hp ⟨⟩
    exact ⟨⟨nofun, nofun, hs.since, hs.unanswered, hs.received, nofun⟩, by simp [Call.requesting, hp]⟩
  | frame f =>
    simp only [step] at hst
    split at hst
    · rename_i c hi
      cases hst
      refine ⟨fun j b hj => ?_, h.counted.trans ?_⟩
      · by_cases hij : f.id = j
        · subst hij
          rw [getElem?_set_self (List.getElem?_eq_some_iff.mp hi).1] at hj
          cases hj
          exact (h.calls _ c hi).trigger rfl (ha c hi)
        · rw [getElem?_set_ne hij] at hj
          exact (h.calls j b hj).pass fun he => absurd he hij
      · rw [countP_set_of_eq hi]
        rw [Call.trigger]
        split <;> rfl
    · rename_i hi
      cases hst
      refine ⟨fun j b hj => (h.calls j b hj).pass ?_, h.counted⟩
      rintro rfl
      cases hi.symm.trans hj
  | receive i =>
    refine h.move hst fun c c' hs _ hp hc' => ?_
    obtain ⟨f, hf, rfl⟩ := Option.map_eq_some_iff.mp hc'
    refine ⟨hs.take hf, ?_⟩
    cases hauth : c.auth <;> simp [Call.requesting, Call.take, hp, (hs.received f hf).2, hauth]
  | cancel i =>
    refine h.move hst ?_
    rintro c - hs hi hp ⟨⟩
    have hauth : c.auth = false := ha c hi
    have hr : (c.auth && c.registered) = false := by rw [hauth, Bool.false_and]
    refine ⟨⟨nofun, fun _ _ => hr, hs.since, ?_, hs.received, nofun⟩, by simp [Call.requesting, hp, hauth]⟩
    intro ho
    cases hr.symm.trans ho

/-- While no write fails, no authentication times out and every frame is of its call's kind, no call
panics. A call returns once, with the first frame that carries its id or with an error, its id is
then out of the table, and `Requesting` is the number of the requests in progress. -/
theorem calls_settled (h : Reach (· = {}) step Kept s) :
    (∀ i (c : Call), s.calls[i]? = some c → c.phase ≠ .panicked ∧ ∀ r, c.phase = .returned r →
      c.registered = false ∧ (∀ a, r = some a → c.answer? s.frames i = some a) ∧
        ∀ a t, s.step a = some t → ∃ c' : Call, t.calls[i]? = some c' ∧ c'.phase = .returned r) ∧
    s.requesting = s.calls.countP Call.requesting := by
  have hs : s.Sound := by
    refine h.invariant Sound ?_ fun s a t => Sound.step
    rintro s rfl
    exact ⟨nofun, rfl⟩
  refine ⟨fun i c hi => ⟨(hs.calls i c hi).calm, fun r hr => ⟨(hs.calls i c hi).left r hr, ?_, ?_⟩⟩, hs.counted⟩
  · rintro a rfl
    exact (hs.calls i c hi).returned a hr
  · intro a t hst
    exact step_returned hst hi hr

/-- A repeated answer comes too late. -/
theorem calls_settled_repeated : ∃ s, Reach (· = {}) step Kept s ∧
    s.calls.map (·.phase) = [.returned (some ⟨false, 0, 0, [7]⟩)] ∧ s.requesting = s.calls.countP Call.requesting := by
  have hr : Reach (· = {}) step Kept {} := .init rfl
  obtain ⟨s, hs, hp⟩ := hr.exists_of_run
    [.call false .registered, .write 0 true, .frame ⟨false, 0, 0, [7]⟩, .frame ⟨false, 0, 0, [8]⟩, .receive 0]
    (fun s => s.calls.map (·.phase) = [.returned (some ⟨false, 0, 0, [7]⟩)]) (by decide +kernel)
  exact ⟨s, hs, hp, (calls_settled hs).2⟩

/-- A request whose write fails stays counted and registered, an authentication that times out stays
registered, and a `Connack` with the id of a request makes its call panic. -/
theorem calls_settled_fails :
    (exec step (fun _ _ => true) {} [.call false .registered, .write 0 false]).map
      (fun s => (s.calls, s.requesting)) = some ([⟨false, .returned none, true, none, 0⟩], 1) ∧
    (exec step (fun _ _ => true) {} [.call true .registered, .write 0 true, .cancel 0]).map (·.calls) =
      some [⟨true, .returned none, true, none, 0⟩] ∧
    (exec step (fun _ _ => true) {} [.call false .registered, .write 0 true, .frame ⟨true, 0, 0, []⟩, .receive 0]).map
      (fun s => s.calls.map (·.phase)) = some [.panicked] := by
  decide +kernel

end Client

end WuKongIM.Server

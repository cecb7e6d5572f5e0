import WuKongIM.WKCache.MessageEventCache
import WuKongIM.WKDB.EventLanes

/-! Repetitions of an event: what the database and the cache do with an event that they have taken
before. -/
namespace WuKongIM.WKDB
open Lib List EventTables

variable {state : MessageEventState}

theorem isTerminal_reduce_eq {texts : Texts} (h : isTerminalStatus state.status = false)
    (event : MessageEvent) (seq : UInt64) :
    isTerminalStatus (reduceEventState texts state event seq).status =
      decide (event.eventType ∈ [streamClose, streamError, streamCancel, streamFinish]) := by
  by_cases hends : event.eventType ∈ [streamClose, streamError, streamCancel, streamFinish]
  · rw [decide_eq_true hends]
    exact isTerminal_reduce hends seq
  · simp only [reduceEventState]
    split_ifs <;> simp_all [isTerminalStatus]

namespace MessageLanes
variable (texts : Texts) (statusPayload : MessageEventState → Bytes)

def afterCall (m : MessageLanes) (call : Call) : MessageLanes :=
  (m.appendMessageEventWithState texts statusPayload call.1 call.2).2

def afterCalls (m : MessageLanes) (calls : List Call) : MessageLanes := calls.foldl (afterCall texts statusPayload) m

/-- Two events of one lane: their keys have one hash. -/
def SameLane (e e' : MessageEvent) : Prop :=
  hashWithString (normalizeEventKey texts e.eventKey) = hashWithString (normalizeEventKey texts e'.eventKey)
  deriving Decidable

variable {texts statusPayload} {m : MessageLanes} {call : Call}

variable {e : MessageEvent}

theorem stateOf_eq {e' : MessageEvent} (h : SameLane texts e e') : m.stateOf texts e = m.stateOf texts e' := by
  rw [stateOf, stateOf, getMessageEventState, h, getMessageEventState]

theorem Placed.stateOf_other (h : m.Placed) (hne : ¬SameLane texts e call.2) :
    (afterCall texts statusPayload m call).stateOf texts e = m.stateOf texts e := by
  rcases lanes_append texts statusPayload m call with hcall | ⟨-, hcall⟩
  · rw [afterCall, hcall]
  · rw [afterCall, hcall]
    exact (h.getState_store texts _ _).trans (if_neg hne)

variable (statusPayload) in
theorem Placed.stateOf_accepted (h : m.Placed) (ha : m.Accepts texts call) :
    ∃ answer state, (m.appendMessageEventWithState texts statusPayload call.1 call.2).1 = some
      (answer, state) ∧ answer.msgEventSeq = state.lastMsgEventSeq ∧
      (afterCall texts statusPayload m call).stateOf texts call.2 = some state ∧
      state.lastEventID = texts.trimSpace call.2.eventID ∧ isTerminalStatus state.status = ends texts call.2 ∧
      afterCall texts statusPayload m call ≠ m := by
  rcases appendEvent_cases texts statusPayload m call with ⟨hr, -⟩ | ⟨hi, -⟩ | ⟨hi, hcall⟩
  · rw [ha.1] at hr
    cases hr
  · exact absurd (hi.symm.trans ha.2) (by decide)
  · have hterminal := @not_terminal_of_stores m (normalize texts call.1 call.2) hi.2
    refine ⟨_, _, congrArg Prod.fst hcall, ?_, ?_, ?_, ?_, ?_⟩
    · exact (lastMsgEventSeq_reduce hterminal).symm
    · rw [afterCall, hcall]
      exact (h.getState_store texts _ _).trans (if_pos rfl)
    · exact lastEventID_reduce ..
    · exact isTerminal_reduce_eq hterminal ..
    · rw [afterCall, hcall]
      intro hsame
      have hseq : m.incrMessageEventSeq = m.seq.getD 0 := congrArg (fun m : MessageLanes => m.seq.getD 0) hsame
      exact absurd (UInt64.add_eq_left.mp hseq) (by decide)

theorem Placed.afterCalls (h : m.Placed) (calls : List Call) : (afterCalls texts statusPayload m calls).Placed := by
  induction calls generalizing m with
  | nil => exact h
  | cons call calls ih => exact ih h.call

variable (statusPayload) in
/-- A lane stays as its last event left it when that event ended it, and while only this event comes
to it. -/
theorem Placed.stateOf_kept (h : m.Placed) (hs : m.stateOf texts e = some state)
    (hid : state.lastEventID ≠ []) (calls : List Call)
    (hcalls : isTerminalStatus state.status = true ∨ ∀ y ∈ calls, rejects texts y.2 = false → SameLane texts e y.2 →
      texts.trimSpace y.2.eventID = state.lastEventID) :
    (MessageLanes.afterCalls texts statusPayload m calls).stateOf texts e = some state := by
  induction calls generalizing m with
  | nil => exact hs
  | cons y calls ih =>
    refine ih h.call ?_ (hcalls.imp_right fun hall z hz => hall z (mem_cons_of_mem y hz))
    by_cases hlane : SameLane texts e y.2
    · rcases lanes_append texts statusPayload m y with hcall | ⟨⟨hr, hi⟩, -⟩
      · rw [afterCall, hcall]
        exact hs
      · rw [← stateOf_eq hlane, hs, ignores, Bool.or_eq_false_iff] at hi
        rcases hcalls with hterminal | hall
        · exact absurd hterminal (Bool.eq_false_iff.mp hi.2)
        · have hrepeat : texts.trimSpace y.2.eventID = state.lastEventID := hall y mem_cons_self hr hlane
          have hsame : (normalize texts y.1 y.2).eventID = state.lastEventID := hrepeat
          simp [hsame, hid] at hi
    · rw [h.stateOf_other hlane]
      exact hs

variable (statusPayload) in
theorem answered_of_ignores (hr : rejects texts call.2 = false) (hs : m.stateOf texts call.2 = some state)
    (hi : ignores (some state) (normalize texts call.1 call.2) = true) : afterCall texts statusPayload m call = m ∧ ∃ answer,
      (m.appendMessageEventWithState texts statusPayload call.1 call.2).1 = some (answer, state) ∧
      answer.msgEventSeq = state.lastMsgEventSeq := by
  rw [← hs] at hi
  rcases appendEvent_cases texts statusPayload m call with
    ⟨hr', -⟩ | ⟨-, answer, state', hs', hseq, hcall⟩ | ⟨⟨-, hi'⟩, -⟩
  · exact absurd hr' (Bool.eq_false_iff.mp hr)
  · cases hs'.symm.trans hs
    rw [afterCall, hcall]
    exact ⟨rfl, answer, rfl, hseq⟩
  · exact absurd hi (Bool.eq_false_iff.mp hi')

theorem Placed.stateOf_of_unchanged (h : m.Placed) (hsame : afterCall texts statusPayload m call = m) {answer : NumberedEvent}
    (hanswer : (m.appendMessageEventWithState texts statusPayload call.1 call.2).1 = some (answer, state)) :
    m.stateOf texts call.2 = some state := by
  rcases appendEvent_cases texts statusPayload m call with ⟨-, hcall⟩ | ⟨-, answer', state', hs, -, hcall⟩ | ⟨haccepts, -⟩
  · rw [hcall] at hanswer
    cases hanswer
  · rw [hcall] at hanswer
    cases hanswer
    exact hs
  · obtain ⟨-, -, -, -, -, -, -, hchanged⟩ := h.stateOf_accepted statusPayload haccepts
    exact absurd hsame hchanged

/-- A repetition, wherever it comes after the event, changes nothing and is answered with the
event's own number and state, just when it is of the event's lane and the event ended the lane or no
other event came to the lane. -/
theorem Placed.repeats_iff (h : m.Placed) {e e' : Call} (ha : m.Accepts texts e) (hr : rejects texts e'.2 = false)
    (hid : texts.trimSpace e'.2.eventID = texts.trimSpace e.2.eventID) (ys : List Call) : (∀ ys₁ ys₂, ys = ys₁ ++ ys₂ →
      let m' := MessageLanes.afterCalls texts statusPayload (afterCall texts statusPayload m e) ys₁
      afterCall texts statusPayload m' e' = m' ∧ ∃ answer answer' state,
        (m.appendMessageEventWithState texts statusPayload e.1 e.2).1 = some (answer, state) ∧
        (m'.appendMessageEventWithState texts statusPayload e'.1 e'.2).1 = some (answer', state) ∧
        answer'.msgEventSeq = answer.msgEventSeq) ↔
    SameLane texts e.2 e'.2 ∧ (ends texts e.2 ∨
      ∀ y ∈ ys, rejects texts y.2 = false → SameLane texts e.2 y.2 →
        texts.trimSpace y.2.eventID = texts.trimSpace e.2.eventID) := by
  obtain ⟨answer, state, hanswer, hseq, hstate, hlast, hends, -⟩ := h.stateOf_accepted statusPayload ha
  have hplaced : (afterCall texts statusPayload m e).Placed := h.call
  have hne : state.lastEventID ≠ [] := by
    have hrejects := ha.1
    rw [rejects, Bool.or_eq_false_iff, Bool.or_eq_false_iff] at hrejects
    rw [hlast]
    exact of_decide_eq_false hrejects.1.2
  rw [← hends, ← hlast]
  constructor
  · intro hall
    -- wherever the repetition comes, its lane is still as the event left it
    have hunchanged (ys₁ ys₂) (hys : ys = ys₁ ++ ys₂) :
        (MessageLanes.afterCalls texts statusPayload (afterCall texts statusPayload m e) ys₁).stateOf texts e'.2 = some state := by
      obtain ⟨hsame, answer₁, answer', state', hanswer₁, hanswer', -⟩ := hall ys₁ ys₂ hys
      obtain ⟨-, rfl⟩ := Prod.mk.inj (Option.some.inj (hanswer.symm.trans hanswer₁))
      exact (hplaced.afterCalls ys₁).stateOf_of_unchanged hsame hanswer'
    have hlane : SameLane texts e.2 e'.2 :=
      (hplaced.hash_eventKey hstate).symm.trans (hplaced.hash_eventKey (hunchanged [] ys rfl))
    refine ⟨hlane, ?_⟩
    by_contra hnot
    rw [not_or] at hnot
    classical
    -- the first event that moves the lane on
    obtain ⟨y, hy⟩ : ∃ y, ys.find? (fun y => decide (rejects texts y.2 = false ∧ SameLane texts e.2 y.2 ∧
        texts.trimSpace y.2.eventID ≠ state.lastEventID)) = some y := by
      rw [← Option.isSome_iff_exists, find?_isSome]
      by_contra hnone
      refine hnot.2 fun y hy hyr hylane => ?_
      by_contra hyid
      exact hnone ⟨y, hy, decide_eq_true ⟨hyr, hylane, hyid⟩⟩
    obtain ⟨hfound, ys₁, ys₂, hys, hbefore⟩ := find?_eq_some_iff_append.mp hy
    obtain ⟨hyr, hylane, hyid⟩ := of_decide_eq_true hfound
    have hkept := hplaced.stateOf_kept statusPayload hstate hne ys₁ <| .inr fun z hz hzr hzlane => by
      by_contra hzid
      have := hbefore z hz
      simp [hzr, hzlane, hzid] at this
    have haccepts : (MessageLanes.afterCalls texts statusPayload (afterCall texts statusPayload m e) ys₁).Accepts texts y := by
      refine ⟨hyr, ?_⟩
      have hmoves : (normalize texts y.1 y.2).eventID ≠ state.lastEventID := hyid
      rw [← stateOf_eq hylane, hkept, ignores, Bool.or_eq_false_iff]
      exact ⟨by simp [hmoves.symm], Bool.eq_false_iff.mpr hnot.1⟩
    obtain ⟨-, moved, -, -, hmoved, hmovedLast, -, -⟩ :=
      (hplaced.afterCalls ys₁).stateOf_accepted statusPayload haccepts
    have hstill := hunchanged (ys₁ ++ [y]) ys₂ (by rw [hys, append_assoc]; rfl)
    rw [← stateOf_eq hlane, stateOf_eq hylane, MessageLanes.afterCalls, foldl_append] at hstill
    cases hmoved.symm.trans hstill
    exact hyid hmovedLast.symm
  · rintro ⟨hlane, hys⟩ ys₁ ys₂ rfl
    have hkept := hplaced.stateOf_kept statusPayload hstate hne ys₁
      (hys.imp_right fun hall y hy => hall y (mem_append_left ys₂ hy))
    rw [stateOf_eq hlane] at hkept
    have hrepeat : (normalize texts e'.1 e'.2).eventID = state.lastEventID := hid.trans hlast.symm
    have hi : ignores (some state) (normalize texts e'.1 e'.2) := by
      simp [ignores, hrepeat, hne]
    obtain ⟨hsame, answer', hanswer', hseq'⟩ := answered_of_ignores statusPayload hr hkept hi
    exact ⟨hsame, answer, answer', state, hanswer, hanswer', hseq'.trans hseq.symm⟩

end MessageLanes
end WuKongIM.WKDB

namespace WuKongIM.WKCache
open WKDB Lib

namespace MessageEventCache
variable (g : GoTexts) (c : MessageEventCache) (event : MessageEvent)

/-- The text that has been gathered for the lane of an event. -/
def textOf : Option Bytes :=
  ((c.sessions (g.trimSpace event.clientMsgNo)).bind fun s =>
    s.keyStates.lookup (normalizeEventKey g.texts event.eventKey)).map
    (·.textSnapshot)

def afterDelta : MessageEventCache :=
  match c.appendDelta g event with
  | .ok (_, c') => c'
  | .error _ => c

/-- The message has a session in the channel of the event, with a lane that is not closed and has
room for the text. -/
def HasRoom : Prop :=
  ∃ s ks, c.sessions (g.trimSpace event.clientMsgNo) = some s ∧ s.info.channel = event.channel ∧
    s.keyStates.lookup (normalizeEventKey g.texts event.eventKey) = some ks ∧ isTerminalStatus ks.status = false ∧
    g.runeCount (ks.textSnapshot ++ g.extractCacheTextDelta event.payload) ≤ maxTextRunes

variable {g c event}

private theorem addDelta_isOk_iff {ks : EventKeyState} {payload : Bytes}
    (htext : g.extractCacheTextDelta payload ≠ []) : (∃ added, addDelta g ks payload = .ok added) ↔
      g.runeCount (ks.textSnapshot ++ g.extractCacheTextDelta payload) ≤ maxTextRunes := by
  unfold addDelta GoTexts.validateTextContent
  rw [if_pos htext]
  dsimp only
  split
  · next hlong =>
    refine iff_of_false ?_ (Nat.not_le.mpr hlong)
    rintro ⟨added, ⟨⟩⟩
  · next hshort => exact iff_of_true ⟨_, rfl⟩ (Nat.le_of_not_lt hshort)

private theorem appendDelta_isOk_iff (hno : g.trimSpace event.clientMsgNo ≠ [])
    (htext : g.extractCacheTextDelta event.payload ≠ []) :
    (∃ taken, c.appendDelta g event = .ok taken) ↔ c.HasRoom g event := by
  constructor
  · rintro ⟨⟨ks', c'⟩, h⟩
    obtain ⟨s, ks, added, hs, hks, hopen, hadded, -, -⟩ := appendDelta_eq_ok.mp h
    obtain ⟨-, hs, hchannel⟩ := find_eq_ok.mp hs
    exact ⟨s, ks, hs, hchannel, hks, hopen, (addDelta_isOk_iff htext).mp ⟨added, hadded⟩⟩
  · rintro ⟨s, ks, hs, hchannel, hks, hopen, hroom⟩
    obtain ⟨added, hadded⟩ := (addDelta_isOk_iff htext).mpr hroom
    exact ⟨_, appendDelta_eq_ok.mpr ⟨s, ks, added, find_eq_ok.mpr ⟨hno, hs, hchannel⟩, hks, hopen, hadded, rfl, rfl⟩⟩

/-- A delta leaves the text alone just when it brings no text or finds no lane with room for it,
whether or not it was taken before. -/
theorem textOf_afterDelta_iff (hno : g.trimSpace event.clientMsgNo ≠ []) :
    (c.afterDelta g event).textOf g event = c.textOf g event ↔
      g.extractCacheTextDelta event.payload = [] ∨ ¬c.HasRoom g event := by
  by_cases htext : g.extractCacheTextDelta event.payload = []
  · refine iff_of_true ?_ (.inl htext)
    rw [afterDelta]
    split
    · next h =>
      obtain ⟨s, ks, added, hs, hks, -, hadded, rfl, rfl⟩ := appendDelta_eq_ok.mp h
      obtain ⟨-, hs, -⟩ := find_eq_ok.mp hs
      have hsame := textSnapshot_of_addDelta hadded
      simp [textOf, putKey, put, hs, hks, noteEvent, hsame, htext]
    · rfl
  rw [or_iff_right htext, ← appendDelta_isOk_iff hno htext, afterDelta]
  split
  · next h =>
    obtain ⟨s, ks, added, hs, hks, -, hadded, rfl, rfl⟩ := appendDelta_eq_ok.mp h
    obtain ⟨-, hs', -⟩ := find_eq_ok.mp hs
    have hmore := textSnapshot_of_addDelta hadded
    simp [textOf, putKey, put, hs', hks, noteEvent, hmore, htext, h]
  · next h => simp [h]

end MessageEventCache

open MessageLanes MessageEventCache

/-- What repetitions do. In the database, after any events, a repetition of an accepted event
changes nothing and is answered with that event's result, wherever it comes, just when it names the
same lane and the event ended the lane or only repetitions came to the lane since. In the cache a
delta leaves the text unchanged just when it brings no text or no lane has room for it. -/
theorem event_repeats (g : GoTexts) (statusPayload : MessageEventState → Bytes) (xs ys : List Call)
    {e e' : Call} (ha : (afterCalls g.texts statusPayload {} xs).Accepts g.texts e)
    (hr : rejects g.texts e'.2 = false) (hid : g.trimSpace e'.2.eventID = g.trimSpace e.2.eventID) :
    ((∀ ys₁ ys₂, ys = ys₁ ++ ys₂ →
      let m := afterCalls g.texts statusPayload {} xs
      let m' := afterCalls g.texts statusPayload (afterCall g.texts statusPayload m e) ys₁
      afterCall g.texts statusPayload m' e' = m' ∧ ∃ answer answer' state,
        (m.appendMessageEventWithState g.texts statusPayload e.1 e.2).1 = some (answer, state) ∧
        (m'.appendMessageEventWithState g.texts statusPayload e'.1 e'.2).1 = some (answer', state) ∧
        answer'.msgEventSeq = answer.msgEventSeq) ↔
    SameLane g.texts e.2 e'.2 ∧ (EventTables.ends g.texts e.2 = true ∨ ∀ y ∈ ys, rejects g.texts y.2 = false →
      SameLane g.texts e.2 y.2 → g.trimSpace y.2.eventID = g.trimSpace e.2.eventID)) ∧
    ∀ c : MessageEventCache, (c.afterDelta g e'.2).textOf g e'.2 = c.textOf g e'.2 ↔
      g.extractCacheTextDelta e'.2.payload = [] ∨ ¬c.HasRoom g e'.2 := by
  refine ⟨(placed_empty.afterCalls xs).repeats_iff ha hr hid ys, fun _ => textOf_afterDelta_iff ?_⟩
  simp only [rejects, Bool.or_eq_false_iff, decide_eq_false_iff_not] at hr
  exact hr.1.1

/-- The text {"kind":"text","delta":"hi"}. -/
private def hiPayload : Bytes :=
  [123, 34, 107, 105, 110, 100, 34, 58, 34, 116, 101, 120, 116, 34, 44, 34, 100, 101, 108, 116, 97,
    34, 58, 34, 104, 105, 34, 125]

private def hiTexts : GoTexts := .ascii
  ⟨fun payload => if payload = hiPayload then some (.obj [(deltaField, .str [104, 105]), (kindField, .str snapshotKindText)]) else none,
    fun _ => []⟩

private def hi (eventID eventKey : Bytes) : Call :=
  (1, { channel := ⟨[99], 2⟩, clientMsgNo := [109], eventID, eventKey, eventType := streamDelta, payload := hiPayload })

private def cached (status : EventStatus) : MessageEventCache where
  sessions _ := some ⟨⟨[109], ⟨[99], 2⟩, [], [], 0⟩, AList.singleton [97] ⟨[97], 0, status, [], [], [], 0, [], []⟩⟩

private def openCache : MessageEventCache := cached .open

/-- An event of another lane comes in between, and in the cache the lane is closed. -/
theorem event_repeats_otherLane :
    let m := afterCall hiTexts.texts (fun _ => []) {} (hi [49] [97])
    afterCall hiTexts.texts (fun _ => []) (afterCalls hiTexts.texts (fun _ => []) m [hi [50] [98]]) (hi [49] [97]) =
      afterCalls hiTexts.texts (fun _ => []) m [hi [50] [98]] ∧
    ((cached .closed).afterDelta hiTexts (hi [49] [97]).2).textOf hiTexts (hi [49] [97]).2 =
      (cached .closed).textOf hiTexts (hi [49] [97]).2 := by
  have ha : (afterCalls hiTexts.texts (fun _ => []) {} []).Accepts hiTexts.texts (hi [49] [97]) :=
    ⟨by decide +kernel, by decide +kernel⟩
  have hr : rejects hiTexts.texts (hi [49] [97]).2 = false := by decide +kernel
  have hboth := event_repeats hiTexts (fun _ => []) [] [hi [50] [98]] ha hr rfl
  constructor
  · refine (hboth.1.mpr ⟨rfl, .inr ?_⟩ _ [] rfl).1
    intro y hy _ hlane
    rw [List.mem_singleton] at hy
    subst hy
    revert hlane
    decide +kernel
  · refine (hboth.2 _).mpr (.inr ?_)
    rintro ⟨s, ks, hs, -, hks, hopen, -⟩
    cases hs
    cases hks
    cases hopen

/-- In the database an event of the same lane came in between, or the repetition names another lane;
in the cache a text is gathered twice. -/
theorem event_repeats_fails :
    (afterCalls hiTexts.texts (fun _ => []) {} [hi [49] [97], hi [50] [97]]).seq = some 2 ∧
    (afterCalls hiTexts.texts (fun _ => []) {} [hi [49] [97], hi [50] [97], hi [49] [97]]).seq = some 3 ∧
    (afterCalls hiTexts.texts (fun _ => []) {} [hi [49] [97]]).lanes.length = 1 ∧
    (afterCalls hiTexts.texts (fun _ => []) {} [hi [49] [97], hi [49] [98]]).lanes.length = 2 ∧
    (openCache.afterDelta hiTexts (hi [49] [97]).2).textOf hiTexts (hi [49] [97]).2 = some [104, 105] ∧
    ((openCache.afterDelta hiTexts (hi [49] [97]).2).afterDelta hiTexts (hi [49] [97]).2).textOf hiTexts (hi [49] [97]).2 =
      some [104, 105, 104, 105] := by
  decide +kernel

end WuKongIM.WKCache

import WuKongIM.API.EventHandlers
import WuKongIM.API.LaneViews

/-! Lanes that have ended: how long they are told to clients as they ended. -/
namespace WuKongIM.API
open WKDB WKCache Lib MessageEventCache List Function MessageLanes EventTables Agrees

variable {o : EventOptions} {now : UInt64} {event : MessageEvent} {state : MessageEventState} {c : MessageEventCache}

variable {db : EventKey → MessageLanes}

def storeKey (o : EventOptions) (event : MessageEvent) : EventKey :=
  eventKey o ⟨o.texts.trimSpace event.channel.id, event.channel.type⟩ event.clientMsgNo

def applied (o : EventOptions) (now : UInt64) (event : MessageEvent)
    (db : EventKey → MessageLanes) : EventKey → MessageLanes :=
  Function.update db (storeKey o event) ((db (storeKey o event)).appendMessageEventWithState o.texts.texts o.statusPayload now event).2

theorem db_appendEvent (o : EventOptions) (now : UInt64) (event : MessageEvent)
    (db : EventKey → MessageLanes) : (appendMessageEventWithState o now event db).2 = db ∨
      (appendMessageEventWithState o now event db).2 = applied o now event db := by
  rw [appendMessageEventWithState]
  split
  · exact .inl rfl
  split
  · exact .inl rfl
  dsimp only
  split
  all_goals exact .inr rfl

theorem appendEvent_ok (hlaws : o.texts.Lawful) {db' : EventKey → MessageLanes}
    (h : appendMessageEventWithState o now event db = (.ok state, db')) : db' = applied o now event db ∧
      (db' (eventKey o event.channel event.clientMsgNo)).stateOf o.texts.texts event = some state := by
  rw [appendMessageEventWithState] at h
  split at h
  · cases h
  split at h
  · cases h
  dsimp only at h
  rw [hlaws.normalizeEventKey_idem] at h
  split at h
  · cases h
  rename_i state' hget
  cases h
  exact ⟨rfl, hget⟩

theorem placed_applied (h : ∀ k, (db k).Placed) (k : EventKey) : (applied o now event db k).Placed := by
  rw [applied, update_apply]
  split
  · exact (h _).call
  · exact h k

theorem getState_applied (h : ∀ k, (db k).Placed) {k : EventKey} {key : Bytes}
    (hstate : (db k).getMessageEventState key = some state) (hended : isTerminalStatus state.status) :
    (applied o now event db k).getMessageEventState key = some state := by
  rw [applied, update_apply]
  split
  · next hk =>
    subst hk
    rcases lanes_append o.texts.texts o.statusPayload (db (storeKey o event)) (now, event) with hcall | ⟨⟨-, hstores⟩, hcall⟩
    · rw [hcall]
      exact hstate
    · rw [hcall]
      refine ((h _).getState_store o.texts.texts _ key).trans ?_
      split
      · next hhash =>
        have hsame : (db (storeKey o event)).stateOf o.texts.texts event = some state := by
          rw [← hstate, stateOf, getMessageEventState, getMessageEventState, hhash]
          rfl
        rw [hsame, ignores, hended, Bool.or_true] at hstores
        cases hstores
      · exact hstate
  · exact hstate

theorem applied_of_ended
    (hstate : (db (storeKey o event)).stateOf o.texts.texts event = some state)
    (hended : isTerminalStatus state.status) : applied o now event db = db := by
  rcases lanes_append o.texts.texts o.statusPayload (db (storeKey o event)) (now, event) with hcall | ⟨⟨-, hstores⟩, -⟩
  · rw [applied, hcall, update_eq_self]
  · rw [hstate, ignores, hended, Bool.or_true] at hstores
    cases hstores

theorem snapshotPayload_reduce {texts : Texts} {event : MessageEvent}
    (hopen : isTerminalStatus state.status = false)
    (h : event.eventType ∈ [streamClose, streamError, streamCancel]) (seq : UInt64) :
    (reduceEventState texts state event seq).snapshotPayload = endSnapshot texts state.snapshotPayload event.payload := by
  simp only [mem_cons, not_mem_nil, or_false] at h
  rcases h with h | h | h
  all_goals
    rw [reduceEventState]
    simp only [h, hopen]
    rfl

theorem stored_of_changed (event : MessageEvent) (hlaws : o.texts.Lawful) (h : ∀ k, (db k).Placed)
    (hends : event.eventType ∈ [streamClose, streamError, streamCancel]) (hchanged : applied o now event db ≠ db)
    (hkey : ∀ st, (db (storeKey o event)).stateOf o.texts.texts event = some st →
      st.eventKey = normalizeEventKey o.texts.texts event.eventKey) :
    ∃ state old, (applied o now event db (storeKey o event)).stateOf o.texts.texts event = some state ∧
      isTerminalStatus state.status ∧ state.eventKey = normalizeEventKey o.texts.texts event.eventKey ∧ state.snapshotPayload = endSnapshot o.texts.texts old event.payload := by
  rcases lanes_append o.texts.texts o.statusPayload (db (storeKey o event)) (now, event) with hcall | ⟨⟨-, hstores⟩, hcall⟩
  · exact absurd (by rw [applied, hcall, update_eq_self]) hchanged
  · have htype : (normalize o.texts.texts now event).eventType = event.eventType := hlaws.ended_type _ hends
    have hopen := @not_terminal_of_stores (db (storeKey o event)) (normalize o.texts.texts now event) hstores
    have hends' : (normalize o.texts.texts now event).eventType ∈ [streamClose, streamError, streamCancel] := htype ▸ hends
    rw [applied, update_self, hcall]
    refine ⟨_, _, ((h _).getState_store o.texts.texts _ _).trans (if_pos rfl), ?_, ?_, snapshotPayload_reduce hopen hends' _⟩
    · exact isTerminal_reduce (mem_append_left [streamFinish] hends') _
    rw [store, eventKey_reduce]
    cases hget : (db (storeKey o event)).getMessageEventState (normalize o.texts.texts now event).eventKey with
    | none => rfl
    | some st => exact hkey st hget

theorem ne_delta_of_ends (h : event.eventType ∈ [streamClose, streamError, streamCancel]) :
    event.eventType ≠ streamDelta := by
  rintro heq
  rw [heq] at h
  revert h
  decide

inductive EventAction
  | append (now : UInt64) (req : EventAppendReq)
  | registerStreamMessage (info : SessionMeta)
  /-- A session expires, or goes when the cache is full. -/
  | evict (clientMsgNo : Bytes)

namespace EventServer
variable (o : EventOptions) (s : EventServer)

def step : EventAction → Option EventServer
  | .append now req => some (eventAppend o now req s).2
  | .registerStreamMessage info =>
    match s.cache.registerStreamMessage o.texts info with
    | .error _ => some s
    | .ok cache => some { s with cache }
  | .evict clientMsgNo => some { s with cache := s.cache.delete clientMsgNo }

/-- A delta for a lane that has ended comes only while the cache knows of the end, or while the
cache has another channel's session for the message. A stored event names a lane that no other key
hides. -/
def Admits (event : MessageEvent) : Prop :=
  let l := o.texts.lane event
  o.texts.Received event.payload ∧
    if event.eventType = streamDelta then
      ∀ state, s.stored o l = some state → isTerminalStatus state.status = true →
        ∃ session, s.cache.sessions l.clientMsgNo = some session ∧ (session.info.channel = l.channel →
          ∃ ks, session.keyStates.lookup l.eventKey = some ks ∧ isTerminalStatus ks.status = true)
    else o.texts.trimSpace l.channel.id = l.channel.id ∧ hashWithString l.eventKey ≠ maxUint64 ∧
      ∀ state, s.stored o l = some state → state.eventKey = l.eventKey

def Careful : EventAction → Prop
  | .append _ req => ∀ req', req.prepare o s.cache = .ok req' → s.Admits o (req'.event o)
  | _ => True

structure Sound (s : EventServer) : Prop where
  placed : ∀ k, (s.db k).Placed
  gathered : ∀ l ks, s.cache.lanes l = some ks → Gathered o.texts l ks

/-- The lane has ended with the state, and the cache does not know better. -/
structure Finished (l : Lane) (state : MessageEventState) (s : EventServer) : Prop where
  stored : s.stored o l = some state
  cached : ∀ ks, s.cache.lanes l = some ks → Agrees o.texts state ks

end EventServer

open EventServer

variable {req req' : EventAppendReq}

theorem trimSpace_of_prepare (h : req.prepare o c = .ok req') : o.texts.trimSpace req'.clientMsgNo ≠ [] := by
  obtain ⟨u, hcheck, h⟩ := bind_eq_ok.mp h
  cases h
  intro hmsg
  rw [EventAppendReq.check] at hcheck
  split at hcheck <;> cases hcheck

theorem laneOf_sessionMeta (o : EventOptions) (req : EventAppendReq) :
    laneOf o (req.sessionMeta o) (req.event o).eventKey = o.texts.lane (req.event o) := rfl

variable {s : EventServer} {info : SessionMeta} {l : Lane}

variable {g : GoTexts}

theorem Agrees.of_core {ks ks' : EventKeyState} (h : Agrees g state ks)
    (hcore : ks'.core = ks.core) : Agrees g state ks' := by
  obtain ⟨-, hstatus, hseq, htext, hpayload⟩ := EventKeyState.core_eq.mp hcore
  exact ⟨hstatus.trans h.status, hseq ▸ h.seq, htext ▸ hpayload ▸ h.snapshot⟩

theorem Agrees.marked (hended : isTerminalStatus state.status)
    (h : ∀ ks, c.lanes l = some ks → ∀ v, g.cachedSnapshot ks.textSnapshot ks.snapshotPayload = some v →
      g.shown state.snapshotPayload = some v) :
    Agrees g state (markKey state.status state.lastMsgEventSeq (c.opened l state.lastMsgEventSeq)) := by
  have hstatus : state.status ≠ .none := by
    rintro heq
    rw [heq] at hended
    cases hended
  refine ⟨if_pos hstatus, ?_, ?_⟩
  · rw [markKey]
    split
    · exact UInt64.le_refl _
    · next hle => exact UInt64.not_lt.mp hle
  · rw [opened]
    cases hks : c.lanes l with
    | none =>
      intro v hv
      cases hv
    | some ks => exact h ks hks

variable {c' : MessageEventCache}

theorem Gathered.keeps (h : ∀ ks, c.lanes l = some ks → Gathered g l ks) (hkeeps : Keeps c c' l) :
    ∀ ks, c'.lanes l = some ks → Gathered g l ks := by
  intro ks' hks'
  obtain ⟨ks, hks, hcore⟩ := hkeeps ks' hks'
  exact (h ks hks).of_core hcore

theorem Agrees.keeps (h : ∀ ks, c.lanes l = some ks → Agrees g state ks) (hkeeps : Keeps c c' l) :
    ∀ ks, c'.lanes l = some ks → Agrees g state ks := by
  intro ks' hks'
  obtain ⟨ks, hks, hcore⟩ := hkeeps ks' hks'
  exact (h ks hks).of_core hcore

theorem eventAppend_prepared (now : UInt64) (h : req.prepare o s.cache = .ok req') :
    ((req'.event o).eventType = streamDelta ∧
      let r := handleStreamDelta o (req'.sessionMeta o) (req'.event o) s.cache
      (eventAppend o now req s).2 = { s with cache := r.2 } ∧ ∀ e, r.1 = .error e →
        (eventAppend o now req s).1 = .error (.cache e)) ∨
    ((req'.event o).eventType ≠ streamDelta ∧
      let r := handleStreamPersist o now (req'.sessionMeta o) (req'.event o) s
      (eventAppend o now req s).2 = r.2 ∧ ∀ e, r.1 = .error e → (eventAppend o now req s).1 = .error e) := by
  rw [eventAppend, h]
  dsimp only
  by_cases hdelta : (req'.event o).eventType = streamDelta
  · refine .inl ⟨hdelta, ?_⟩
    rw [if_pos hdelta]
    split
    · next e cache h => exact ⟨by rw [h], fun e' he' => by rw [h] at he'; cases he'; rfl⟩
    · next ks cache h => exact ⟨by rw [h], fun e' he' => by rw [h] at he'; cases he'⟩
  · refine .inr ⟨hdelta, ?_⟩
    rw [if_neg hdelta]
    split
    · next e s' h => exact ⟨by rw [h], fun e' he' => by rw [h] at he'; cases he'; rfl⟩
    · next st s' h => exact ⟨by rw [h], fun e' he' => by rw [h] at he'; cases he'⟩

/-- A step that neither tells the cache nor stores anything of a lane, or the one that is made for a
request. -/
theorem EventServer.step_cases {a : EventAction} {t : EventServer} (h : s.step o a = some t) :
    (t.db = s.db ∧ ∀ l, Keeps s.cache t.cache l) ∨ ∃ now req req', a = .append now req ∧
      req.prepare o s.cache = .ok req' ∧ (eventAppend o now req s).2 = t := by
  cases a with
  | append now req =>
    cases h
    cases hprepare : req.prepare o s.cache with
    | error e =>
      rw [eventAppend, hprepare]
      exact .inl ⟨rfl, .refl s.cache⟩
    | ok req' => exact .inr ⟨now, req, req', rfl, hprepare, rfl⟩
  | registerStreamMessage info =>
    rw [step] at h
    split at h
    · cases h
      exact .inl ⟨rfl, .refl s.cache⟩
    · next cache hregister =>
      cases h
      exact .inl ⟨rfl, fun l => .of_eq (congrFun (lanes_register hregister) l)⟩
  | evict clientMsgNo =>
    cases h
    exact .inl ⟨rfl, Keeps.of_without (lanes_delete clientMsgNo)⟩

theorem delta_refused {session : Session} (info : SessionMeta)
    (hmsg : o.texts.trimSpace event.clientMsgNo ≠ []) (hsession : c.sessions (o.texts.lane event).clientMsgNo = some session)
    (hended : session.info.channel = (o.texts.lane event).channel →
      ∃ ks, session.keyStates.lookup (o.texts.lane event).eventKey = some ks ∧ isTerminalStatus ks.status) :
    ∃ e, handleStreamDelta o info event c = (.error e, c) := by
  have hrefused : c.appendDelta o.texts event = .error .channelMismatch ∨
      c.appendDelta o.texts event = .error .streamClosed := by
    rw [appendDelta]
    by_cases hchannel : session.info.channel = event.channel
    · obtain ⟨ks, hks, hterminal⟩ := hended hchannel
      have hfind : c.find (o.texts.trimSpace event.clientMsgNo) event.channel = .ok session :=
        find_eq_ok.mpr ⟨hmsg, hsession, hchannel⟩
      have hkey : findKey session (normalizeEventKey o.texts.texts event.eventKey) = .ok ks := findKey_eq_ok.mpr hks
      refine .inr ?_
      simp only [hfind, hkey, bind, Except.bind]
      exact if_pos hterminal
    · have hsession : c.sessions (o.texts.trimSpace event.clientMsgNo) = some session := hsession
      have hfind : c.find (o.texts.trimSpace event.clientMsgNo) event.channel = .error .channelMismatch := by
        rw [find, if_neg hmsg, hsession]
        exact if_pos hchannel
      refine .inl ?_
      simp only [hfind, bind, Except.bind]
  rw [handleStreamDelta]
  rcases hrefused with h | h
  · exact ⟨.channelMismatch, by rw [h]; rfl⟩
  · exact ⟨.streamClosed, by rw [h]; rfl⟩

theorem nodup_eventKeys {m : MessageLanes} (h : m.Placed) : (m.getMessageEventStates.map (·.eventKey)).Nodup := by
  rw [getMessageEventStates, map_map, Nodup, pairwise_map]
  refine (h.1.filter _).imp_of_mem fun {a b} ha hb hlt heq => ?_
  have hhash : a.hash = b.hash := by
    rw [h.2 a (mem_filter.mp ha).1, h.2 b (mem_filter.mp hb).1]
    exact congrArg hashWithString heq
  exact absurd (congrArg UInt64.toNat hhash) (ne_of_lt hlt)

section
variable (hlaws : o.texts.Lawful) {a : EventAction} {t : EventServer}
include hlaws

theorem shown_of_merged {ks : EventKeyState} {payload merged : Bytes} (h : Gathered o.texts l ks)
    (hpayload : o.texts.Received payload) (hmerged : mergedPayload o.texts ks payload = some merged) {v : Json}
    (hv : o.texts.cachedSnapshot ks.textSnapshot ks.snapshotPayload = some v) (old : Bytes) :
    o.texts.shown (endSnapshot o.texts.texts old merged) = some v := by
  have hgathered : (decide (ks.textSnapshot ≠ []) || decide (ks.snapshotPayload ≠ [])) := by
    rw [GoTexts.cachedSnapshot] at hv
    split at hv
    · next htext => rw [decide_eq_true htext, Bool.true_or]
    · split at hv
      · next hpayload => rw [decide_eq_true hpayload, Bool.or_true]
      · cases hv
  rw [mergedPayload, if_pos hgathered] at hmerged
  rw [hlaws.snapshot_merged hpayload h.text h.payload hv hmerged]
  exact hlaws.shown_marshal (GoTexts.plain_cachedSnapshot h.text h.payload hv).succ

theorem storeKey_eq (payload : Bytes)
    (hchannel : o.texts.trimSpace (o.texts.lane event).channel.id = (o.texts.lane event).channel.id) :
    storeKey o { event with payload } = eventKey o (o.texts.lane event).channel (o.texts.lane event).clientMsgNo := by
  have hchannel : o.texts.trimSpace event.channel.id = event.channel.id := hchannel
  rw [storeKey, eventKey, eventKey, GoTexts.lane]
  rw [hchannel, hlaws.trim_trim]

section
variable (hmsg : o.texts.trimSpace event.clientMsgNo ≠ [])
include hmsg

theorem persist_cases (now : UInt64) (info : SessionMeta) (s : EventServer) :
    let r := handleStreamPersist o now info event s
    (∃ e payload, r.1 = .error e ∧ (∀ l, Keeps s.cache r.2.cache l) ∧
      (r.2.db = s.db ∨ r.2.db = applied o now { event with payload } s.db)) ∨
    ∃ payload c st, payloadToStore o event s.cache = .ok (payload, c) ∧ r.1 = .ok st ∧
      r.2.db = applied o now { event with payload } s.db ∧ r.2.cache = syncEventCacheAfterPersist o info event.eventKey st c ∧
      r.2.stored o (o.texts.lane event) = some st := by
  intro r
  cases hpayload : payloadToStore o event s.cache with
  | error e =>
    have hr : r = (.error (.cache e), s) := by simp only [r, handleStreamPersist, hpayload]
    rw [hr]
    exact .inl ⟨_, [], rfl, .refl s.cache, .inl rfl⟩
  | ok p =>
    obtain ⟨payload, c⟩ := p
    have hkeeps : ∀ l, Keeps s.cache c l := (payloadToStore_spec hmsg hpayload).1
    cases hvalid : o.texts.validateEventText payload with
    | error e =>
      have hr : r = (.error (.cache e), { s with cache := c }) := by simp only [r, handleStreamPersist, hpayload, hvalid]
      rw [hr]
      exact .inl ⟨_, [], rfl, hkeeps, .inl rfl⟩
    | ok u =>
      have hdb := db_appendEvent o now { event with payload } s.db
      cases happend : appendMessageEventWithState o now { event with payload } s.db with
      | mk answer db' =>
        rw [happend] at hdb
        cases answer with
        | error e =>
          have hr : r = (.error e, { db := db', cache := c }) := by simp only [r,
            handleStreamPersist, hpayload, hvalid, happend]
          rw [hr]
          exact .inl ⟨e, payload, rfl, hkeeps, hdb⟩
        | ok st =>
          have hr : r = (.ok st, { db := db', cache := syncEventCacheAfterPersist o info event.eventKey st c }) := by
            simp only [r, handleStreamPersist, hpayload, hvalid, happend]
          obtain ⟨hdb', hget⟩ := appendEvent_ok hlaws happend
          rw [hr]
          refine .inr ⟨payload, c, st, rfl, rfl, hdb', rfl, ?_⟩
          rw [stored, eventKey, GoTexts.lane, hlaws.trim_trim]
          exact hget

variable (hinfo : laneOf o info event.eventKey = o.texts.lane event)
include hinfo

omit hlaws in
theorem trimSpace_info : o.texts.trimSpace info.clientMsgNo ≠ [] := by
  have hsame : o.texts.trimSpace info.clientMsgNo = o.texts.trimSpace event.clientMsgNo := congrArg Lane.clientMsgNo hinfo
  rwa [hsame]

theorem EventServer.Sound.persist (h : s.Sound o) (now : UInt64) : (handleStreamPersist o now info event s).2.Sound o := by
  rcases persist_cases hlaws hmsg now info s with ⟨e, payload, -, hkeeps, hdb⟩ | ⟨payload, c, st, hpayload, -, hdb, hcache, -⟩
  · constructor
    · intro k
      rcases hdb with hdb | hdb
      · rw [hdb]
        exact h.placed k
      · rw [hdb]
        exact placed_applied h.placed k
    · exact fun l => Gathered.keeps (h.gathered l) (hkeeps l)
  · constructor
    · intro k
      rw [hdb]
      exact placed_applied h.placed k
    intro l
    have hc (l) : ∀ ks, c.lanes l = some ks → Gathered o.texts l ks :=
      Gathered.keeps (h.gathered l) ((payloadToStore_spec hmsg hpayload).1 l)
    obtain ⟨hothers, hlane⟩ := lanes_afterPersist (trimSpace_info hmsg hinfo) event.eventKey st c
    rw [hcache]
    by_cases hl : l = laneOf o info event.eventKey
    · subst hl
      intro ks hks
      rw [hlane ks hks]
      have hopened := Gathered.opened hlaws (hc (laneOf o info event.eventKey)) st.lastMsgEventSeq
      exact { hopened with }
    · exact Gathered.keeps (hc l) (hothers l hl)

theorem EventServer.Finished.persist (hsound : s.Sound o) (h : Finished o l state s) (hended : isTerminalStatus state.status)
    (now : UInt64) : Finished o l state (handleStreamPersist o now info event s).2 := by
  have hstored (payload : Bytes)
      (hdb : (handleStreamPersist o now info event s).2.db = applied o now { event with payload } s.db) :
      (handleStreamPersist o now info event s).2.stored o l = some state := by
    rw [EventServer.stored, hdb]
    exact getState_applied hsound.placed h.stored hended
  rcases persist_cases hlaws hmsg now info s with ⟨e, payload, -, hkeeps, hdb⟩ |
    ⟨payload, c, st, hpayload, -, hdb, hcache, hst⟩
  · refine ⟨?_, keeps h.cached (hkeeps l)⟩
    rcases hdb with hdb | hdb
    · rw [EventServer.stored, hdb]
      exact h.stored
    · exact hstored payload hdb
  · refine ⟨hstored payload hdb, ?_⟩
    have hc : ∀ ks, c.lanes l = some ks → Agrees o.texts state ks := keeps h.cached ((payloadToStore_spec hmsg hpayload).1 l)
    obtain ⟨hothers, hlane⟩ := lanes_afterPersist (trimSpace_info hmsg hinfo) event.eventKey st c
    rw [hcache]
    by_cases hl : l = laneOf o info event.eventKey
    · -- the state that is told to the cache is the one the lane ended with
      have hst : some st = some state := by
        rw [← hst, ← hinfo, ← hl]
        exact hstored payload hdb
      cases hst
      subst hl
      intro ks hks
      rw [hlane ks hks]
      exact marked hended fun ks hks => (hc ks hks).snapshot
    · exact keeps hc (hothers l hl)

theorem finished_of_persist (hsound : s.Sound o) (hends : event.eventType ∈ [streamClose, streamError, streamCancel])
    (hadmits : s.Admits o event) (hok : ∀ e, (handleStreamPersist o now info event s).1 ≠ .error e)
    (hchanged : (handleStreamPersist o now info event s).2.db ≠ s.db) :
    ∃ state, isTerminalStatus state.status ∧ state.eventKey = (o.texts.lane event).eventKey ∧
      hashWithString (o.texts.lane event).eventKey ≠ maxUint64 ∧
      Finished o (o.texts.lane event) state (handleStreamPersist o now info event s).2 := by
  have hdelta := ne_delta_of_ends hends
  rw [Admits, if_neg hdelta] at hadmits
  obtain ⟨hreceived, hchannel, hhash, hkey⟩ := hadmits
  rcases persist_cases hlaws hmsg now info s with ⟨e, -, he, -⟩ | ⟨payload, c, st, hpayload, -, hdb, hcache, hst⟩
  · exact absurd he (hok e)
  rw [hdb] at hchanged
  have hplace := storeKey_eq hlaws payload hchannel
  obtain ⟨state, old, hget, hended, hstateKey, hsnapshot⟩ :=
    stored_of_changed { event with payload } hlaws hsound.placed hends
    hchanged (fun state hstate => hkey state (by rw [stored, ← hplace]; exact hstate))
  have hstored : (handleStreamPersist o now info event s).2.stored o (o.texts.lane event) = some state := by
    rw [stored, ← hplace, hdb]
    exact hget
  cases hst.symm.trans hstored
  refine ⟨st, hended, hstateKey, hhash, hstored, ?_⟩
  obtain ⟨hkeeps, hmerged⟩ := payloadToStore_spec hmsg hpayload
  obtain ⟨-, hlane⟩ := lanes_afterPersist (trimSpace_info hmsg hinfo) event.eventKey st c
  rw [hcache, ← hinfo]
  intro ks hks
  rw [hlane ks hks]
  -- what the cache has for the lane went into the payload that was stored
  refine marked hended fun ks hks v hv => ?_
  rw [hinfo] at hks
  obtain ⟨before, hbefore, hcore⟩ := hkeeps _ ks hks
  have hmerged := hmerged (contains_iff_mem.mpr (mem_append_left [streamFinish] hends))
  rw [hbefore] at hmerged
  obtain ⟨-, -, -, htext, hpay⟩ := EventKeyState.core_eq.mp hcore
  rw [htext, hpay] at hv
  rw [hsnapshot]
  exact shown_of_merged hlaws (hsound.gathered _ before hbefore) hreceived hmerged hv old

end

theorem EventServer.Sound.step (h : s.Sound o) (ha : s.Careful o a)
    (hstep : s.step o a = some t) : t.Sound o := by
  rcases step_cases hstep with ⟨hdb, hkeeps⟩ | ⟨now, req, req', rfl, hprepare, rfl⟩
  · exact ⟨hdb ▸ h.placed, fun l => Gathered.keeps (h.gathered l) (hkeeps l)⟩
  rcases eventAppend_prepared now hprepare with ⟨-, happend, -⟩ | ⟨-, happend, -⟩
  · rw [happend]
    obtain ⟨hothers, hlane⟩ := lanes_delta hlaws (laneOf_sessionMeta o req') (h.gathered _) (ha req' hprepare).1
    refine ⟨h.placed, fun l => ?_⟩
    by_cases hl : l = o.texts.lane (req'.event o)
    · exact hl ▸ hlane
    · exact Gathered.keeps (h.gathered l) (hothers l hl)
  · rw [happend]
    exact h.persist hlaws (trimSpace_of_prepare hprepare) (laneOf_sessionMeta o req') now

theorem EventServer.Finished.step (hsound : s.Sound o) (h : Finished o l state s)
    (hended : isTerminalStatus state.status) (ha : s.Careful o a)
    (hstep : s.step o a = some t) : Finished o l state t := by
  rcases step_cases hstep with ⟨hdb, hkeeps⟩ | ⟨now, req, req', rfl, hprepare, rfl⟩
  · refine ⟨?_, keeps h.cached (hkeeps l)⟩
    rw [EventServer.stored, hdb]
    exact h.stored
  have hadmits := ha req' hprepare
  rcases eventAppend_prepared now hprepare with ⟨hdelta, happend, -⟩ | ⟨-, happend, -⟩
  · rw [happend]
    by_cases hl : l = o.texts.lane (req'.event o)
    · subst hl
      rw [Admits, if_pos hdelta] at hadmits
      obtain ⟨session, hsession, hknown⟩ := hadmits.2 state h.stored hended
      obtain ⟨e, hrefused⟩ := delta_refused (req'.sessionMeta o) (trimSpace_of_prepare hprepare) hsession hknown
      rw [hrefused]
      exact h
    · obtain ⟨hothers, -⟩ := lanes_delta hlaws (laneOf_sessionMeta o req') (hsound.gathered _) hadmits.1
      exact ⟨h.stored, keeps h.cached (hothers l hl)⟩
  · rw [happend]
    exact h.persist hlaws (trimSpace_of_prepare hprepare) (laneOf_sessionMeta o req') hsound hended now

theorem EventServer.Finished.view_eq (hsound : s.Sound o) (h : Finished o l state s)
    (hkey : state.eventKey = l.eventKey) (hhash : hashWithString l.eventKey ≠ maxUint64)
    (htrim : o.texts.trimSpace l.clientMsgNo = l.clientMsgNo) (hmsg : l.clientMsgNo ≠ []) :
    s.view o l = some (laneView o.texts state) := by
  have hmem : state ∈ (s.db (eventKey o l.channel l.clientMsgNo)).getMessageEventStates := by
    refine mem_map.mpr ⟨_, mem_filter.mpr ⟨mem_of_getState h.stored, ?_⟩, rfl⟩
    exact decide_eq_true hhash
  have htrimmed : o.texts.trimSpace l.clientMsgNo ≠ [] := by rwa [htrim]
  have hfind := find?_mergeEventStates htrimmed (fun key ks hks => (hsound.gathered ⟨l.channel, _, key⟩ ks hks).eventKey)
    (nodup_eventKeys (hsound.placed _)) hmem
  rw [hkey] at hfind
  rw [view, eventStates, hfind, htrim]
  cases hks : s.cache.lanes ⟨l.channel, l.clientMsgNo, l.eventKey⟩ with
  | none => rfl
  | some ks =>
    exact congrArg some (laneView_mergeCacheState hlaws (h.cached ks hks) (hsound.gathered _ ks hks).text l.channel l.clientMsgNo)

theorem EventServer.Finished.append (h : Finished o l state s) (hended : isTerminalStatus state.status)
    {req req' : EventAppendReq} (hprepare : req.prepare o s.cache = .ok req') (hl : o.texts.lane (req'.event o) = l)
    (hcareful : s.Careful o (.append now req)) : (eventAppend o now req s).2.db = s.db ∧
      ((req'.event o).eventType = streamDelta → (eventAppend o now req s).1.isOk = false ∧
        (eventAppend o now req s).2 = s) := by
  have hadmits := hcareful req' hprepare
  subst hl
  rcases eventAppend_prepared now hprepare with ⟨hdelta, happend, herror⟩ | ⟨hdelta, happend, -⟩
  · rw [Admits, if_pos hdelta] at hadmits
    obtain ⟨session, hsession, hknown⟩ := hadmits.2 state h.stored hended
    obtain ⟨e, hrefused⟩ := delta_refused (req'.sessionMeta o) (trimSpace_of_prepare hprepare) hsession hknown
    rw [hrefused] at happend herror
    refine ⟨by rw [happend], fun _ => ⟨?_, happend⟩⟩
    rw [herror e rfl]
    rfl
  · refine ⟨?_, fun heq => absurd heq hdelta⟩
    rw [Admits, if_neg hdelta] at hadmits
    have hsame (payload : Bytes) : applied o now { req'.event o with payload } s.db = s.db := by
      have hstored := h.stored
      rw [EventServer.stored, ← storeKey_eq hlaws payload hadmits.2.1] at hstored
      exact applied_of_ended hstored hended
    have hmsg : o.texts.trimSpace (req'.event o).clientMsgNo ≠ [] := trimSpace_of_prepare hprepare
    rw [happend]
    rcases persist_cases hlaws hmsg now (req'.sessionMeta o) s with
      ⟨e, payload, -, -, hdb | hdb⟩ | ⟨payload, c, st, -, -, hdb, -, -⟩
    · exact hdb
    all_goals rw [hdb, hsame]

end

/-- In a run in which no delta comes for a lane that has ended without the cache knowing it: once an
event that closes or cancels its lane, or ends it with an error, has been stored and answered, the
lane is told to clients as it ended in every state that follows, and every later request for it is
refused or changes nothing that is stored. -/
theorem finished_lane_stays {o : EventOptions} (hlaws : o.texts.Lawful) {s : EventServer}
    (hs : Reach (· = {}) (EventServer.step o) (Careful o) s) {now : UInt64}
    {req req' : EventAppendReq} (hprepare : req.prepare o s.cache = .ok req')
    (hends : (req'.event o).eventType ∈ [streamClose, streamError, streamCancel])
    (hcareful : s.Careful o (.append now req)) (hanswered : (eventAppend o now req s).1.isOk = true)
    (hstored : (eventAppend o now req s).2.db ≠ s.db) :
    ∃ v, isTerminalStatus v.status = true ∧
      ∀ s', Reach (· = (eventAppend o now req s).2) (EventServer.step o) (Careful o) s' →
        s'.view o (o.texts.lane (req'.event o)) = some v ∧
        ∀ now' again again', again.prepare o s'.cache = .ok again' → o.texts.lane (again'.event o) =
          o.texts.lane (req'.event o) →
          s'.Careful o (.append now' again) →
          (eventAppend o now' again s').2.db = s'.db ∧ ((again'.event o).eventType = streamDelta →
            (eventAppend o now' again s').1.isOk = false ∧ (eventAppend o now' again s').2 = s') := by
  have hsound : s.Sound o := hs.invariant (Sound o)
    (fun s hs => by subst hs; exact ⟨fun _ => placed_empty, fun _ _ hks => by cases hks⟩)
    fun s a t h ha hstep => h.step hlaws ha hstep
  have hmsg := trimSpace_of_prepare hprepare
  have hdelta := ne_delta_of_ends hends
  obtain ⟨happend, herror⟩ : (eventAppend o now req s).2 =
    (handleStreamPersist o now (req'.sessionMeta o) (req'.event o) s).2 ∧
      ∀ e, (handleStreamPersist o now (req'.sessionMeta o) (req'.event o) s).1 ≠ .error e := by
    rcases eventAppend_prepared now hprepare with ⟨h, -⟩ | ⟨-, happend, herror⟩
    · exact absurd h hdelta
    · refine ⟨happend, fun e he => ?_⟩
      rw [herror e he] at hanswered
      cases hanswered
  rw [happend] at hstored
  obtain ⟨state, hended, hkey, hhash, hfinished⟩ := finished_of_persist hlaws hmsg (laneOf_sessionMeta o req') hsound hends
    (hcareful req' hprepare) herror hstored
  refine ⟨laneView o.texts state, hended, fun s' hs' => ?_⟩
  obtain ⟨hsound', hfinished'⟩ : s'.Sound o ∧ Finished o (o.texts.lane (req'.event o)) state s' := by
    refine hs'.invariant (fun s => s.Sound o ∧ Finished o (o.texts.lane (req'.event o)) state s) ?_ ?_
    · rintro _ rfl
      rw [happend]
      exact ⟨hsound.persist hlaws hmsg (laneOf_sessionMeta o req') now, hfinished⟩
    · exact fun s a t h ha hstep => ⟨h.1.step hlaws ha hstep, h.2.step hlaws h.1 hended ha hstep⟩
  refine ⟨hfinished'.view_eq hlaws hsound' hkey hhash (hlaws.trim_trim _) hmsg, ?_⟩
  exact fun now' again again' hagain hl hcareful' => hfinished'.append hlaws hended hagain hl hcareful'

private def node : EventOptions where
  texts := .ascii Json.tagged
  statusPayload _ := []
  hashCrc32 _ := 0
  channelTypeAgent := 11
  shardNum := 1
  systemUID := [115]

private def ask (eventID eventType : Bytes) : EventAppendReq where
  channelID := [99]
  channelType := 2
  fromUID := [117]
  clientMsgNo := [109]
  eventID
  eventType
  eventKey := [107]

/-- A lane is closed, and stays closed. -/
theorem finished_lane_stays_closed : ∃ v, isTerminalStatus v.status = true ∧
    ∀ s', Reach (· = (eventAppend node 1 (ask [49] streamClose) {}).2) (EventServer.step node)
      (Careful node) s' → s'.view node ⟨⟨[99], 2⟩, [109], [107]⟩ = some v := by
  have hcareful : ({} : EventServer).Careful node (.append 1 (ask [49] streamClose)) := by
    intro req' hprepare
    cases hprepare
    refine ⟨received_nil GoTexts.ascii_lawful, ?_⟩
    exact ⟨by decide +kernel, by decide +kernel, nofun⟩
  have hstored : (eventAppend node 1 (ask [49] streamClose) {}).2.db ≠ ({} : EventServer).db := by
    intro heq
    have hlanes := congrFun heq (eventKey node ⟨[99], 2⟩ [109])
    revert hlanes
    decide +kernel
  have hprepare : (ask [49] streamClose).prepare node ({} : EventServer).cache = .ok (ask [49] streamClose) := rfl
  obtain ⟨v, hv, hall⟩ := finished_lane_stays GoTexts.ascii_lawful (.init rfl) hprepare
    (by decide +kernel) hcareful (by decide +kernel) hstored
  exact ⟨v, hv, fun s' hs' => (hall s' hs').1⟩

/-- After a lane was closed its session is gone from the cache. The next delta opens the lane anew,
and it is told to be open. -/
theorem finished_lane_stays_fails : ∃ s, Reach (· = {}) (EventServer.step node) (fun _ _ => True) s ∧
    (s.stored node ⟨⟨[99], 2⟩, [109], [107]⟩).map (·.status) = some .closed ∧
    (eventAppend node 2 (ask [50] streamDelta) s).1.isOk = true ∧
    (s.view node ⟨⟨[99], 2⟩, [109], [107]⟩).map (·.status) = some .closed ∧
    ((eventAppend node 2 (ask [50] streamDelta) s).2.view node ⟨⟨[99], 2⟩, [109], [107]⟩).map (·.status) = some .open := by
  have hstart : Reach (· = {}) (EventServer.step node) (fun _ _ => True) {} := .init rfl
  exact hstart.exists_of_run [.append 1 (ask [49] streamClose)] _ (by decide +kernel)

end WuKongIM.API

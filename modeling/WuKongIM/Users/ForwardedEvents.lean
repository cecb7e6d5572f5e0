import WuKongIM.Users.ConnRecovery

/-! Events of a user that another node has forwarded: on which session they act. -/
namespace WuKongIM.Users
open Option

def Conns.connById (c : Conns) (nodeId : Nat) (connId : Int) : Option Conn :=
  c.conns.find? fun conn => conn.connId = connId && conn.nodeId = nodeId

/-- An event, as far as it is looked at. A type that no user event has is `none`. -/
structure ForwardedEvent where
  type : Option UserEventType
  conn : Option Conn
  deriving DecidableEq

def notForwardToLeader : Option UserEventType → Bool
  | some .connClose | some .connack | some .connWriteFrame | some .connRemove => true
  | _ => false

/-- The connection with which an event of `own` goes on when the directory has `conn` under the same
numbers; an event without one is dropped. -/
def replaceConn (type : Option UserEventType) (own conn : Conn) : Option Conn :=
  let canInvalidate := type = some .onSend && own.auth && !own.internal && own.sessionId ≠ []
  let unknownSession := canInvalidate && !conn.sameSession own
  if unknownSession then some own
  else
    let dropped : Bool := match type with
      | some .connack => own.sessionId ≠ conn.sessionId
      | some .connWriteFrame | some .connClose | some .connRemove | some .connLeaderRemove => !own.sameSession conn
      | _ => false
    let newConnectSession := type = some .connect && own.sessionId ≠ [] && own.sessionId ≠ conn.sessionId
    let newTokenConnack := type = some .connack && own.authTokenHash ≠ []
    if dropped then none else if newConnectSession || newTokenConnack then some own else some conn

/-- One event of a message, on the node `nodeId`. The hint that recoveries get leaves the
connections alone and is left out. -/
def onForwardUserEvent (directory : List UInt8 → Conns) (slotLeaderId nodeId : Nat)
    (e : ForwardedEvent) : Option ForwardedEvent :=
  if slotLeaderId = 0 || !notForwardToLeader e.type && slotLeaderId ≠ nodeId then none
  else
    match e.conn with
    | none => some e
    | some own =>
      match (directory own.uid).connById own.nodeId own.connId with
      | none => some e
      | some conn => (replaceConn e.type own conn).map fun c => { e with conn := some c }

/-- An event that names its session is dropped, or is queued for the session that it names. -/
def KeepsSession (e : ForwardedEvent) (queued : Option ForwardedEvent) : Prop :=
  ∀ own ∈ e.conn, own.sessionId ≠ [] → ∀ q ∈ queued, ∃ c ∈ q.conn, c.sessionId = own.sessionId

/-- The type of the event lets the connection of the directory take the place of its own one,
whatever their sessions. -/
def Unguarded (own : Conn) : Option UserEventType → Prop
  | some .onSend => own.auth = false ∨ own.internal = true
  | some .userLeaderTask | none => True
  | _ => False

theorem sessionId_eq_of_sameSession {c other : Conn} (h : c.sameSession other) : c.sessionId = other.sessionId := by
  simp only [Conn.sameSession, Bool.and_eq_true, decide_eq_true_eq, and_assoc] at h
  exact h.1

theorem notForwardToLeader_of_unguarded {own : Conn} {type : Option UserEventType}
    (h : Unguarded own type) : notForwardToLeader type = false :=
  match type, h with
  | none, _ | some .onSend, _ | some .userLeaderTask, _ => rfl

theorem replaceConn_keeps_iff {own : Conn} (type : Option UserEventType) (conn : Conn)
    (hown : own.sessionId ≠ []) : (∀ c ∈ replaceConn type own conn, c.sessionId = own.sessionId) ↔
      (Unguarded own type → conn.sessionId = own.sessionId) := by
  have hsame : conn.sameSession own → conn.sessionId = own.sessionId := sessionId_eq_of_sameSession
  have hsame' : own.sameSession conn → own.sessionId = conn.sessionId := sessionId_eq_of_sameSession
  rcases type with _ | type
  · simp [replaceConn, Unguarded]
  cases type with
  | onSend =>
    by_cases hguard : own.auth ∧ own.internal = false
    · have hno : ¬Unguarded own (some .onSend) := by simp [Unguarded, hguard]
      by_cases hs : conn.sameSession own
      · simp [replaceConn, hs, hsame hs]
      · simp [replaceConn, hs, hguard, hown, hno]
    · have hyes : Unguarded own (some .onSend) := by
        simpa only [Unguarded, not_and_or, Bool.not_eq_true, Bool.not_eq_false] using hguard
      have hcan : (own.auth && !own.internal) = false := by simpa using hguard
      simp [replaceConn, hcan, hyes]
  | connect | connack =>
    by_cases hs : own.sessionId = conn.sessionId
    · by_cases hhash : own.authTokenHash = [] <;> simp [replaceConn, hs, hhash]
    · simp [replaceConn, Unguarded, hs, hown]
  | connWriteFrame | connClose | connRemove | connLeaderRemove =>
    by_cases hs : own.sameSession conn
    · simp [replaceConn, hsame' hs]
    · simp [replaceConn, Unguarded, hs]
  | userLeaderTask => simp [replaceConn, Unguarded]

variable (directory : List UInt8 → Conns) (slotLeaderId nodeId : Nat) (e : ForwardedEvent)

/-- An event acts as another session exactly when its node leads the user, its type is not guarded,
and the directory has another session under its numbers. -/
theorem forwarded_event_keeps_session :
    KeepsSession e (onForwardUserEvent directory slotLeaderId nodeId e) ↔
      ∀ own ∈ e.conn, own.sessionId ≠ [] → slotLeaderId ≠ 0 → slotLeaderId = nodeId → Unguarded own e.type →
        ∀ conn ∈ (directory own.uid).connById own.nodeId own.connId, conn.sessionId = own.sessionId := by
  constructor
  · rintro hkeeps own hown hsession h0 rfl hunguarded conn hconn
    refine (replaceConn_keeps_iff e.type conn hsession).mp (fun c hc => ?_) hunguarded
    have hqueued : onForwardUserEvent directory slotLeaderId slotLeaderId e = some { e with conn := some c } := by
      simp [onForwardUserEvent, h0, mem_def.mp hown, mem_def.mp hconn, mem_def.mp hc]
    obtain ⟨c', hc', hsame⟩ := hkeeps own hown hsession _ hqueued
    cases hc'
    exact hsame
  · intro hguarded own hown hsession q hq
    rw [onForwardUserEvent, mem_def.mp hown] at hq
    split at hq
    · cases hq
    rename_i htaken
    dsimp only at hq
    split at hq
    · cases hq
      exact ⟨own, hown, rfl⟩
    rename_i conn hconn
    obtain ⟨c, hc, rfl⟩ := map_eq_some_iff.mp hq
    refine ⟨c, rfl, (replaceConn_keeps_iff e.type conn hsession).mpr (fun hunguarded => ?_) c hc⟩
    simp only [notForwardToLeader_of_unguarded hunguarded, Bool.not_false, Bool.true_and,
      Bool.or_eq_true, decide_eq_true_eq, not_or, not_not] at htaken
    exact hguarded own hown hsession htaken.1 htaken.2 hunguarded conn hconn

/-- A send of a session that was never authenticated goes on as the session that has its number
now. -/
theorem forwarded_event_keeps_session_fails :
    ∃ directory slotLeaderId nodeId e, ¬KeepsSession e (onForwardUserEvent directory slotLeaderId nodeId e) := by
  let own : Conn := { uid := [117], nodeId := 2, connId := 1, sessionId := [1] }
  let conn : Conn := { own with sessionId := [2], auth := true }
  refine ⟨fun _ => { conns := [conn] }, 1, 1, ⟨some .onSend, some own⟩, fun hkeeps => ?_⟩
  obtain ⟨c, hc, hsame⟩ := hkeeps own rfl (by decide) ⟨some .onSend, some conn⟩ (by decide)
  cases hc
  cases hsame

end WuKongIM.Users

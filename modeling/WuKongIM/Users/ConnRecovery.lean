import WuKongIM.Lib.Run
import WuKongIM.Users.Conns

/-! How the connections of a user are recovered on a node that has become the leader of the user,
next to the user's queue of events. Counters are natural numbers, as each step adds one to 64 bits
that begin at zero; and everything is about one user. -/
namespace WuKongIM.Users
open Lib Function

inductive UserEventType
  | connect
  | connack
  | onSend
  | connWriteFrame
  | connClose
  | connRemove
  | connLeaderRemove
  | userLeaderTask
  deriving DecidableEq

def affectsConnDirectory : UserEventType → Bool
  | .connect | .connack | .connClose | .connRemove | .connLeaderRemove | .userLeaderTask => true
  | .onSend | .connWriteFrame => false

/-- `queue` has the events that wait and `processing` those that have been taken. -/
structure UserHandler where
  queue : List UserEventType := []
  connRevision : Nat := 0
  connEvents : Nat := 0
  processing : Option (List UserEventType) := none
  conns : Conns := {}

namespace UserHandler

variable (u : UserHandler)

def addEvent (event : UserEventType) : UserHandler :=
  let u := { u with queue := u.queue ++ [event] }
  if affectsConnDirectory event then { u with connRevision := u.connRevision + 1, connEvents := u.connEvents + 1 } else u

/-- The next events are taken, unless others are being processed. -/
def events (count : Nat) : Option UserHandler :=
  if u.processing = none ∧ u.queue.take count ≠ [] then
    some { u with queue := u.queue.drop count, processing := some (u.queue.take count) }
  else none

/-- The end of `advanceEvents`, which also comes after a panic. -/
def advanceEvents : Option UserHandler :=
  u.processing.map fun events => { u with connEvents := u.connEvents - events.countP affectsConnDirectory, processing := none }

def isIdle : Bool := u.processing = none && u.queue.isEmpty

end UserHandler

structure RecoveryOptions where
  uid : List UInt8
  nodeId : Nat
  /-- Token authentication is on, and the user is neither the manager nor a visitor. -/
  verifies : Bool
  tokenFingerprint : List UInt8 → List UInt8

structure Device where
  token : List UInt8
  deviceLevel : UInt8
  deriving DecidableEq

structure Credential where
  hash : List UInt8 := []
  level : UInt8
  deriving DecidableEq

variable (o : RecoveryOptions)

def credentialOf (device : Device) : Credential where
  hash := if device.token ≠ [] then o.tokenFingerprint device.token else []
  level := device.deviceLevel

/-- What `BeginConnRecovery` has captured for the function that it returns. -/
structure Capture where
  handler : Nat
  version : Nat
  pendingRevision : Nat
  directoryRevision : Nat
  deriving DecidableEq

/-- A call of that function which checks the sessions of its snapshot one after the other. -/
structure Application where
  capture : Capture
  unverified : List Conn
  verified : List Conn := []
  credentials : List (UInt8 × Credential) := []

def cloneRecoveryConn (now : Nat) (conn : Conn) : Conn := { conn with lastActive := now }

/-- A snapshot is taken only if each of its sessions may be recovered, and once. -/
def prepare (o : RecoveryOptions) (now : Nat) : List (Option Conn) → List Conn → Option (List Conn)
  | [], prepared => some prepared
  | none :: _, _ => none
  | some conn :: snapshot, prepared =>
    if conn.uid ≠ o.uid || conn.nodeId = 0 || conn.connId ≤ 0 || !conn.auth || conn.internal || conn.sessionId = [] then none
    else if prepared.any fun other => other.key = conn.key then none
    else prepare o now snapshot (prepared ++ [cloneRecoveryConn now conn])

/-- A session that was not authenticated with what is stored now is revoked. -/
def judge (credential : Credential) (conn : Conn) : Conn :=
  if credential.hash = [] || conn.authTokenHash ≠ credential.hash || conn.deviceLevel ≠ credential.level then
    { conn with revoked := true }
  else conn

/-- The next session is checked. `stored` is what the database has now for its device flag, which is
asked once for each flag. -/
def Application.verify (stored : UInt8 → Option Device) (a : Application) : Option Application :=
  match a.unverified with
  | [] => none
  | conn :: rest =>
    match a.credentials.lookup conn.deviceFlag with
    | some credential => some { a with unverified := rest, verified := a.verified ++ [judge credential conn] }
    | none => (stored conn.deviceFlag).map fun device =>
      let credential := credentialOf o device
      { a with
        unverified := rest
        verified := a.verified ++ [judge credential conn]
        credentials := (conn.deviceFlag, credential) :: a.credentials }

/-- Connections that only their node or the server itself may change. -/
def isProtected (conn : Conn) : Bool := conn.nodeId = o.nodeId || conn.internal || !conn.auth

/-- A session that is revoked in the snapshot is revoked where it is. -/
def takeOver (current incoming : Conn) : Conn := if incoming.revoked then { current with revoked := true } else current

/-- The loop over the directory: the directory with the marks that are set on the way, and, unless
the loop is left, the connections that stay with the sessions of the snapshot that are left. -/
def mergeConns (o : RecoveryOptions) : List Conn → List Conn → List Conn × Option (List Conn × List Conn)
  | [], prepared => ([], some ([], prepared))
  | current :: rest, prepared =>
    match prepared.find? fun incoming => incoming.key = current.key with
    | some incoming =>
      let left := prepared.filter fun incoming => incoming.key ≠ current.key
      if isProtected o current then
        if !current.auth || current.internal || !current.sameSession incoming then (current :: rest, none)
        else
          let merged := mergeConns o rest left
          (takeOver current incoming :: merged.1, merged.2.map fun r => (takeOver current incoming :: r.1, r.2))
      else
        let merged := mergeConns o rest left
        if current.sameSession incoming then
          let kept := { takeOver current incoming with lastActive := incoming.lastActive }
          (kept :: merged.1, merged.2.map fun r => (kept :: r.1, r.2))
        else (current :: merged.1, merged.2.map fun r => (if incoming.revoked then r.1 else incoming :: r.1, r.2))
    | none =>
      let merged := mergeConns o rest prepared
      (current :: merged.1, merged.2.map fun r => (if isProtected o current then current :: r.1 else r.1, r.2))

/-- The queue, the directory and the credentials of a user. A handler is known by its address; the
current one is that of the poller. -/
structure UserState where
  handlers : Nat → UserHandler := fun _ => {}
  allocated : Nat := 0
  current : Option Nat := none
  devices : UInt8 → Option Device := fun _ => none
  captures : List Capture := []
  applications : List Application := []

namespace UserState

variable (s : UserState)

def modify (i : Nat) (f : UserHandler → UserHandler) : UserState :=
  { s with handlers := update s.handlers i (f (s.handlers i)) }

def handler : UserState × Nat :=
  match s.current with
  | some i => (s, i)
  | none => ({ s with handlers := update s.handlers s.allocated {}, allocated := s.allocated + 1, current := some s.allocated }, s.allocated)

def beginConnRecovery (version : Nat) : UserState :=
  let found := s.handler
  let h := found.1.handlers found.2
  if h.conns.hasRecovered && h.conns.recoveredVersion = version then found.1
  else if h.connEvents ≠ 0 || h.conns.recoveredVersion > version then found.1
  else { found.1 with captures := ⟨found.2, version, h.connRevision, h.conns.revision⟩ :: found.1.captures }

/-- The end of the function that `BeginConnRecovery` has returned, under its locks. -/
def commit (o : RecoveryOptions) (s : UserState) (a : Application) : Bool × UserState :=
  let h := s.handlers a.capture.handler
  if s.current ≠ some a.capture.handler then (false, s)
  else if h.connRevision ≠ a.capture.pendingRevision || h.connEvents ≠ 0 then (false, s)
  else if h.conns.revision ≠ a.capture.directoryRevision || h.conns.recoveredVersion > a.capture.version ||
      (h.conns.hasRecovered && h.conns.recoveredVersion = a.capture.version) then (false, s)
  else
    match mergeConns o h.conns.conns a.verified with
    | (marked, none) => (false, s.modify a.capture.handler fun h => { h with conns := { h.conns with conns := marked } })
    | (_, some (next, left)) =>
      let conns : Conns :=
        { conns := next ++ left.filter fun incoming => !incoming.revoked
          revision := h.conns.revision + 1
          hasRecovered := true
          recoveredVersion := a.capture.version }
      (true, s.modify a.capture.handler fun h => { h with conns := conns })

def invalidateConnRecovery (conn : Conn) : UserState :=
  match s.current with
  | none => s
  | some i =>
    if conn.uid = [] || conn.nodeId = 0 || conn.connId ≤ 0 || !conn.auth || conn.internal || conn.sessionId = [] then s
    else if (s.handlers i).conns.conns.any fun current =>
        current.nodeId = conn.nodeId && current.connId =
          conn.connId && current.auth && !current.internal && current.sessionId = conn.sessionId
    then s
    else s.modify i fun h => { h with conns := { h.conns with hasRecovered := false, revision := h.conns.revision + 1 } }

end UserState

inductive UserStep
  | addEvent (event : UserEventType)
  | events (count : Nat)
  | advanceEvents (i : Nat)
  /-- A leader task that is being processed changes what is stored. -/
  | store (i : Nat) (flag : UInt8) (device : Option Device)
  | addConn (i : Nat) (conn : Conn)
  | removeConn (i : Nat) (conn : Conn)
  | revoke (i : Nat) (key : Nat × Int)
  | invalidate (conn : Conn)
  /-- The poller drops a handler without events after some time. -/
  | expire
  | begin (version : Nat)
  /-- The function that was returned is called with a snapshot. -/
  | apply (k : Nat) (snapshot : List (Option Conn)) (now : Nat)
  /-- The next session of the snapshot is checked. The database may fail. -/
  | verify (k : Nat) (reachable : Bool)
  | commit (k : Nat)

def UserState.step (o : RecoveryOptions) (s : UserState) : UserStep → Option UserState
  | .addEvent event =>
    let found := s.handler
    some (found.1.modify found.2 fun h => h.addEvent event)
  | .events count => s.current.bind fun i => ((s.handlers i).events count).map fun h => s.modify i fun _ => h
  | .advanceEvents i => (s.handlers i).advanceEvents.map fun h => s.modify i fun _ => h
  | .store i flag device =>
    match (s.handlers i).processing with
    | some events => if .userLeaderTask ∈ events then some { s with devices := update s.devices flag device } else none
    | none => none
  | .addConn i conn => some (s.modify i fun h => { h with conns := h.conns.addOrUpdateConn conn })
  | .removeConn i conn => some (s.modify i fun h => { h with conns := h.conns.remove conn })
  | .revoke i key => some (s.modify i fun h => { h with conns := h.conns.revoke key })
  | .invalidate conn => some (s.invalidateConnRecovery conn)
  | .expire => s.current.bind fun i => if (s.handlers i).isIdle then some { s with current := none } else none
  | .begin version => some (s.beginConnRecovery version)
  | .apply k snapshot now => s.captures[k]?.map fun capture =>
    match prepare o now snapshot [] with
    | none => s
    | some prepared =>
      let a : Application :=
        if o.verifies then { capture := capture, unverified := prepared }
          else { capture := capture, unverified := [], verified := prepared }
      { s with applications := a :: s.applications }
  | .verify k reachable => s.applications[k]?.map fun a =>
    match a.verify o fun flag => if reachable then s.devices flag else none with
    | none => { s with applications := s.applications.eraseIdx k }
    | some a => { s with applications := s.applications.set k a }
  | .commit k => s.applications[k]?.bind fun a =>
    if a.unverified = [] then some (commit o { s with applications := s.applications.eraseIdx k } a).2 else none

def UserState.Start (s : UserState) : Prop := ∃ devices, s = { devices := devices }

end WuKongIM.Users

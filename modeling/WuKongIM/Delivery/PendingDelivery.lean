import WuKongIM.Users.Conns

/-! The attempts to deliver one item to its receiver: which sessions are given it, and when the
receiver is taken to be offline. -/
namespace WuKongIM.Delivery
open List Users

def deliverySession (conn : Conn) : Nat × Int × List UInt8 := (conn.nodeId, conn.connId, conn.sessionId)

def deviceLevelMaster : UInt8 := 1

def authedConns (c : Conns) : List Conn := c.conns.filter fun conn => conn.auth && !conn.revoked

inductive AttemptError
  | canceled
  | deadlineExceeded
  | leaderNotReady
  | leaderChanged
  /-- The error of a call that the attempt makes. -/
  | failed
  deriving DecidableEq

/-- What one attempt comes upon. The context is asked before anything else and after the
recovery. -/
structure Attempt where
  started : Option AttemptError
  leader : Except AttemptError Nat
  handoff : Option AttemptError
  recovery : Option AttemptError
  waited : Option AttemptError
  currentLeader : Except AttemptError Nat
  directory : { c : Conns // c.Distinct }

/-- The closure of an item, all events of which are pushed to the same connections. -/
structure Item where
  sent : List (Nat × Int × List UInt8) := []
  pushed : List Conn := []
  /-- The attempts that called `notifyOffline`. -/
  offline : List Attempt := []
  /-- The attempt that returned nil, after which there is no other. -/
  returned : Option Attempt := none

/-- Only sessions that have not been given the item are pushed to. -/
def Item.push (item : Item) (conns : List Conn) : Item :=
  let newConns := conns.filter fun conn => deliverySession conn ∉ item.sent
  { item with pushed := item.pushed ++ newConns, sent := item.sent ++ newConns.map deliverySession }

variable (nodeId : Nat) (agent : Bool)

def attemptDelivery (item : Item) (a : Attempt) : Option AttemptError × Item :=
  if a.started ≠ none then (a.started, item) else
  match a.leader with
  | .error err => (some err, item)
  | .ok leader =>
    if leader = 0 then (some .leaderNotReady, item)
    else if leader ≠ nodeId then (a.handoff, item)
    else if a.waited = some .canceled then (a.waited, item) else
    let recoveryErr := a.waited.or a.recovery
    match a.currentLeader with
    | .error err => (some err, item)
    | .ok currentLeader =>
      if currentLeader ≠ leader then (some .leaderChanged, item) else
      let conns := authedConns a.directory
      let item := item.push conns
      if recoveryErr ≠ none then (recoveryErr, item)
      else if conns.any (·.deviceLevel = deviceLevelMaster) || agent then (none, item)
      else (none, { item with offline := item.offline ++ [a] })

def Item.attempt (item : Item) (a : Attempt) : Item :=
  if item.returned.isSome then item else
  let (err, item) := attemptDelivery nodeId agent item a
  { item with returned := if err = none then some a else none }

/-- No session is given the item twice, and an attempt of the leader returns nil when all sessions
have been given it. Only that attempt may take the receiver to be offline, after a recovery without
error and without a master device. -/
structure Item.Served (item : Item) : Prop where
  sent : item.pushed.map deliverySession = item.sent
  once : (item.pushed.map deliverySession).Nodup
  given : ∀ a, item.returned = some a → a.leader = .ok nodeId →
    ∀ conn ∈ authedConns a.directory, deliverySession conn ∈ item.pushed.map deliverySession
  offline : item.offline = [] ∨ ∃ a, item.returned = some a ∧ item.offline = [a] ∧ a.recovery = none ∧ a.waited = none ∧
    ∀ conn ∈ authedConns a.directory, conn.deviceLevel ≠ deviceLevelMaster

variable {nodeId agent}

theorem nodup_authedConns {c : Conns} (h : c.Distinct) : ((authedConns c).map deliverySession).Nodup := by
  refine Nodup.of_map (fun session => (session.1, session.2.1)) ?_
  rw [map_map]
  exact Nodup.sublist (filter_sublist.map Conn.key) h

variable {item : Item} {conns : List Conn}

theorem Item.mem_push {conn : Conn} (h : conn ∈ conns) : deliverySession conn ∈ (item.push conns).sent := by
  by_cases hsent : deliverySession conn ∈ item.sent
  · exact mem_append_left _ hsent
  · exact mem_append_right _ (mem_map_of_mem (mem_filter.mpr ⟨h, decide_eq_true hsent⟩))

theorem Item.nodup_push (h : item.sent.Nodup) (hconns : (conns.map deliverySession).Nodup) :
    (item.push conns).sent.Nodup := by
  refine h.append (hconns.sublist (filter_sublist.map _)) fun session hsent hnew => ?_
  obtain ⟨conn, hconn, rfl⟩ := mem_map.mp hnew
  exact of_decide_eq_true (mem_filter.mp hconn).2 hsent

theorem Item.Served.attempt (h : item.Served nodeId) (a : Attempt) : (item.attempt nodeId agent a).Served nodeId := by
  rw [Item.attempt]
  split
  · exact h
  have hoffline : item.offline = [] := by
    rcases h.offline with hnone | ⟨b, hb, -⟩
    · exact hnone
    · simp_all
  have hsent : (item.push (authedConns a.directory)).pushed.map deliverySession =
      (item.push (authedConns a.directory)).sent := by
    rw [push, map_append, h.sent]
  have hkeep (returned : Option Attempt) (hr : ∀ b, returned = some b → b.leader ≠ .ok nodeId) :
    { item with returned }.Served nodeId :=
    ⟨h.sent, h.once, fun b hb hleader => absurd hleader (hr b hb), .inl hoffline⟩
  have hpush (returned : Option Attempt) (hr : ∀ b, returned = some b → b = a) :
      { item.push (authedConns a.directory) with returned }.Served nodeId := by
    refine ⟨hsent, ?_, fun b hb _ conn hconn => ?_, .inl hoffline⟩
    · rw [hsent]
      exact nodup_push (h.sent ▸ h.once) (nodup_authedConns a.directory.2)
    · rw [hsent]
      exact mem_push (hr b hb ▸ hconn)
  fun_cases attemptDelivery nodeId agent item a
  case case10 hrecovery hmaster =>
    have hnone := Option.or_eq_none_iff.mp (not_ne_iff.mp hrecovery)
    obtain ⟨hsent, honce, hgiven, -⟩ := hpush (some a) fun _ hb => (Option.some.inj hb).symm
    refine ⟨hsent, honce, hgiven, .inr ⟨a, rfl, congrArg (· ++ [a]) hoffline, hnone.2, hnone.1, fun conn hconn hlevel => ?_⟩⟩
    exact hmaster (Bool.or_eq_true_iff.mpr (.inl (any_eq_true.mpr ⟨conn, hconn, decide_eq_true hlevel⟩)))
  case case8 => exact hpush _ (by grind)
  case case9 => exact hpush _ (by grind)
  all_goals exact hkeep _ (by grind)

/-- An attempt of the leader that comes upon no error gives the item to all sessions and is the last
one. -/
theorem Item.attempt_of_leader {a : Attempt} (hitem : item.returned = none) (hstarted : a.started = none) (hid : nodeId ≠ 0)
    (hleader : a.leader = .ok nodeId) (hcurrent : a.currentLeader = .ok nodeId)
    (hwaited : a.waited = none) (hrecovery : a.recovery = none) :
    (item.attempt nodeId agent a).returned = some a ∧
      (item.attempt nodeId agent a).pushed = (item.push (authedConns a.directory)).pushed := by
  simp only [Item.attempt, hitem, attemptDelivery, hstarted, hleader, hcurrent, hwaited, hrecovery, if_neg hid]
  constructor <;> simp <;> split <;> rfl

variable (nodeId agent)

theorem item_served (attempts : List Attempt) : (attempts.foldl (Item.attempt nodeId agent) {}).Served nodeId := by
  have hstart : Item.Served nodeId {} := ⟨rfl, nodup_nil, fun _ hb => (nomatch hb), .inl rfl⟩
  exact attempts.foldlRecOn (motive := Item.Served nodeId) _ hstart fun item h a _ => h.attempt a

private def phone : Conn := { uid := [117], nodeId := 1, connId := 4, auth := true }

private def tablet : Conn := { uid := [117], nodeId := 1, connId := 5, auth := true, deviceLevel := deviceLevelMaster }

private def attemptOf (recovery : Option AttemptError) (conns : List Conn) (h : (conns.map Conn.key).Nodup) : Attempt :=
  ⟨none, .ok 1, none, recovery, none, .ok 1, ⟨{ conns }, h⟩⟩

/-- The recovery fails; with the next attempt there is a second session, and each of the two is
given the item once. -/
theorem item_served_retried :
    let again := attemptOf none [phone, tablet] (by decide)
    let item := [attemptOf (some .failed) [phone] (by decide), again].foldl (Item.attempt 1 false) {}
    item.Served 1 ∧ item.returned = some again ∧ item.offline = [] ∧
      item.pushed.map deliverySession = [(1, 4, []), (1, 5, [])] := by
  intro again item
  have hlast : ((Item.attempt 1 false {} (attemptOf (some .failed) [phone] (by decide))).attempt 1 false again).returned =
      some again := (Item.attempt_of_leader rfl rfl (by decide) rfl rfl rfl rfl).1
  exact ⟨item_served 1 false _, hlast, rfl, by decide⟩

end WuKongIM.Delivery

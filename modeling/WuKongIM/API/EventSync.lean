import WuKongIM.Lib.Pages
import WuKongIM.WKDB.EventLanes

/-! The request that reads the events of a message from package api, and a reader that repeats it
until there is no more. -/
namespace WuKongIM.API
open WKDB Lib List

def channelTypePerson : UInt8 := 1

def visibilityPrivate : Bytes := [112, 114, 105, 118, 97, 116, 101]
def visibilityRestricted : Bytes := [114, 101, 115, 116, 114, 105, 99, 116, 101, 100]

/-- The two users of a conversation in the order of their hashes, with an at sign between them. -/
def getFakeChannelIDWith (hashCrc32 : Bytes → UInt32) (fromUID toUID : Bytes) : Bytes :=
  if hashCrc32 fromUID > hashCrc32 toUID then fromUID ++ [64] ++ toUID else toUID ++ [64] ++ fromUID

structure EventSyncReq where
  channelID : Bytes
  channelType : UInt8
  fromUID : Bytes := []
  clientMsgNo : Bytes
  eventKey : Bytes := []
  fromMsgEventSeq : UInt64 := 0
  limit : Int := 0
  includePrivate : UInt8 := 0

/-- An event of the answer. A payload that is no JSON text is told as a string. -/
structure EventSyncEvent (β : Type) where
  msgEventSeq : UInt64
  eventID : Bytes
  eventKey : Bytes
  eventType : Bytes
  visibility : Bytes
  occurredAt : UInt64
  payload : Option (β ⊕ Bytes)
  deriving DecidableEq

structure EventSyncResp (β : Type) where
  clientMsgNo : Bytes
  fromMsgEventSeq : UInt64
  nextMsgEventSeq : UInt64
  more : Nat
  events : List (EventSyncEvent β)
  filteredByEventKey : Bytes

namespace EventSyncReq

variable {β : Type} (texts : Texts) (statusPayload : MessageEventState → Bytes) (hashCrc32 : Bytes → UInt32)
  (unmarshal : Bytes → Option β) (db : Channel → Bytes → MessageLanes)

def check (req : EventSyncReq) : Except String Unit :=
  if texts.trimSpace req.channelID = [] then .error "channel_id不能为空！"
  else if texts.trimSpace req.clientMsgNo = [] then .error "client_msg_no不能为空！"
  else if req.limit < 0 then .error "limit不能为负数！"
  else .ok ()

def fakeChannel (req : EventSyncReq) : Channel :=
  ⟨if req.channelType = channelTypePerson && texts.trimSpace req.fromUID ≠ [] then
    getFakeChannelIDWith hashCrc32 req.channelID req.fromUID else req.channelID, req.channelType⟩

def hides (req : EventSyncReq) (visibility : Bytes) : Bool :=
  req.includePrivate ≠ 1 && (visibility = visibilityPrivate || visibility = visibilityRestricted)

def respEvent (event : NumberedEvent) : EventSyncEvent β where
  msgEventSeq := event.msgEventSeq
  eventID := event.eventID
  eventKey := event.eventKey
  eventType := event.eventType
  visibility := event.visibility
  occurredAt := event.occurredAt
  payload :=
    if event.payload = [] then none
    else match unmarshal event.payload with
      | some payload => some (.inl payload)
      | none => some (.inr event.payload)

/-- `db` has the lanes of each message. The request is handled by the node that leads the channel's
slot. -/
def eventSync (req : EventSyncReq) : Except String (EventSyncResp β) := do
  req.check texts
  let limit := if req.limit = 0 then 200 else if 2000 < req.limit then 2000 else req.limit
  let channel := req.fakeChannel texts hashCrc32
  let events := (db channel (texts.trimSpace req.clientMsgNo)).listMessageEvents texts statusPayload channel req.clientMsgNo
    req.fromMsgEventSeq req.eventKey (limit + 1)
  let filtered := (events.filter fun event => !req.hides event.visibility).take (limit.toNat + 1)
  let more := if limit.toNat < filtered.length then 1 else 0
  let filtered := filtered.take limit.toNat
  return {
    clientMsgNo := req.clientMsgNo
    fromMsgEventSeq := req.fromMsgEventSeq
    nextMsgEventSeq := (filtered.getLast?.map (·.msgEventSeq)).getD req.fromMsgEventSeq
    more
    events := filtered.map (respEvent unmarshal)
    filteredByEventKey := req.eventKey }

/-- The request is repeated from the number that the answer names, while the answer says that there
is more. -/
def drain : Nat → EventSyncReq → Option (List (EventSyncEvent β))
  | 0, _ => none
  | fuel + 1, req =>
    match req.eventSync texts statusPayload hashCrc32 unmarshal db with
    | .error _ => none
    | .ok resp =>
      if resp.more = 1 then (drain fuel { req with fromMsgEventSeq := resp.nextMsgEventSeq }).map (resp.events ++ ·)
      else some resp.events

def asks (req : EventSyncReq) (l : EventLane) : Bool :=
  texts.trimSpace req.eventKey = [] || l.state.eventKey = normalizeEventKey texts (texts.trimSpace req.eventKey)

def maySee (req : EventSyncReq) (l : EventLane) : Bool := !req.hides l.state.lastVisibility

/-- The lanes that the request asks for and that the scan of the database comes to, in the order of
their numbers. -/
def scanned (req : EventSyncReq) (m : MessageLanes) : List EventLane :=
  m.inOrder.filter fun l => l.hash ≠ maxUint64 && req.asks texts l

def told (req : EventSyncReq) (l : EventLane) : EventSyncEvent β :=
  respEvent unmarshal (MessageLanes.buildProjectedEvent texts statusPayload (req.fakeChannel texts hashCrc32)
    (texts.trimSpace req.clientMsgNo) l.state)

/-- The lanes that a reader is to be told: those asked for that it may see, after the number from
which it starts. -/
def owed (req : EventSyncReq) (m : MessageLanes) : List EventLane :=
  m.inOrder.filter fun l => req.asks texts l && req.fromMsgEventSeq < l.state.lastMsgEventSeq && req.maySee l

section
variable {β : Type} {texts : Texts} {statusPayload : MessageEventState → Bytes} {hashCrc32 : Bytes → UInt32}
  {unmarshal : Bytes → Option β} {db : Channel → Bytes → MessageLanes} {req : EventSyncReq} {m : MessageLanes}

theorem trimSpace_of_check (h : req.check texts = .ok ()) : texts.trimSpace req.clientMsgNo ≠ [] := by
  intro hmsg
  rw [check] at h
  split at h <;> cases h

variable (hm : db (req.fakeChannel texts hashCrc32) (texts.trimSpace req.clientMsgNo) = m)
  (hcheck : req.check texts = .ok ()) {limit : Nat} (hlimit : req.limit = limit) (hpos : 1 ≤ limit) (hmax : limit ≤ 2000)
  (hdistinct : (m.lanes.map (·.state.lastMsgEventSeq)).Nodup)
include hm hcheck hlimit hpos hmax hdistinct

theorem eventSync_eq :
    let seen := (((req.scanned texts m).filter fun l => req.fromMsgEventSeq.toNat < l.state.lastMsgEventSeq.toNat).take
      (limit + 1)).filter req.maySee
    req.eventSync texts statusPayload hashCrc32 unmarshal db = .ok {
      clientMsgNo := req.clientMsgNo
      fromMsgEventSeq := req.fromMsgEventSeq
      nextMsgEventSeq := ((seen.take limit).getLast?.map (·.state.lastMsgEventSeq)).getD req.fromMsgEventSeq
      more := if limit < seen.length then 1 else 0
      events := (seen.take limit).map (req.told texts statusPayload hashCrc32 unmarshal)
      filteredByEventKey := req.eventKey } := by
  intro seen
  have hnext : (0 : Int) < limit + 1 := by omega
  have hlist := MessageLanes.listMessageEvents_eq texts statusPayload hdistinct (req.fakeChannel texts hashCrc32)
    (trimSpace_of_check hcheck) req.fromMsgEventSeq req.eventKey hnext
  have hlanes : (m.inOrder.filter fun l => l.hash ≠ maxUint64 && (req.asks texts l &&
      decide (req.fromMsgEventSeq < l.state.lastMsgEventSeq))) =
      (req.scanned texts m).filter fun l => req.fromMsgEventSeq.toNat < l.state.lastMsgEventSeq.toNat := by
    rw [scanned, filter_filter]
    refine filter_congr fun l _ => ?_
    rw [← Bool.and_assoc, Bool.and_comm]
    simp only [UInt64.lt_iff_toNat_lt]
  have hlength : seen.length ≤ limit + 1 := (length_filter_le _ _).trans (length_take_le _ _)
  have hfiltered : ((m.listMessageEvents texts statusPayload (req.fakeChannel texts hashCrc32) req.clientMsgNo
      req.fromMsgEventSeq req.eventKey (limit + 1)).filter fun event => !req.hides event.visibility).take (limit + 1) =
      seen.map (MessageLanes.buildProjectedEvent texts statusPayload (req.fakeChannel texts hashCrc32)
        (texts.trimSpace req.clientMsgNo) ∘ (·.state)) := by
    rw [hlist, filter_map, ← map_take]
    refine congrArg (map _) ?_
    refine Eq.trans ?_ (take_of_length_le hlength)
    exact congrArg (fun lanes => ((take (limit + 1) lanes).filter req.maySee).take (limit + 1)) hlanes
  have hreq : (if req.limit = 0 then 200 else if 2000 < req.limit then 2000 else req.limit) = limit := by omega
  rw [eventSync, hcheck, hreq]
  simp only [hm, Int.toNat_natCast, hfiltered, length_map, ← map_take, getLast?_map, Option.map_map, map_map]
  rfl

theorem drain_eq (fuel : Nat) : drain texts statusPayload hashCrc32 unmarshal db fuel req = (readPages req.maySee limit fuel
        ((req.scanned texts m).filter fun l => req.fromMsgEventSeq.toNat < l.state.lastMsgEventSeq.toNat)).map
          (List.map (req.told texts statusPayload hashCrc32 unmarshal)) := by
  induction fuel generalizing req with
  | zero => rfl
  | succ fuel ih =>
    rw [drain, eventSync_eq hm hcheck hlimit hpos hmax hdistinct, readPages]
    dsimp only
    generalize hlanes : (req.scanned texts m).filter
      (fun l => decide (req.fromMsgEventSeq.toNat < l.state.lastMsgEventSeq.toNat)) = lanes
    by_cases hfull : limit < ((lanes.take (limit + 1)).filter req.maySee).length
    · obtain ⟨hlong, hall⟩ := limit_lt_length_filter.mp hfull
      have htake : ((lanes.take (limit + 1)).filter req.maySee).take limit = lanes.take limit := by
        rw [filter_eq_self.mpr hall, take_take, Nat.min_eq_left (Nat.le_succ limit)]
      -- a full page ends with a lane, and the lanes after its number are the rest
      obtain ⟨front, last, hpage⟩ : ∃ front last, lanes.take limit = front ++ [last] := by
        have hne : lanes.take limit ≠ [] := ne_nil_of_length_pos (by rw [length_take]; omega)
        exact ⟨_, _, (dropLast_append_getLast hne).symm⟩
      have hsplit : lanes = front ++ last :: lanes.drop limit := by
        rw [← singleton_append, ← append_assoc, ← hpage, take_append_drop]
      have hrest : (req.scanned texts m).filter (fun l =>
        decide (last.state.lastMsgEventSeq.toNat < l.state.lastMsgEventSeq.toNat)) =
          lanes.drop limit :=
        filter_lt_of_split ((MessageLanes.pairwise_inOrder hdistinct).filter _) (hlanes.trans hsplit)
      have hdrain : drain texts statusPayload hashCrc32 unmarshal db fuel
          { req with fromMsgEventSeq := last.state.lastMsgEventSeq } =
          (readPages req.maySee limit fuel (lanes.drop limit)).map
            (map (req.told texts statusPayload hashCrc32 unmarshal)) := by
        rw [← hrest]
        exact ih hm hcheck hlimit
      rw [if_pos hfull, if_pos rfl, if_pos hfull, htake, hpage, getLast?_append_cons]
      simp only [getLast?_singleton, Option.map_some, Option.getD_some, hdrain, Option.map_map, Function.comp_def, map_append]
    · rw [if_neg hfull, if_neg hfull, take_of_length_le (by omega)]
      rfl

/-- A reader that repeats the request gets to an end. It is told all that it may see, each lane once
and in the order of the numbers, just when none of these lanes lies under the hash at which the scan
ends, and after a hidden lane of one of the pages there is nothing to see beyond that page. -/
theorem event_sync_drains :
    ∃ fuel events, drain texts statusPayload hashCrc32 unmarshal db fuel req = some events ∧
      (events = (req.owed texts m).map (req.told texts statusPayload hashCrc32 unmarshal) ↔
        (∀ l ∈ req.owed texts m, l.hash ≠ maxUint64) ∧ HiddenLast req.maySee limit
          ((req.scanned texts m).filter fun l => req.fromMsgEventSeq.toNat < l.state.lastMsgEventSeq.toNat)) := by
  generalize hlanes : (req.scanned texts m).filter (fun l =>
    req.fromMsgEventSeq.toNat < l.state.lastMsgEventSeq.toNat) = lanes
  obtain ⟨read, hread, hiff⟩ : ∃ read, readPages req.maySee limit (lanes.length + 1) lanes = some read ∧
      (read = lanes.filter req.maySee ↔ HiddenLast req.maySee limit lanes) := readPages_spec hpos (Nat.lt_succ_self _)
  have howed : lanes.filter req.maySee = (req.owed texts m).filter fun l => l.hash ≠ maxUint64 := by
    rw [← hlanes, scanned, owed, List.filter_filter, List.filter_filter, List.filter_filter]
    ac_rfl
  have hsub : read.Sublist (req.owed texts m) := (readPages_sublist hread).trans (howed ▸ filter_sublist)
  refine ⟨lanes.length + 1, read.map (req.told texts statusPayload hashCrc32 unmarshal), ?_, ?_⟩
  · rw [drain_eq hm hcheck hlimit hpos hmax hdistinct, hlanes, hread]
    rfl
  rw [← hiff]
  constructor
  · intro heq
    have hall : read = req.owed texts m := hsub.eq_of_length (by simpa using congrArg List.length heq)
    have hscanned : ((req.owed texts m).filter fun l => l.hash ≠ maxUint64) = req.owed texts m := by
      refine filter_sublist.antisymm ?_
      rw [← howed]
      exact hall ▸ readPages_sublist hread
    refine ⟨fun l hl => ?_, ?_⟩
    · exact of_decide_eq_true (filter_eq_self.mp hscanned l hl)
    · rw [howed, hscanned, hall]
  · rintro ⟨hscanned, rfl⟩
    rw [howed, filter_eq_self.mpr fun l hl => decide_eq_true (hscanned l hl)]

end

private def laneEvent (visibility : Bytes) (i : Nat) : MessageEvent where
  channel := ⟨[99], 2⟩
  clientMsgNo := [109]
  eventID := [49]
  eventKey := [97 + .ofNat i]
  eventType := streamDelta
  visibility
  occurredAt := 1

private def lanesOf (visibilities : List Bytes) : MessageLanes :=
  (visibilities.zipIdx.map fun v => laneEvent v.1 v.2).foldl
    (fun m event => (m.appendMessageEventWithState .ascii (fun _ => []) 1 event).2) {}

private def one : EventSyncReq := { channelID := [99], channelType := 2, clientMsgNo := [109], limit := 1 }

/-- Three public lanes, read one by one. -/
theorem event_sync_drains_public : ∃ fuel events,
    drain .ascii (fun _ => []) (fun _ => 0) (fun _ => (none : Option Unit))
      (fun _ _ => lanesOf [[], [], []]) fuel one = some events ∧
      events.map (·.msgEventSeq) = [1, 2, 3] := by
  have hcheck : one.check .ascii = .ok () := by decide +kernel
  have hlimit : one.limit = 1 := rfl
  have hdistinct : ((lanesOf [[], [], []]).lanes.map (·.state.lastMsgEventSeq)).Nodup := by decide +kernel
  obtain ⟨fuel, events, hdrain, hiff⟩ := @event_sync_drains Unit .ascii (fun _ => []) (fun _ => 0) (fun _ => none)
    (fun _ _ => lanesOf [[], [], []]) one _ rfl hcheck 1 hlimit (by decide) (by decide) hdistinct
  refine ⟨fuel, events, hdrain, ?_⟩
  rw [hiff.mpr ⟨by decide +kernel, hiddenLast_of_visible (by decide +kernel)⟩]
  decide +kernel

/-- Behind a private lane, which is left out of the first page, the third lane is never told. -/
theorem event_sync_drains_fails :
    ((lanesOf [visibilityPrivate, [], []]).lanes.map (·.state.lastMsgEventSeq)).Nodup ∧
    (one.owed .ascii (lanesOf [visibilityPrivate, [], []])).map (·.state.lastMsgEventSeq) = [2, 3] ∧
    (drain .ascii (fun _ => []) (fun _ => 0) (fun _ => (none : Option Unit)) (fun _ _ => lanesOf [visibilityPrivate, [], []])
      4 one).map (List.map (·.msgEventSeq)) = some [2] := by
  decide +kernel

end EventSyncReq
end WuKongIM.API

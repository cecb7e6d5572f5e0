import WuKongIM.API.EventAppend
import WuKongIM.Lib.Upserts
import WuKongIM.WKCache.ReadBack

/-! A lane as clients are told it: the state that is stored, over which the state in the cache is
laid. -/
namespace WuKongIM.API
open WKDB WKCache Lib Option MessageEventCache

structure LaneView where
  status : EventStatus
  snapshot : Option Json
  endReason : UInt8
  error : Bytes

def laneView (g : GoTexts) (state : MessageEventState) : LaneView where
  status := state.status
  snapshot := g.shown state.snapshotPayload
  endReason := state.endReason
  error := state.error

namespace EventServer
variable (o : EventOptions) (s : EventServer)

def stored (l : Lane) : Option MessageEventState :=
  (s.db (eventKey o l.channel l.clientMsgNo)).getMessageEventState l.eventKey

def eventStates (channel : Channel) (clientMsgNo : Bytes) : List MessageEventState :=
  mergeEventStatesWithCache o.texts s.cache channel clientMsgNo (s.db (eventKey o channel clientMsgNo)).getMessageEventStates

def view (l : Lane) : Option LaneView :=
  ((s.eventStates o l.channel l.clientMsgNo).find? fun state => state.eventKey = l.eventKey).map (laneView o.texts)

end EventServer

section
variable {c : MessageEventCache} {g : GoTexts} {channel : Channel} {clientMsgNo : Bytes}

theorem eventKey_mergeCacheState {cs : EventKeyState} {existing : Option MessageEventState}
    (h : ∀ state, existing = some state → state.eventKey = cs.eventKey) :
    (mergeCacheState g channel clientMsgNo existing cs).eventKey = cs.eventKey := by
  cases existing with
  | none => rfl
  | some state =>
    rw [mergeCacheState]
    split
    · rfl
    · exact h state rfl

theorem keyStates_eq_some {states : List EventKeyState} (h : c.getEventKeyStates g clientMsgNo channel = some states) :
    ∃ s : Session, (∀ key, s.keyStates.lookup key = c.lanes ⟨channel, g.trimSpace clientMsgNo, key⟩) ∧
      states = s.keyStates.entries.map (·.2) := by
  rw [getEventKeyStates] at h
  split at h
  · cases h
  rename_i s hs
  split at h
  · cases h
  cases h
  obtain ⟨hcontinues, hchannel⟩ := continues_of_find hs
  exact ⟨s, fun key => hchannel ▸ hcontinues.lookup_eq key, rfl⟩

variable (hmsg : g.trimSpace clientMsgNo ≠ [])
include hmsg

theorem lanes_of_keyStates (h : c.getEventKeyStates g clientMsgNo channel = none)
    (key : Bytes) : c.lanes ⟨channel, g.trimSpace clientMsgNo, key⟩ = none := by
  rw [getEventKeyStates] at h
  split at h
  · next e he => exact lanes_of_find_error hmsg he
  rename_i s hs
  obtain ⟨hcontinues, hchannel⟩ := continues_of_find hs
  split at h
  · next hempty =>
    rw [← hchannel, ← hcontinues.lookup_eq, AList.lookup, hempty]
    rfl
  · cases h

variable {state : MessageEventState}

theorem find?_mergeEventStates (hnamed : ∀ key ks, c.lanes ⟨channel, g.trimSpace clientMsgNo, key⟩ = some ks → ks.eventKey = key)
    {dbStates : List MessageEventState} (hnodup : (dbStates.map (·.eventKey)).Nodup)
    (hstate : state ∈ dbStates) :
    (mergeEventStatesWithCache g c channel clientMsgNo dbStates).find? (fun st => st.eventKey = state.eventKey) =
      some ((c.lanes ⟨channel, g.trimSpace clientMsgNo, state.eventKey⟩).elim state
        fun ks => mergeCacheState g channel clientMsgNo (some state) ks) := by
  rw [mergeEventStatesWithCache]
  cases hcached : c.getEventKeyStates g clientMsgNo channel with
  | none =>
    rw [lanes_of_keyStates hmsg hcached]
    exact find?_of_mem hnodup hstate
  | some states =>
    obtain ⟨s, hlookup, rfl⟩ := keyStates_eq_some hcached
    have hcacheNamed : Named EventKeyState.eventKey s.keyStates := fun key ks hks => hnamed key ks (hlookup key ▸ hks)
    have hcacheNodup : ((s.keyStates.entries.map (·.2)).map (·.eventKey)).Nodup := by
      have hkeys : (s.keyStates.entries.map (·.2)).map (·.eventKey) = s.keyStates.keys := by
        rw [List.map_map]
        refine List.map_congr_left fun entry hentry => ?_
        exact hcacheNamed entry.1 entry.2 (AList.mem_lookup_iff.mpr hentry)
      rw [hkeys]
      exact s.keyStates.nodupKeys
    have hdbNamed : Named MessageEventState.eventKey (upsertAll (·.eventKey) (fun _ st => st) ∅ dbStates) := by
      refine Named.empty.upsertAll (fun st => ⟨?_, fun _ _ => ?_⟩) dbStates <;> rfl
    have hmerged : Named MessageEventState.eventKey (upsertAll EventKeyState.eventKey (mergeCacheState g channel clientMsgNo)
        (upsertAll (·.eventKey) (fun _ st => st) ∅ dbStates) (s.keyStates.entries.map (·.2))) :=
      hdbNamed.upsertAll (fun cs => ⟨rfl, fun st hst => eventKey_mergeCacheState fun st' hst' => some.inj hst' ▸ hst⟩) _
    refine (hmerged.find?_values state.eventKey).trans ?_
    rw [lookup_upsertAll hcacheNodup, lookup_upsertAll hnodup, find?_of_mem hnodup hstate, hcacheNamed.find?_values, hlookup]
    cases c.lanes ⟨channel, g.trimSpace clientMsgNo, state.eventKey⟩ with
    | none | some ks => rfl

end

structure Agrees (g : GoTexts) (state : MessageEventState) (ks : EventKeyState) : Prop where
  status : ks.status = state.status
  seq : state.lastMsgEventSeq ≤ ks.persistedSeq
  snapshot : ∀ v, g.cachedSnapshot ks.textSnapshot ks.snapshotPayload = some v → g.shown state.snapshotPayload = some v

theorem laneView_mergeCacheState {g : GoTexts} (hlaws : g.Lawful) {ks : EventKeyState} (h : Agrees g state ks)
    (hvalid : validUTF8 ks.textSnapshot) (channel : Channel) (clientMsgNo : Bytes) :
    laneView g (mergeCacheState g channel clientMsgNo (some state) ks) = laneView g state := by
  have hseq : (decide (state.lastMsgEventSeq ≤ ks.persistedSeq) || decide (ks.status = .open)) := by
    rw [decide_eq_true h.seq, Bool.true_or]
  rw [mergeCacheState, if_pos hseq, laneView, laneView, LaneView.mk.injEq]
  refine ⟨h.status, ?_, rfl, rfl⟩
  cases hv : g.cachedSnapshot ks.textSnapshot ks.snapshotPayload with
  | none =>
    rw [GoTexts.cachedSnapshot] at hv
    split at hv
    · cases hv
    rename_i htext
    split at hv
    · cases hv
    · next hpayload => rw [if_neg htext, if_neg hpayload]
  | some v =>
    rw [h.snapshot v hv, ← hlaws.shown_cached hvalid hv]
    rw [GoTexts.cachedSnapshot] at hv
    split at hv
    · next htext => rw [if_pos htext, if_pos htext]
    · next htext =>
      split at hv
      · next hpayload => rw [if_pos hpayload]
      · cases hv

end WuKongIM.API

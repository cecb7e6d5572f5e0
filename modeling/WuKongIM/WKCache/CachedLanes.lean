import WuKongIM.WKCache.MessageEventCache

/-! The cache of message events as a partial function from lanes to their states, and what each
operation does to it. -/
namespace WuKongIM.WKCache
open WKDB Lib Option Function

/-- An event key of a message in a channel. -/
structure Lane where
  channel : Channel
  clientMsgNo : Bytes
  eventKey : Bytes
  deriving DecidableEq

def GoTexts.lane (g : GoTexts) (event : MessageEvent) : Lane :=
  ⟨event.channel, g.trimSpace event.clientMsgNo, normalizeEventKey g.texts event.eventKey⟩

def EventKeyState.core (ks : EventKeyState) : EventKeyState :=
  { ks with lastEventID := [], lastEventType := [], lastVisibility := [], lastOccurredAt := 0 }

theorem EventKeyState.core_eq {ks ks' : EventKeyState} : ks'.core = ks.core ↔
    ks'.eventKey = ks.eventKey ∧ ks'.status = ks.status ∧ ks'.persistedSeq = ks.persistedSeq ∧
    ks'.textSnapshot = ks.textSnapshot ∧ ks'.snapshotPayload = ks.snapshotPayload := by
  simp only [core, EventKeyState.mk.injEq]
  tauto

namespace MessageEventCache

/-- A session is only for the channel that it was opened with. -/
def lanes (c : MessageEventCache) (l : Lane) : Option EventKeyState :=
  (c.sessions l.clientMsgNo).bind fun s => if s.info.channel = l.channel then s.keyStates.lookup l.eventKey else none

def lanesWithout (c : MessageEventCache) (clientMsgNo : Bytes) (l : Lane) : Option EventKeyState :=
  if l.clientMsgNo = clientMsgNo then none else c.lanes l

/-- The session has the channel and the keys of the one in the cache, or is a new one. -/
def Continues (c : MessageEventCache) (clientMsgNo : Bytes) (s : Session) : Prop :=
  (c.sessions clientMsgNo = none ∧ s.keyStates = ∅) ∨ ∃ s', c.sessions clientMsgNo = some s' ∧
    s'.info.channel = s.info.channel ∧ s'.keyStates = s.keyStates

variable {g : GoTexts} {c c' : MessageEventCache} {clientMsgNo eventKey : Bytes} {s : Session} {event : MessageEvent}
  {info : SessionMeta} {seq : UInt64} {ks ks' : EventKeyState} {channel : Channel} {merged : Bytes}

theorem continues_of_find (h : c.find clientMsgNo channel = .ok s) : c.Continues clientMsgNo s ∧ s.info.channel = channel :=
  ⟨.inr ⟨s, (find_eq_ok.mp h).2.1, rfl, rfl⟩, (find_eq_ok.mp h).2.2⟩

namespace Continues
variable (h : c.Continues clientMsgNo s)
include h

theorem lanes_eq (channel : Channel) (eventKey : Bytes) : c.lanes ⟨channel, clientMsgNo, eventKey⟩ =
    if s.info.channel = channel then s.keyStates.lookup eventKey else none := by
  rcases h with ⟨hnone, hkeys⟩ | ⟨s', hs', hchannel, hkeys⟩
  · rw [lanes, hnone, hkeys]
    exact (ite_self none).symm
  · rw [lanes, hs', bind_some, hchannel, hkeys]

theorem lookup_eq (eventKey : Bytes) : s.keyStates.lookup eventKey = c.lanes ⟨s.info.channel, clientMsgNo, eventKey⟩ := by
  rw [h.lanes_eq, if_pos rfl]

theorem lanes_putKey (eventKey : Bytes) (ks : EventKeyState) :
    (c.putKey clientMsgNo s eventKey ks).lanes = update c.lanes ⟨s.info.channel, clientMsgNo, eventKey⟩ (some ks) := by
  funext ⟨channel, msg, key⟩
  by_cases hmsg : msg = clientMsgNo
  · subst hmsg
    have hput : (c.putKey msg s eventKey ks).lanes ⟨channel, msg, key⟩ =
        if s.info.channel = channel then (s.keyStates.insert eventKey ks).lookup key else none := by
      simp [lanes, putKey, put]
    rw [hput]
    by_cases hchannel : s.info.channel = channel
    · subst hchannel
      rw [if_pos rfl]
      by_cases hkey : key = eventKey
      · subst hkey
        rw [AList.lookup_insert, update_self]
      · rw [AList.lookup_insert_ne hkey, h.lookup_eq, update_of_ne]
        exact fun heq => hkey (congrArg Lane.eventKey heq)
    · rw [if_neg hchannel, update_of_ne, h.lanes_eq, if_neg hchannel]
      exact fun heq => hchannel (congrArg Lane.channel heq).symm
  · simp [lanes, putKey, put, hmsg]

end Continues

theorem lanes_delete (clientMsgNo : Bytes) : (c.delete clientMsgNo).lanes = c.lanesWithout clientMsgNo := by
  funext l
  rw [lanes, delete, lanesWithout]
  by_cases hmsg : l.clientMsgNo = clientMsgNo
  · simp [hmsg]
  · simp [hmsg, lanes]

theorem lanes_register (h : c.registerStreamMessage g info = .ok c') : c'.lanes = c.lanes := by
  rw [registerStreamMessage] at h
  split at h
  · cases h
  split at h
  · cases h
    rfl
  · next hnone =>
    cases h
    funext l
    by_cases hmsg : l.clientMsgNo = g.trimSpace info.clientMsgNo
    · simp [lanes, put, hmsg, hnone]
    · simp [lanes, put, hmsg]

theorem lanes_of_appendDelta (h : c.appendDelta g event = .ok (ks', c')) :
    ∃ ks added, c.lanes (g.lane event) = some ks ∧ isTerminalStatus ks.status = false ∧
      addDelta g ks event.payload = .ok added ∧
      ks' = { noteEvent g added event with status := .open } ∧ c'.lanes = update c.lanes (g.lane event) (some ks') := by
  obtain ⟨s, ks, added, hs, hks, hopen, hadded, rfl, rfl⟩ := appendDelta_eq_ok.mp h
  obtain ⟨hcontinues, hchannel⟩ := continues_of_find hs
  refine ⟨ks, added, ?_, hopen, hadded, rfl, ?_⟩
  · rw [hcontinues.lookup_eq, hchannel] at hks
    exact hks
  · rw [hcontinues.lanes_putKey, hchannel]
    rfl

def opened (c : MessageEventCache) (l : Lane) (seq : UInt64) : EventKeyState :=
  upsertKey seq ((c.lanes l).getD { eventKey := l.eventKey, status := .open })

theorem lanes_of_upsertSession (h : c.upsertSession g info eventKey seq = .ok (ks', c')) :
    ks' = c.opened ⟨info.channel, g.trimSpace info.clientMsgNo, normalizeEventKey g.texts eventKey⟩ seq ∧
      c'.lanes = update c.lanes ⟨info.channel, g.trimSpace info.clientMsgNo,
        normalizeEventKey g.texts eventKey⟩ (some ks') := by
  suffices hs : ∃ s, c.Continues (g.trimSpace info.clientMsgNo) s ∧ s.info.channel = info.channel ∧
      (let key := normalizeEventKey g.texts eventKey
       let ks := upsertKey seq ((s.keyStates.lookup key).getD { eventKey := key, status := .open })
       (ks, c.putKey (g.trimSpace info.clientMsgNo) s key ks)) = (ks', c') by
    obtain ⟨s, hcontinues, hchannel, heq⟩ := hs
    cases heq
    rw [hcontinues.lanes_putKey, hcontinues.lookup_eq, hchannel]
    exact ⟨rfl, rfl⟩
  rw [upsertSession] at h
  split at h
  · next hfind =>
    refine ⟨_, .inl ⟨?_, rfl⟩, ?_, Except.ok.inj h⟩
    · exact find_eq_sessionNotFound.mp hfind |>.2
    · rfl
  · cases h
  · next s hfind =>
    obtain ⟨-, hs, hchannel⟩ := find_eq_ok.mp hfind
    exact ⟨{ s with info := refresh g s.info info }, .inr ⟨s, hs, rfl, rfl⟩, hchannel, Except.ok.inj h⟩

/-- The payload of a terminal event with what has been gathered for its lane. -/
def mergedPayload (g : GoTexts) (ks : EventKeyState) (payload : Bytes) : Option Bytes :=
  if ks.textSnapshot ≠ [] || ks.snapshotPayload ≠ [] then
    g.mergeTerminalPayloadWithSnapshot payload ks.textSnapshot ks.snapshotPayload
  else some payload

theorem lanes_of_terminal (h : c.buildTerminalPayload g event = .ok (merged, c')) :
    ∃ ks, c.lanes (g.lane event) = some ks ∧ mergedPayload g ks event.payload = some merged ∧
      c'.lanes = update c.lanes (g.lane event) (some (noteEvent g ks event)) := by
  obtain ⟨s, hs, h⟩ := bind_eq_ok.mp h
  obtain ⟨ks, hks, h⟩ := bind_eq_ok.mp h
  obtain ⟨hcontinues, hchannel⟩ := continues_of_find hs
  rw [findKey_eq_ok, hcontinues.lookup_eq, hchannel] at hks
  suffices hmerged : ∃ m, mergedPayload g ks event.payload = some m ∧ (do
      g.validateEventText m
      return (m, c.putKey (g.trimSpace event.clientMsgNo) s (normalizeEventKey g.texts event.eventKey) (noteEvent g ks event))) =
        Except.ok (merged, c') by
    obtain ⟨m, hm, h⟩ := hmerged
    obtain ⟨-, -, h⟩ := bind_eq_ok.mp h
    cases h
    refine ⟨ks, hks, hm, ?_⟩
    rw [hcontinues.lanes_putKey, hchannel]
    rfl
  rw [mergedPayload]
  split at h
  · next hgathered =>
    rw [if_pos hgathered]
    split at h
    · next m hm => exact ⟨m, hm, h⟩
    · cases h
  · next hnot =>
    rw [if_neg hnot]
    exact ⟨_, rfl, h⟩

theorem lanes_of_markPersisted {status : EventStatus}
    (h : c.markEventKeyPersisted g clientMsgNo channel eventKey status seq = .ok c') :
    let l : Lane := ⟨channel, g.trimSpace clientMsgNo, normalizeEventKey g.texts eventKey⟩
    let ks := markKey status seq ((c.lanes l).getD { eventKey := l.eventKey })
    c'.lanes = update c.lanes l (some ks) ∨ (isTerminalStatus ks.status ∧ c'.lanes = c.lanesWithout l.clientMsgNo) := by
  obtain ⟨s, hs, h⟩ := bind_eq_ok.mp h
  obtain ⟨hcontinues, hchannel⟩ := continues_of_find hs
  rw [hcontinues.lookup_eq, hchannel] at h
  cases h
  split
  · next hall =>
    refine .inr ⟨?_, lanes_delete _⟩
    rw [allEventKeysTerminal, Bool.and_eq_true] at hall
    exact List.all_eq_true.mp hall.2 _ (AList.mem_lookup_iff.mp (AList.lookup_insert _))
  · refine .inl ?_
    have hput := hcontinues.lanes_putKey (normalizeEventKey g.texts eventKey)
    rw [hchannel] at hput
    exact hput _

variable {c'' : MessageEventCache} {l l' : Lane}

/-- A lane may go from the cache, or another event may be noted for it. -/
def Keeps (c c' : MessageEventCache) (l : Lane) : Prop :=
  ∀ ks', c'.lanes l = some ks' → ∃ ks, c.lanes l = some ks ∧ ks'.core = ks.core

theorem Keeps.refl (c : MessageEventCache) (l : Lane) : Keeps c c l := fun ks h => ⟨ks, h, rfl⟩

theorem Keeps.trans (h : Keeps c c' l) (h' : Keeps c' c'' l) : Keeps c c'' l := by
  intro ks'' hks''
  obtain ⟨ks', hks', hcore'⟩ := h' ks'' hks''
  obtain ⟨ks, hks, hcore⟩ := h ks' hks'
  exact ⟨ks, hks, hcore'.trans hcore⟩

theorem Keeps.of_eq (h : c'.lanes l = c.lanes l) : Keeps c c' l := fun ks hks => ⟨ks, h ▸ hks, rfl⟩

theorem Keeps.of_update {ks : Option EventKeyState} (h : c'.lanes = update c.lanes l' ks) (hne : l ≠ l') : Keeps c c' l :=
  .of_eq (h ▸ update_of_ne hne ..)

theorem Keeps.of_without {clientMsgNo : Bytes} (h : c'.lanes = c.lanesWithout clientMsgNo) (l : Lane) : Keeps c c' l := by
  intro ks hks
  rw [h, lanesWithout] at hks
  split at hks
  · cases hks
  · exact ⟨ks, hks, rfl⟩

theorem Keeps.of_build (h : c.buildTerminalPayload g event = .ok (merged, c')) (l : Lane) : Keeps c c' l := by
  obtain ⟨ks, hks, -, hlanes⟩ := lanes_of_terminal h
  by_cases hl : l = g.lane event
  · subst hl
    intro ks' hks'
    rw [hlanes, update_self] at hks'
    cases hks'
    exact ⟨ks, hks, rfl⟩
  · exact .of_update hlanes hl

theorem find_of_lanes {ks : EventKeyState} (hmsg : l.clientMsgNo ≠ []) (h : c.lanes l = some ks) :
    ∃ s, c.find l.clientMsgNo l.channel = .ok s := by
  obtain ⟨s, hs, hks⟩ := bind_eq_some_iff.mp h
  refine ⟨s, find_eq_ok.mpr ⟨hmsg, hs, ?_⟩⟩
  by_contra hne
  rw [if_neg hne] at hks
  cases hks

theorem lanes_of_find_error {e : CacheError} (hmsg : l.clientMsgNo ≠ [])
    (h : c.find l.clientMsgNo l.channel = .error e) : c.lanes l = none := by
  cases hks : c.lanes l with
  | none => rfl
  | some ks =>
    obtain ⟨s, hs⟩ := find_of_lanes hmsg hks
    rw [hs] at h
    cases h

end MessageEventCache
end WuKongIM.WKCache

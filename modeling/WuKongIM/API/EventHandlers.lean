import WuKongIM.API.EventAppend
import WuKongIM.WKCache.ReadBack

/-! What the handlers of events do to the lanes in the cache. -/
namespace WuKongIM.API
open WKDB WKCache Lib MessageEventCache Function

variable {o : EventOptions} {c c' : MessageEventCache} {event : MessageEvent} {info : SessionMeta} {l : Lane}

variable {g : GoTexts} {payload : Bytes} {eventKey : Bytes} {e : CacheError}

theorem lanes_of_build_error (hmsg : g.trimSpace event.clientMsgNo ≠ [])
    (h : c.buildTerminalPayload g event = .error e) (hlong : e ≠ .textTooLong)
    (hnil : e ≠ .nilMap) : c.lanes (g.lane event) = none := by
  rcases bind_eq_error.mp h with h | ⟨s, hs, h⟩
  · exact lanes_of_find_error hmsg h
  obtain ⟨hcontinues, hchannel⟩ := continues_of_find hs
  rcases bind_eq_error.mp h with h | ⟨ks, hks, h⟩
  · rw [findKey] at h
    split at h
    · next hnone =>
      rw [hcontinues.lookup_eq, hchannel] at hnone
      exact hnone
    · cases h
  · -- what comes after the lane has been found fails with one of the two errors that are excluded
    exfalso
    split at h
    · split at h
      · rw [pure_bind] at h
        rcases bind_eq_error.mp h with h | ⟨-, -, h⟩
        · exact hlong (GoTexts.validateEventText_error h)
        · cases h
      · exact hnil (by cases h; rfl)
    · rw [pure_bind] at h
      rcases bind_eq_error.mp h with h | ⟨-, -, h⟩
      · exact hlong (GoTexts.validateEventText_error h)
      · cases h

theorem payloadToStore_spec (hmsg : o.texts.trimSpace event.clientMsgNo ≠ [])
    (h : payloadToStore o event c = .ok (payload, c')) : (∀ l, Keeps c c' l) ∧
    (isTerminalStreamEventType event.eventType → match c.lanes (o.texts.lane event) with
      | none => payload = event.payload
      | some ks => mergedPayload o.texts ks event.payload = some payload) := by
  rw [payloadToStore] at h
  split at h
  · split at h
    · cases h
    · cases h
    · next e hlong hnil hbuild =>
      cases h
      refine ⟨.refl c, fun _ => ?_⟩
      rw [lanes_of_build_error hmsg hbuild hlong hnil]
    · obtain ⟨ks, hks, hmerged, -⟩ := lanes_of_terminal h
      refine ⟨.of_build h, fun _ => ?_⟩
      rw [hks]
      exact hmerged
  · next hterminal =>
    cases h
    exact ⟨.refl c, fun ht => absurd ht hterminal⟩

def laneOf (o : EventOptions) (info : SessionMeta) (eventKey : Bytes) : Lane :=
  ⟨info.channel, o.texts.trimSpace info.clientMsgNo, normalizeEventKey o.texts.texts eventKey⟩

theorem lanes_upsertAfterPersist (info : SessionMeta) (eventKey : Bytes) (state : MessageEventState) (c : MessageEventCache) :
    let l := laneOf o info eventKey
    (upsertAfterPersist o info eventKey state c).lanes = update c.lanes l (some (c.opened l state.lastMsgEventSeq)) ∨
      upsertAfterPersist o info eventKey state c = c ∧ ∃ e, c.find l.clientMsgNo l.channel = .error e := by
  rw [upsertAfterPersist]
  split
  · next h =>
    refine .inr ⟨rfl, ?_⟩
    rw [upsertSession] at h
    split at h
    · cases h
    · next hfind => exact ⟨_, hfind⟩
    · cases h
  · next h =>
    obtain ⟨rfl, hlanes⟩ := lanes_of_upsertSession h
    exact .inl hlanes

theorem markAfterPersist_of_find_error (state : MessageEventState)
    (h : c.find (laneOf o info eventKey).clientMsgNo (laneOf o info eventKey).channel = .error e) :
    markAfterPersist o info eventKey state c = c := by
  have hmark : c.markEventKeyPersisted o.texts info.clientMsgNo info.channel eventKey state.status state.lastMsgEventSeq = .error e := by
    exact congrArg (· >>= _) h
  rw [markAfterPersist, hmark]

theorem lanes_markAfterPersist {s : Session} (state : MessageEventState)
    (h : c.find (laneOf o info eventKey).clientMsgNo (laneOf o info eventKey).channel = .ok s) :
    let l := laneOf o info eventKey
    let ks := markKey state.status state.lastMsgEventSeq ((c.lanes l).getD { eventKey := l.eventKey })
    let c' := markAfterPersist o info eventKey state c
    c'.lanes = update c.lanes l (some ks) ∨ (isTerminalStatus ks.status ∧ c'.lanes = c.lanesWithout l.clientMsgNo) := by
  intro l ks c'
  obtain ⟨c₁, hmark⟩ : ∃ c₁, c.markEventKeyPersisted o.texts info.clientMsgNo info.channel eventKey state.status
      state.lastMsgEventSeq = .ok c₁ := by
    exact ⟨_, congrArg (· >>= _) h⟩
  have hc' : c' = c₁ := by simp only [c', markAfterPersist, hmark]
  rw [hc']
  exact lanes_of_markPersisted hmark

theorem lanes_afterPersist (hmsg : o.texts.trimSpace info.clientMsgNo ≠ []) (eventKey : Bytes)
    (state : MessageEventState) (c : MessageEventCache) :
    let l := laneOf o info eventKey
    let c' := syncEventCacheAfterPersist o info eventKey state c
    (∀ l', l' ≠ l → Keeps c c' l') ∧ ∀ ks, c'.lanes l = some ks →
      ks = markKey state.status state.lastMsgEventSeq (c.opened l state.lastMsgEventSeq) := by
  intro l c'
  rcases lanes_upsertAfterPersist info eventKey state c with hup | ⟨hsame, e, hfind⟩
  · have hlane : (upsertAfterPersist o info eventKey state c).lanes l = some (c.opened l state.lastMsgEventSeq) := by
      rw [hup, update_self]
    obtain ⟨session, hsession⟩ := find_of_lanes hmsg hlane
    rcases lanes_markAfterPersist state hsession with hmark | ⟨-, hmark⟩
    · refine ⟨fun l' hne => (Keeps.of_update hup hne).trans (Keeps.of_update hmark hne), fun ks hks => ?_⟩
      have hks : (syncEventCacheAfterPersist o info eventKey state c).lanes l = some ks := hks
      rw [syncEventCacheAfterPersist, hmark, update_self, hlane] at hks
      exact (Option.some.inj hks).symm
    · refine ⟨fun l' hne => (Keeps.of_update hup hne).trans (Keeps.of_without hmark l'), fun ks hks => ?_⟩
      have hks : (syncEventCacheAfterPersist o info eventKey state c).lanes l = some ks := hks
      rw [syncEventCacheAfterPersist, hmark, lanesWithout, if_pos rfl] at hks
      cases hks
  · -- the session is of another channel, so that neither operation finds it
    have hc' : c' = c := by simp only [c', syncEventCacheAfterPersist, hsame, markAfterPersist_of_find_error state hfind]
    rw [hc']
    refine ⟨fun l' _ => .refl c l', fun ks hks => ?_⟩
    rw [lanes_of_find_error hmsg hfind] at hks
    cases hks

structure Gathered (g : GoTexts) (l : Lane) (ks : EventKeyState) : Prop where
  eventKey : ks.eventKey = l.eventKey
  text : validUTF8 ks.textSnapshot = true
  payload : g.Received ks.snapshotPayload

theorem Gathered.of_core {ks ks' : EventKeyState} (h : Gathered g l ks) (hcore : ks'.core = ks.core) : Gathered g l ks' := by
  obtain ⟨hkey, -, -, htext, hpayload⟩ := EventKeyState.core_eq.mp hcore
  exact ⟨hkey.trans h.eventKey, htext ▸ h.text, hpayload ▸ h.payload⟩

theorem received_nil (hlaws : g.Lawful) : g.Received [] := by
  refine ⟨rfl, fun v hv => ?_⟩
  rw [hlaws.unmarshal_nil] at hv
  cases hv

theorem validUTF8_textDelta (h : g.Received payload) : validUTF8 (g.extractCacheTextDelta payload) := by
  rw [GoTexts.extractCacheTextDelta]
  split
  · rfl
  split
  · rfl
  rename_i fields hfields
  split
  · rw [GoTexts.fieldsOf, GoTexts.unmarshalMap] at hfields
    split at hfields
    · next body hread =>
      cases hfields
      exact (h.2 _ hread).validUTF8_strField _
    · cases hfields
      rfl
    · cases hfields
  · rfl

theorem Gathered.addDelta {ks added : EventKeyState} (h : Gathered g l ks) (hpayload : g.Received payload)
    (hadded : MessageEventCache.addDelta g ks payload = .ok added) : Gathered g l added := by
  rw [MessageEventCache.addDelta] at hadded
  split at hadded
  · obtain ⟨-, -, hadded⟩ := bind_eq_ok.mp hadded
    cases hadded
    exact ⟨h.eventKey, validUTF8_append h.text (validUTF8_textDelta hpayload), h.payload⟩
  split at hadded
  · obtain ⟨-, -, hadded⟩ := bind_eq_ok.mp hadded
    cases hadded
    exact ⟨h.eventKey, h.text, hpayload⟩
  · cases hadded
    exact h

theorem Gathered.opened (hlaws : g.Lawful) (h : ∀ ks, c.lanes l = some ks → Gathered g l ks)
    (seq : UInt64) : Gathered g l (c.opened l seq) := by
  rw [MessageEventCache.opened]
  cases hks : c.lanes l with
  | none => exact ⟨rfl, rfl, received_nil hlaws⟩
  | some ks => exact ⟨(h ks hks).eventKey, (h ks hks).text, (h ks hks).payload⟩

theorem Gathered.appendDelta {ks' : EventKeyState} (h : ∀ ks, c.lanes (g.lane event) = some ks → Gathered g (g.lane event) ks)
    (hpayload : g.Received event.payload) (happend : c.appendDelta g event = .ok (ks', c')) :
    ∀ ks, c'.lanes (g.lane event) = some ks → Gathered g (g.lane event) ks := by
  intro ks hks
  obtain ⟨before, added, hbefore, -, hadded, rfl, hlanes⟩ := lanes_of_appendDelta happend
  rw [hlanes, update_self] at hks
  cases hks
  have hgathered := (h before hbefore).addDelta hpayload hadded
  exact { hgathered with }

theorem lanes_delta (hlaws : o.texts.Lawful) (hinfo : laneOf o info event.eventKey = o.texts.lane event)
    (h : ∀ ks, c.lanes (o.texts.lane event) = some ks → Gathered o.texts (o.texts.lane event) ks)
    (hpayload : o.texts.Received event.payload) :
    let c' := (handleStreamDelta o info event c).2
    (∀ l', l' ≠ o.texts.lane event → Keeps c c' l') ∧
      ∀ ks, c'.lanes (o.texts.lane event) = some ks → Gathered o.texts (o.texts.lane event) ks := by
  have hattempt {c₁ : MessageEventCache} (h : ∀ ks, c₁.lanes (o.texts.lane event) = some ks →
    Gathered o.texts (o.texts.lane event) ks) :
      let c' := (attempt c₁ (c₁.appendDelta o.texts event)).2
      (∀ l', l' ≠ o.texts.lane event → Keeps c₁ c' l') ∧
        ∀ ks, c'.lanes (o.texts.lane event) = some ks → Gathered o.texts (o.texts.lane event) ks := by
    cases happend : c₁.appendDelta o.texts event with
    | error e => exact ⟨fun l' _ => .refl c₁ l', h⟩
    | ok r =>
      obtain ⟨-, -, -, -, -, -, hlanes⟩ := lanes_of_appendDelta happend
      exact ⟨fun l' hne => .of_update hlanes hne, Gathered.appendDelta h hpayload happend⟩
  rw [handleStreamDelta]
  split
  all_goals try exact hattempt h
  all_goals
    split
    · exact ⟨fun l' _ => .refl c l', h⟩
    rename_i ks₁ c₁ hup
    obtain ⟨rfl, hlanes⟩ := lanes_of_upsertSession hup
    have hlanes : c₁.lanes = update c.lanes (o.texts.lane event) (some (c.opened (o.texts.lane event) 0)) := by
      rw [hlanes, ← hinfo]
      rfl
    have hgathered := @hattempt c₁ fun ks hks => by
      rw [hlanes, update_self] at hks
      cases hks
      exact Gathered.opened hlaws h 0
    exact ⟨fun l' hne => (Keeps.of_update hlanes hne).trans (hgathered.1 l' hne), hgathered.2⟩

end WuKongIM.API

import Mathlib.Data.List.DropRight
import WuKongIM.Lib.TaggedJson
import WuKongIM.WKCache.Payloads

/-! What is read back of the payloads that the cache writes. -/
namespace WuKongIM.WKCache
open WKDB Lib List Option

namespace GoTexts

/-- What is true of Go's libraries. A text may be nested ten thousand deep. -/
structure Lawful (g : GoTexts) : Prop where
  trim_trim : ∀ s, g.trimSpace (g.trimSpace s) = g.trimSpace s
  trim_main : g.trimSpace eventKeyDefault = eventKeyDefault
  ended_type : ∀ t ∈ [streamClose, streamError, streamCancel], g.toLower (g.trimSpace t) = t
  unmarshal_nil : g.json.unmarshal [] = none
  read_back : ∀ v, Json.Plain 10000 v → g.json.unmarshal (g.json.marshal v) = some v

/-- A payload as a request brings it: a part of a JSON object, so that it is not nested as deep as a
text may be. -/
def Received (g : GoTexts) (payload : Bytes) : Prop :=
  validUTF8 payload = true ∧ ∀ v, g.json.unmarshal payload = some v → Json.Plain 9999 v

/-- A snapshot as it is told to clients: a text that is not JSON is told as a string. -/
def shown (g : GoTexts) (snapshotPayload : Bytes) : Option Json :=
  if snapshotPayload = [] then none else some ((g.json.unmarshal snapshotPayload).getD (.str snapshotPayload))

variable {g : GoTexts} {payload text snapshotPayload merged : Bytes} {v : Json}

theorem Lawful.normalizeEventKey_idem (h : g.Lawful) (eventKey : Bytes) :
    normalizeEventKey g.texts (normalizeEventKey g.texts eventKey) = normalizeEventKey g.texts eventKey := by
  have htrim (s) : g.texts.trimSpace (g.texts.trimSpace s) = g.texts.trimSpace s := h.trim_trim s
  have hmain : g.texts.trimSpace eventKeyDefault = eventKeyDefault := h.trim_main
  simp only [normalizeEventKey]
  split
  · rw [hmain]
    exact if_neg (by decide)
  · next hne => rw [htrim, if_neg hne]

theorem Lawful.marshal_ne_nil (h : g.Lawful) (hv : Json.Plain 10000 v) : g.json.marshal v ≠ [] := by
  intro hnil
  have hread := h.read_back v hv
  rw [hnil, h.unmarshal_nil] at hread
  cases hread

theorem Lawful.shown_marshal (h : g.Lawful) (hv : Json.Plain 10000 v) : g.shown (g.json.marshal v) = some v := by
  rw [shown, if_neg (h.marshal_ne_nil hv), h.read_back v hv, getD_some]

theorem plain_textSnapshot (h : validUTF8 text) {n : Nat} : Json.Plain (n + 1) (textSnapshot text) := by
  have hempty : Json.Plain (n + 1) (.obj []) := .empty
  have htext := hempty.setField (k := textField) (by decide) (.str h)
  exact htext.setField (by decide) (.str (by decide))

theorem plain_cachedSnapshot (htext : validUTF8 text) (hsnap : g.Received snapshotPayload)
    (h : g.cachedSnapshot text snapshotPayload = some v) : Json.Plain 9999 v := by
  rw [cachedSnapshot] at h
  split at h
  · cases h
    exact plain_textSnapshot htext
  split at h
  · cases h
    cases hv : g.json.unmarshal snapshotPayload with
    | none => exact .str hsnap.1
    | some v => exact hsnap.2 v hv
  · cases h

theorem Lawful.shown_cached (h : g.Lawful) (htext : validUTF8 text) (hv : g.cachedSnapshot text snapshotPayload = some v) :
    g.shown (if text ≠ [] then g.json.marshal (textSnapshot text) else snapshotPayload) = some v := by
  rw [cachedSnapshot] at hv
  split at hv
  · next hne =>
    cases hv
    rw [if_pos hne, h.shown_marshal (plain_textSnapshot htext)]
  · next hnil =>
    rw [if_neg hnil]
    split at hv
    · next hne => rw [shown, if_neg hne, hv]
    · cases hv

theorem Lawful.snapshot_merged (h : g.Lawful) (hpayload : g.Received payload) (htext : validUTF8 text)
    (hsnap : g.Received snapshotPayload) (hv : g.cachedSnapshot text snapshotPayload = some v)
    (hmerged : g.mergeTerminalPayloadWithSnapshot payload text snapshotPayload = some merged)
    (stored : Bytes) : endSnapshot g.texts stored merged = g.json.marshal v := by
  have hplain : Json.Plain 9999 v := plain_cachedSnapshot htext hsnap hv
  rw [mergeTerminalPayloadWithSnapshot, hv] at hmerged
  obtain ⟨body, hbody, rfl⟩ := map_eq_some_iff.mp hmerged
  have hfields : Json.Plain 10000 (.obj body) := by
    split at hbody
    · cases hbody
      exact .empty
    rw [unmarshalMap] at hbody
    split at hbody
    · next hnone =>
      cases hbody
      exact Json.Plain.empty.setField (by decide) (.str hpayload.1)
    · next fields hsome =>
      subst hbody
      split at hsome
      · next fields' hread =>
        cases hsome
        exact (hpayload.2 _ hread).succ
      · cases hsome
      · cases hsome
  have hwhole : Json.Plain 10000 (.obj (Json.setField snapshotField v body)) := hfields.setField (by decide) hplain
  have hunmarshal : (g.texts.unmarshal (g.json.marshal (.obj (Json.setField snapshotField v body)))).bind (·.snapshot) =
      some (g.json.marshal v) := by
    simp only [texts, if_neg (h.marshal_ne_nil hwhole), fieldsOf, unmarshalMap,
      h.read_back _ hwhole, map_some, getD_some, bind_some, Json.field_setField_self]
  rw [endSnapshot, hunmarshal]
  exact if_neg (h.marshal_ne_nil hplain.succ)

theorem rdropWhile_dropWhile_idem (p : UInt8 → Bool) (s : Bytes) :
    (((s.dropWhile p).rdropWhile p).dropWhile p).rdropWhile p = (s.dropWhile p).rdropWhile p := by
  have hfirst : ((s.dropWhile p).rdropWhile p).dropWhile p = (s.dropWhile p).rdropWhile p := by
    have hhead : ∀ h, ¬p (s.dropWhile p)[0] := dropWhile_get_zero_not p s
    obtain ⟨rest, hrest⟩ := rdropWhile_prefix p (l := s.dropWhile p)
    rw [dropWhile_eq_self_iff]
    intro hlen
    have hhead := hrest ▸ hhead
    have := hhead (by rw [length_append]; omega)
    rwa [getElem_append_left] at this
  rw [hfirst, rdropWhile_idempotent]

theorem ascii_lawful : (ascii Json.tagged).Lawful where
  trim_trim := rdropWhile_dropWhile_idem _
  trim_main := by decide
  ended_type := by decide
  unmarshal_nil := rfl
  read_back _ := Json.tagged_reads_back

end GoTexts
end WuKongIM.WKCache

import WuKongIM.Lib.Json
import WuKongIM.Lib.Outcome
import WuKongIM.WKDB.MessageEvents

/-! The payloads of events as JSON texts: what the database, the cache and package messagepayload
read in them and write. -/
namespace WuKongIM.WKCache
open WKDB Lib

/-- The functions of Go's libraries. A float and a decimal text give the reason of an end, as eight
bits. -/
structure GoTexts where
  trimSpace : Bytes → Bytes
  toLower : Bytes → Bytes
  runeCount : Bytes → Nat
  json : Json.Codec
  uint8OfFloat : UInt64 → UInt8
  parseUint8 : Bytes → UInt8

def kindField : Bytes := [107, 105, 110, 100]
def textField : Bytes := [116, 101, 120, 116]
def deltaField : Bytes := [100, 101, 108, 116, 97]
def snapshotField : Bytes := [115, 110, 97, 112, 115, 104, 111, 116]
def endReasonField : Bytes := [101, 110, 100, 95, 114, 101, 97, 115, 111, 110]
def errorField : Bytes := [101, 114, 114, 111, 114]
def rawPayloadField : Bytes := [114, 97, 119, 95, 112, 97, 121, 108, 111, 97, 100]
def typeField : Bytes := [116, 121, 112, 101]
def contentField : Bytes := [99, 111, 110, 116, 101, 110, 116]

def floatOne : UInt64 := 0x3ff0000000000000

def maxTextRunes : Nat := 5000

inductive CacheError
  | sessionNotFound | keyNotFound | channelMismatch | invalidClientMsgNo | streamClosed | textTooLong
  /-- A panic: a field is written to a map that is nil. -/
  | nilMap
  deriving DecidableEq

def textSnapshot (text : Bytes) : Json :=
  .obj (Json.setField kindField (.str snapshotKindText) (Json.setField textField (.str text) []))

namespace GoTexts
variable (g : GoTexts)

/-- A text decoded into a map. The text null makes the map nil. -/
def unmarshalMap (payload : Bytes) : Option (Option Json.Fields) :=
  match g.json.unmarshal payload with
  | some (.obj fields) => some (some fields)
  | some .null => some none
  | _ => none

def fieldsOf (payload : Bytes) : Option Json.Fields := (g.unmarshalMap payload).map (·.getD [])

def extractEndReason (fields : Json.Fields) : UInt8 :=
  match Json.field endReasonField fields with
  | some (.num bits) => g.uint8OfFloat bits
  | some (.str s) => g.parseUint8 s
  | _ => 0

/-- The fields of a stored snapshot over those of an empty text. A stored null, at which the code
panics, is taken for no map. -/
def snapshotFields (snapshotPayload : Bytes) : Json.Fields :=
  let start := Json.setField kindField (.str snapshotKindText) (Json.setField textField (.str []) [])
  match g.json.unmarshal snapshotPayload with
  | some (.obj fields) => fields.foldl (fun acc f => Json.setField f.1 f.2 acc) start
  | _ => start

def texts : Texts where
  trimSpace := g.trimSpace
  toLower := g.toLower
  unmarshal payload :=
    if payload = [] then none
    else (g.fieldsOf payload).map fun fields =>
      { kind := Json.strField kindField fields
        delta := Json.strField deltaField fields
        snapshot := (Json.field snapshotField fields).map g.json.marshal
        endReason := g.extractEndReason fields
        error := Json.strField errorField fields }
  appendText snapshotPayload delta :=
    let fields := g.snapshotFields snapshotPayload
    g.json.marshal (.obj (Json.setField textField (.str (Json.strField textField fields ++ delta))
      (Json.setField kindField (.str snapshotKindText) fields)))

def validateTextContent (content : Bytes) : Except CacheError Unit :=
  if maxTextRunes < g.runeCount content then .error .textTooLong else .ok ()

def validateText (payload : Bytes) : Except CacheError Unit :=
  match g.fieldsOf payload with
  | none => .ok ()
  | some body =>
    match Json.field typeField body, Json.field contentField body with
    | some (.num bits), some (.str content) => if bits = floatOne then g.validateTextContent content else .ok ()
    | _, _ => .ok ()

def validateSnapshotText (snapshot : Json.Fields) : Except CacheError Unit :=
  if Json.strField kindField snapshot = snapshotKindText
    then g.validateTextContent (Json.strField textField snapshot) else .ok ()

def validateEventText (payload : Bytes) : Except CacheError Unit := do
  g.validateText payload
  match g.fieldsOf payload with
  | none => pure ()
  | some body =>
    g.validateSnapshotText body
    match Json.field snapshotField body with
    | some (.obj snapshot) => g.validateSnapshotText snapshot
    | _ => pure ()

variable {g : GoTexts} {payload : Bytes} {e : CacheError}

theorem textContent_error (h : g.validateTextContent payload = .error e) : e = .textTooLong := by
  rw [validateTextContent] at h
  split at h
  · cases h
    rfl
  · cases h

theorem validateText_error (h : g.validateText payload = .error e) : e = .textTooLong := by
  rw [validateText] at h
  split at h
  · cases h
  split at h
  · split at h
    · exact textContent_error h
    · cases h
  · cases h

theorem snapshotText_error {snapshot : Json.Fields} (h : g.validateSnapshotText snapshot = .error e) : e = .textTooLong := by
  rw [validateSnapshotText] at h
  split at h
  · exact textContent_error h
  · cases h

theorem validateEventText_error (h : g.validateEventText payload = .error e) : e = .textTooLong := by
  rcases bind_eq_error.mp h with h | ⟨-, -, h⟩
  · exact validateText_error h
  split at h
  · cases h
  rcases bind_eq_error.mp h with h | ⟨-, -, h⟩
  · exact snapshotText_error h
  · split at h
    · exact snapshotText_error h
    · cases h

def extractCacheTextDelta (payload : Bytes) : Bytes :=
  if payload = [] then []
  else match g.fieldsOf payload with
    | none => []
    | some fields => if Json.strField kindField fields = snapshotKindText then Json.strField deltaField fields else []

/-- The snapshot that a terminal payload is given: the text, else the last payload that was no
text. -/
def cachedSnapshot (text snapshotPayload : Bytes) : Option Json :=
  if text ≠ [] then some (textSnapshot text)
  else if snapshotPayload ≠ [] then some ((g.json.unmarshal snapshotPayload).getD (.str snapshotPayload))
  else none

/-- A payload that is no object is kept as a field. There is no result when the map is nil. -/
def mergeTerminalPayloadWithSnapshot (payload text snapshotPayload : Bytes) : Option Bytes :=
  let body :=
    if payload = [] then some []
    else match g.unmarshalMap payload with
      | none => some (Json.setField rawPayloadField (.str payload) [])
      | some body => body
  match g.cachedSnapshot text snapshotPayload with
  | some snapshot => body.map fun body => g.json.marshal (.obj (Json.setField snapshotField snapshot body))
  | none => some (g.json.marshal (body.elim .null .obj))

/-- White space and letters of ASCII, and a rune for every byte that does not go on with one. -/
def ascii (json : Json.Codec) : GoTexts where
  trimSpace := Texts.ascii.trimSpace
  toLower := Texts.ascii.toLower
  runeCount s := s.countP fun b => b < 128 || 192 ≤ b
  json
  uint8OfFloat _ := 0
  parseUint8 _ := 0

end GoTexts
end WuKongIM.WKCache

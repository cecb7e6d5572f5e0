import WuKongIM.Lib.Bytes

/-! The wire format of events: a word of flags, then the parts that are not zero. The types here
have the widths of the source; the fields that are not encoded are left out. The words themselves
are written and read by package wkproto, of which only what is needed is assumed. -/
namespace WuKongIM
open Lib

/-- The encoders and decoders of wkproto: words of fixed width, a run of bytes of a given length,
and strings and byte strings with their length in front. `holds` says of which strings the length
fits; those are read back. -/
structure WKProto where
  putUint8 : UInt8 → List UInt8
  putUint16 : UInt16 → List UInt8
  putUint32 : UInt32 → List UInt8
  putUint64 : UInt64 → List UInt8
  putString : List UInt8 → List UInt8
  putBinary : List UInt8 → List UInt8
  uint8 : Decoder UInt8
  uint16 : Decoder UInt16
  uint32 : Decoder UInt32
  uint64 : Decoder UInt64
  bytes : Nat → Decoder (List UInt8)
  string : Decoder (List UInt8)
  binary : Decoder (List UInt8)
  holds : List UInt8 → Prop
  length_putUint32 : ∀ x, (putUint32 x).length = 4
  length_putUint64 : ∀ x, (putUint64 x).length = 8
  reads_uint8 : ∀ x, Reads uint8 (putUint8 x) x
  reads_uint16 : ∀ x, Reads uint16 (putUint16 x) x
  reads_uint32 : ∀ x, Reads uint32 (putUint32 x) x
  reads_uint64 : ∀ x, Reads uint64 (putUint64 x) x
  reads_bytes : ∀ s, Reads (bytes s.length) s s
  reads_string : ∀ s, holds s → Reads string (putString s) s
  reads_binary : ∀ s, holds s → Reads binary (putBinary s) s
  yields_bytes : ∀ n, Yields (bytes n) fun s => s.length = n
  string_nil : string.run [] = none

namespace WKProto

private def putPrefixed (s : List UInt8) : List UInt8 := bigEndian 2 s.length ++ s

private def prefixed : Decoder (List UInt8) := readNat 2 >>= takeBytes

private theorem reads_prefixed (s : List UInt8) (h : s.length < 2 ^ 16) : Reads prefixed (putPrefixed s) s :=
  (Reads.readNat 2 h).bind (Reads.takeBytes s)

/-- Words in big-endian order, and lengths of two bytes. -/
def twoByte : WKProto where
  putUint8 x := bigEndian 1 x.toNat
  putUint16 x := bigEndian 2 x.toNat
  putUint32 x := bigEndian 4 x.toNat
  putUint64 x := bigEndian 8 x.toNat
  putString := putPrefixed
  putBinary := putPrefixed
  uint8 := UInt8.ofNat <$> readNat 1
  uint16 := UInt16.ofNat <$> readNat 2
  uint32 := UInt32.ofNat <$> readNat 4
  uint64 := UInt64.ofNat <$> readNat 8
  bytes := takeBytes
  string := prefixed
  binary := prefixed
  holds s := s.length < 2 ^ 16
  length_putUint32 _ := length_bigEndian ..
  length_putUint64 _ := length_bigEndian ..
  reads_uint8 x := by
    have h := (Reads.readNat 1 x.toNat_lt).map UInt8.ofNat
    rwa [UInt8.ofNat_toNat] at h
  reads_uint16 x := by
    have h := (Reads.readNat 2 x.toNat_lt).map UInt16.ofNat
    rwa [UInt16.ofNat_toNat] at h
  reads_uint32 x := by
    have h := (Reads.readNat 4 x.toNat_lt).map UInt32.ofNat
    rwa [UInt32.ofNat_toNat] at h
  reads_uint64 x := by
    have h := (Reads.readNat 8 x.toNat_lt).map UInt64.ofNat
    rwa [UInt64.ofNat_toNat] at h
  reads_bytes := Reads.takeBytes
  reads_string := reads_prefixed
  reads_binary := reads_prefixed
  yields_bytes := Yields.takeBytes
  string_nil := rfl

end WKProto

namespace Raft.Wire

structure Log where
  id : UInt64
  index : UInt64
  term : UInt32
  data : List UInt8
  deriving DecidableEq

structure Config where
  migrateFrom : UInt64 := 0
  migrateTo : UInt64 := 0
  replicas : List UInt64 := []
  learners : List UInt64 := []
  role : UInt8 := 0
  term : UInt32 := 0
  version : UInt64 := 0
  leader : UInt64 := 0
  deriving DecidableEq

structure Event where
  type : UInt16 := 0
  fromNode : UInt64 := 0
  toNode : UInt64 := 0
  term : UInt32 := 0
  index : UInt64 := 0
  committedIndex : UInt64 := 0
  storedIndex : UInt64 := 0
  lastLogTerm : UInt32 := 0
  configVersion : UInt64 := 0
  config : Config := {}
  logs : List Log := []
  reason : UInt8 := 0
  speed : UInt8 := 0
  deriving DecidableEq

def Config.isEmpty (c : Config) : Bool :=
  c.migrateFrom == 0 && c.migrateTo == 0 && c.replicas.isEmpty && c.learners.isEmpty && c.role == 0 && c.term == 0 &&
    c.version == 0

def typeFlag : Nat := 1 <<< 0
def fromFlag : Nat := 1 <<< 1
def toFlag : Nat := 1 <<< 2
def termFlag : Nat := 1 <<< 3
def indexFlag : Nat := 1 <<< 4
def committedIndexFlag : Nat := 1 <<< 5
def storedIndexFlag : Nat := 1 <<< 6
def lastLogTermFlag : Nat := 1 <<< 7
def configVersionFlag : Nat := 1 <<< 8
def configFlag : Nat := 1 <<< 9
def logsFlag : Nat := 1 <<< 10
def reasonFlag : Nat := 1 <<< 11
def speedFlag : Nat := 1 <<< 12

/-- The flags with the tests that set them, in the order of the source. -/
def Event.parts (e : Event) : List (Nat × Bool) :=
  [(typeFlag, e.type != 0), (fromFlag, e.fromNode != 0), (toFlag, e.toNode != 0), (termFlag, e.term != 0),
    (indexFlag, e.index != 0), (committedIndexFlag, e.committedIndex != 0), (storedIndexFlag, e.storedIndex != 0),
    (lastLogTermFlag, e.lastLogTerm != 0), (configVersionFlag, e.configVersion != 0), (configFlag, !e.config.isEmpty),
    (logsFlag, decide (e.logs.length > 0)), (reasonFlag, e.reason != 0), (speedFlag, e.speed != 0)]

def Event.getFlag (e : Event) : Nat := e.parts.foldl (fun flag part => if part.2 then flag ||| part.1 else flag) 0

def has (flag bit : Nat) : Bool := flag &&& bit != 0

def Log.marshal (l : Log) : List UInt8 :=
  bigEndian 8 l.id.toNat ++ bigEndian 8 l.index.toNat ++ bigEndian 4 l.term.toNat ++ l.data

/-- Id, index and term take twenty bytes, and the data is the rest. -/
def Log.unmarshal (data : List UInt8) : Option Log :=
  if data.length < 20 then none
  else
    some
      { id := UInt64.ofNat (ofBigEndian (data.take 8))
        index := UInt64.ofNat (ofBigEndian ((data.drop 8).take 8))
        term := UInt32.ofNat (ofBigEndian ((data.drop 16).take 4))
        data := data.drop 20 }

variable (p : WKProto)

/-- The lengths are cut down to 32 bits. -/
def Config.marshal (c : Config) : List UInt8 :=
  p.putUint64 c.migrateFrom ++ p.putUint64 c.migrateTo ++ p.putUint32 (UInt32.ofNat c.replicas.length) ++
    c.replicas.flatMap p.putUint64 ++ p.putUint32 (UInt32.ofNat c.learners.length) ++ c.learners.flatMap p.putUint64 ++
    p.putUint8 c.role ++ p.putUint32 c.term ++ p.putUint64 c.version ++ p.putUint64 c.leader

def Config.unmarshal : Decoder Config := do
  let migrateFrom ← p.uint64
  let migrateTo ← p.uint64
  let replicasLen ← p.uint32
  let replicas ← many p.uint64 replicasLen.toNat
  let learnersLen ← p.uint32
  let learners ← many p.uint64 learnersLen.toNat
  let role ← p.uint8
  let term ← p.uint32
  let version ← p.uint64
  let leader ← p.uint64
  return { migrateFrom, migrateTo, replicas, learners, role, term, version, leader }

def putLog (l : Log) : List UInt8 := p.putUint32 (UInt32.ofNat l.marshal.length) ++ l.marshal

def readLog : Decoder Log := do
  let dataLen ← p.uint32
  let data ← p.bytes dataLen.toNat
  StateT.lift (Log.unmarshal data)

def Event.marshal (e : Event) : List UInt8 :=
  let flag := e.getFlag
  p.putUint32 (UInt32.ofNat flag) ++ (if has flag typeFlag then p.putUint16 e.type else []) ++
    (if has flag fromFlag then p.putUint64 e.fromNode else []) ++ (if has flag toFlag then p.putUint64 e.toNode else []) ++
    (if has flag termFlag then p.putUint32 e.term else []) ++ (if has flag indexFlag then p.putUint64 e.index else []) ++
    (if has flag committedIndexFlag then p.putUint64 e.committedIndex else []) ++
    (if has flag storedIndexFlag then p.putUint64 e.storedIndex else []) ++
    (if has flag lastLogTermFlag then p.putUint32 e.lastLogTerm else []) ++
    (if has flag configVersionFlag then p.putUint64 e.configVersion else []) ++
    (if has flag configFlag then e.config.marshal p else []) ++
    (if has flag logsFlag then p.putUint32 (UInt32.ofNat e.logs.length) ++ e.logs.flatMap (putLog p) else []) ++
    (if has flag reasonFlag then p.putUint8 e.reason else []) ++ (if has flag speedFlag then p.putUint8 e.speed else [])

def Event.unmarshalParts (flag : Nat) : Decoder Event := do
  let type ← optional (has flag typeFlag) p.uint16 0
  let fromNode ← optional (has flag fromFlag) p.uint64 0
  let toNode ← optional (has flag toFlag) p.uint64 0
  let term ← optional (has flag termFlag) p.uint32 0
  let index ← optional (has flag indexFlag) p.uint64 0
  let committedIndex ← optional (has flag committedIndexFlag) p.uint64 0
  let storedIndex ← optional (has flag storedIndexFlag) p.uint64 0
  let lastLogTerm ← optional (has flag lastLogTermFlag) p.uint32 0
  let configVersion ← optional (has flag configVersionFlag) p.uint64 0
  let config ← optional (has flag configFlag) (Config.unmarshal p) {}
  let logs ← optional (has flag logsFlag) (do let logsLen ← p.uint32; many (readLog p) logsLen.toNat) []
  let reason ← optional (has flag reasonFlag) p.uint8 0
  let speed ← optional (has flag speedFlag) p.uint8 0
  return { type, fromNode, toNode, term, index, committedIndex, storedIndex, lastLogTerm, configVersion, config, logs,
           reason, speed }

/-- `Unmarshal` into an event that is zero. Bytes that follow are not looked at. -/
def Event.unmarshal : Decoder Event := do
  let flag ← p.uint32
  unmarshalParts p flag.toNat

end Raft.Wire
end WuKongIM

import WuKongIM.Raft.CodecRoundTrip
import WuKongIM.WKDB.Message

/-! The commands of a slot's log as bytes. -/
namespace WuKongIM.Cluster
open Lib WKDB Raft.Wire

instance (s : Bytes) : Decidable (WKProto.twoByte.holds s) := inferInstanceAs (Decidable (s.length < 2 ^ 16))

variable (p : WKProto) (t : Option UInt64)

/-- A time is written in nanoseconds, and no time as zero. -/
def putTime : Bytes := p.putUint64 (t.getD 0)

/-- `time.Unix` of the seconds and the nanoseconds has the same nanoseconds again. -/
def time : Decoder (Option UInt64) := (fun nano => if 0 < nano then some nano else none) <$> p.uint64

/-- The time that is read back: zero nanoseconds are taken for no time. -/
def timeKept : Option UInt64 := t.filter (0 < ·)

theorem reads_time : Reads (time p) (putTime p t) (timeKept t) := by
  have h := (p.reads_uint64 (t.getD 0)).map fun nano => if 0 < nano then some nano else none
  cases t with
  | none => exact h
  | some nano =>
    have hkept : timeKept (some nano) = if 0 < nano then some nano else none := by simp [timeKept, Option.filter]
    rw [hkept]
    exact h

theorem timeKept_eq_self {t : Option UInt64} : timeKept t = t ↔ t ≠ some 0 := by
  cases t with
  | none => simp [timeKept]
  | some nano => simp [timeKept, Option.filter]

abbrev CMDType := UInt16
abbrev CmdVersion := UInt16

/-- A `CMD`, whose data are still bytes. -/
structure RawCMD where
  cmdType : CMDType
  data : Bytes
  version : CmdVersion := 0
  deriving DecidableEq

variable (c : RawCMD)

/-- Version zero stands for version one. -/
def RawCMD.marshal : Bytes :=
  p.putUint16 (if c.version = 0 then 1 else c.version) ++ p.putUint16 c.cmdType ++ c.data

def RawCMD.header : Decoder (CmdVersion × CMDType) := do
  let version ← p.uint16
  let cmdType ← p.uint16
  return (version, cmdType)

/-- The data is what is left. -/
def RawCMD.unmarshal (bytes : Bytes) : Option RawCMD :=
  ((RawCMD.header p).run bytes).map fun ((version, cmdType), data) => { cmdType, data, version }

/-- A command after it has been written to the log and read from it. -/
def RawCMD.logged : Option RawCMD := RawCMD.unmarshal p (c.marshal p)

theorem RawCMD.logged_eq : c.logged p = some { c with version := if c.version = 0 then 1 else c.version } := by
  have hversion := p.reads_uint16 (if c.version = 0 then 1 else c.version)
  have hheader : Reads (RawCMD.header p) _ _ := hversion.bind ((p.reads_uint16 c.cmdType).result _)
  rw [RawCMD.logged, RawCMD.unmarshal, RawCMD.marshal, hheader]
  rfl

end WuKongIM.Cluster

import WuKongIM.Lib.Bytes
import WuKongIM.Lib.Ordered

/-! The messages of package wkdb and their columns: what is written under one key per column, and
how a reader puts the columns together again. -/
namespace WuKongIM.WKDB
open Lib List

/-- Go strings and byte slices. -/
abbrev Bytes := List UInt8

/-- The persisted fields. `header` is the byte that the protocol library makes of the frame's type
and flags; an empty frame has byte zero. -/
structure Message where
  header : UInt8 := 0
  setting : UInt8 := 0
  expire : UInt32 := 0
  messageID : Int64 := 0
  messageSeq : UInt32 := 0
  clientMsgNo : Bytes := []
  streamNo : Bytes := []
  timestamp : Int32 := 0
  channelID : Bytes := []
  channelType : UInt8 := 0
  topic : Bytes := []
  fromUID : Bytes := []
  payload : Bytes := []
  term : UInt64 := 0
  searchOutbox : Bool := false
  deriving DecidableEq

def isEmptyMessage (m : Message) : Bool := m.messageID == 0 && m.messageSeq == 0

inductive Column where
  | header | setting | expire | messageId | messageSeq | clientMsgNo | timestamp | channelId | channelType | topic
  | fromUid | payload | term | streamNo | searchOutbox
  deriving DecidableEq

/-- The two bytes of the column in a key, as a number. -/
def Column.code : Column → Nat
  | .header => 0x0101
  | .setting => 0x0102
  | .expire => 0x0103
  | .messageId => 0x0104
  | .messageSeq => 0x0105
  | .clientMsgNo => 0x0106
  | .timestamp => 0x0107
  | .channelId => 0x0108
  | .channelType => 0x0109
  | .topic => 0x010A
  | .fromUid => 0x010B
  | .payload => 0x010C
  | .term => 0x010D
  | .streamNo => 0x010E
  | .searchOutbox => 0x010F

def minColumnKey : Nat := 0x0000

def maxColumnKey : Nat := 0xffff

variable (m : Message)

def Message.columns : List (Column × Bytes) :=
  [(.header, [m.header]),
    (.setting, [m.setting]),
    (.expire, bigEndian 4 m.expire.toNat),
    (.messageId, bigEndian 8 m.messageID.toUInt64.toNat),
    (.messageSeq, bigEndian 8 m.messageSeq.toUInt64.toNat),
    (.clientMsgNo, m.clientMsgNo),
    (.streamNo, m.streamNo),
    (.timestamp, bigEndian 4 m.timestamp.toUInt32.toNat),
    (.channelId, m.channelID),
    (.channelType, [m.channelType]),
    (.topic, m.topic),
    (.fromUid, m.fromUID),
    (.payload, m.payload),
    (.term, bigEndian 8 m.term.toNat)] ++
  if m.searchOutbox then [(.searchOutbox, [1])] else []

/-- The errors of the message tables. The errors with a text carry the numbers that it names. -/
inductive DBError where
  | notFound
  | panic
  /-- message has invalid search outbox column -/
  | searchOutboxColumn
  /-- start messageSeq must be greater than 0 -/
  | startMessageSeq (seq : UInt64)
  /-- end messageSeq must be less than start messageSeq -/
  | endMessageSeq (start stop : UInt64)
  /-- messageSeq must be greater than 0 -/
  | truncateMessageSeq (seq : UInt64)
  /-- append message channel identity differs from target -/
  | channelIdentity (channelID : Bytes) (channelType : UInt8) (targetID : Bytes) (targetType : UInt8)
  deriving DecidableEq

/-- The first byte of a value; a value without one panics. -/
def firstByte : Bytes → Except DBError UInt8
  | [] => .error .panic
  | byte :: _ => .ok byte

/-- The number in the first bytes of a value; a shorter value panics. -/
def leading (width : Nat) (value : Bytes) : Except DBError Nat :=
  if value.length < width then .error .panic else .ok (ofBigEndian (value.take width))

/-- One column read into the message that is being put together. The number of the message is taken
from the key, and its column is passed over. -/
def Message.readColumn : Column × Bytes → Except DBError Message
  | (.header, value) => return { m with header := ← firstByte value }
  | (.setting, value) => return { m with setting := ← firstByte value }
  | (.expire, value) => return { m with expire := UInt32.ofNat (← leading 4 value) }
  | (.messageId, value) => return { m with messageID := (UInt64.ofNat (← leading 8 value)).toInt64 }
  | (.messageSeq, _) => return m
  | (.clientMsgNo, value) => return { m with clientMsgNo := value }
  | (.streamNo, value) => return { m with streamNo := value }
  | (.timestamp, value) => return { m with timestamp := (UInt32.ofNat (← leading 4 value)).toInt32 }
  | (.channelId, value) => return { m with channelID := value }
  | (.channelType, value) => return { m with channelType := ← firstByte value }
  | (.topic, value) => return { m with topic := value }
  | (.fromUid, value) => return { m with fromUID := value }
  | (.payload, value) => return { m with payload := value }
  | (.term, value) => return { m with term := UInt64.ofNat (← leading 8 value) }
  | (.searchOutbox, value) => if value = [1] then return { m with searchOutbox := true } else .error .searchOutboxColumn

/-- A key of the message table and its value. The bytes of the keys compare as the numbers do that
they write: the channel's number, then the message's, then the column. -/
structure Row where
  num : UInt64
  seq : UInt64
  column : Column × Bytes
  deriving DecidableEq

/-- The bound that stands before every column of a message and after everything below. -/
def primaryKey (num seq : UInt64) : Nat := (num.toNat * 2 ^ 64 + seq.toNat) * 2 ^ 16

def Row.key (r : Row) : Nat := primaryKey r.num r.seq + r.column.1.code

def Message.rows (num : UInt64) (m : Message) : List Row := m.columns.map (Row.mk num m.messageSeq.toUInt64)

/-- The same keys in the order of the table. -/
def Message.ordered : List (Column × Bytes) := putAll (fun c => c.1.code) m.columns []

theorem Column.code_lt (c : Column) : c.code < 2 ^ 16 := by cases c <;> decide

def Message.ofSeq (seq : UInt64) : Message := { messageSeq := seq.toUInt32 }

theorem leading_bigEndian (width value : Nat) :
    leading width (bigEndian width value) = .ok (ofBigEndian (bigEndian width value)) := by
  rw [leading, length_bigEndian, if_neg (lt_irrefl width), take_of_length_le (le_of_eq (length_bigEndian ..))]

theorem Message.ordered_eq : m.ordered = [(.header, [m.header]), (.setting, [m.setting]),
    (.expire, bigEndian 4 m.expire.toNat),
      (.messageId, bigEndian 8 m.messageID.toUInt64.toNat), (.messageSeq, bigEndian 8 m.messageSeq.toUInt64.toNat),
      (.clientMsgNo, m.clientMsgNo), (.timestamp, bigEndian 4 m.timestamp.toUInt32.toNat), (.channelId, m.channelID),
      (.channelType, [m.channelType]), (.topic, m.topic), (.fromUid, m.fromUID), (.payload, m.payload),
      (.term, bigEndian 8 m.term.toNat), (.streamNo, m.streamNo)] ++ if m.searchOutbox
        then [(.searchOutbox, [1])] else [] := by
  cases h : m.searchOutbox <;> simp [Message.ordered, Message.columns, h, putAll, put, Column.code]

/-- One persisted field of `m` taken over into `acc`. -/
def Message.copy (m acc : Message) : Column → Message
  | .header => { acc with header := m.header }
  | .setting => { acc with setting := m.setting }
  | .expire => { acc with expire := m.expire }
  | .messageId => { acc with messageID := m.messageID }
  | .messageSeq => acc
  | .clientMsgNo => { acc with clientMsgNo := m.clientMsgNo }
  | .timestamp => { acc with timestamp := m.timestamp }
  | .channelId => { acc with channelID := m.channelID }
  | .channelType => { acc with channelType := m.channelType }
  | .topic => { acc with topic := m.topic }
  | .fromUid => { acc with fromUID := m.fromUID }
  | .payload => { acc with payload := m.payload }
  | .term => { acc with term := m.term }
  | .streamNo => { acc with streamNo := m.streamNo }
  | .searchOutbox => { acc with searchOutbox := true }

theorem Message.readColumn_eq (m acc : Message) {c : Column × Bytes} (h : c ∈ m.ordered) :
    acc.readColumn c = .ok (m.copy acc c.1) := by
  have h4 (x : UInt32) : leading 4 (bigEndian 4 x.toNat) = .ok (ofBigEndian (bigEndian 4 x.toNat)) :=
    leading_bigEndian 4 x.toNat
  have h8 (x : UInt64) : leading 8 (bigEndian 8 x.toNat) = .ok (ofBigEndian (bigEndian 8 x.toNat)) :=
    leading_bigEndian 8 x.toNat
  rw [Message.ordered_eq, mem_append] at h
  rcases h with h | h
  · simp only [mem_cons, not_mem_nil, or_false] at h
    rcases h with rfl | rfl | rfl | rfl | rfl | rfl | rfl | rfl | rfl | rfl | rfl | rfl | rfl | rfl <;>
    simp only [readColumn, firstByte, h4, h8, ofBigEndian_uint32, ofBigEndian_uint64,
      Int64.toInt64_toUInt64, Int32.toInt32_toUInt32, bind, Except.bind, pure, Except.pure, copy]
  · split at h
    · rw [mem_singleton.mp h]
      rfl
    · exact absurd h not_mem_nil

theorem Message.readColumns_eq (m acc : Message) {cs : List (Column × Bytes)} (h : ∀ c ∈ cs, c ∈ m.ordered) :
    cs.foldlM Message.readColumn acc = .ok (cs.foldl (fun acc c => m.copy acc c.1) acc) := by
  induction cs generalizing acc with
  | nil => rfl
  | cons c cs ih =>
    rw [foldlM_cons, m.readColumn_eq acc (h c mem_cons_self)]
    exact ih _ fun d hd => h d (mem_cons_of_mem c hd)

theorem Message.readColumns (header : UInt8) :
    m.ordered.tail.foldlM Message.readColumn { Message.ofSeq m.messageSeq.toUInt64 with header := header } =
      .ok { m with header := header } := by
  rw [m.readColumns_eq _ fun c hc => mem_of_mem_tail hc, Message.ordered_eq]
  obtain ⟨_, setting, expire, id, seq, no, stream, time, channel, type, topic, uid, payload, term, outbox⟩ := m
  have hseq : (Message.ofSeq seq.toUInt64).messageSeq = seq := UInt32.toUInt32_toUInt64 seq
  cases outbox <;>
  · simp only [hseq]
    rfl

end WuKongIM.WKDB

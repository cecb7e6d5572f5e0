import Mathlib.Data.List.AList

/-! The data that raft nodes, their drivers and their storages exchange.
Indexes, terms and node ids are natural numbers; the reserved ids keep their 64-bit values. -/
namespace WuKongIM.Raft

inductive Reason where
  | unknown | ok | error | truncate | onlySync
  deriving DecidableEq, Repr

inductive EventType where
  | unknown | campaign | ping | confChange | propose | sendPropose | sendProposeResp
  | notifySync | syncReq | getLogsReq | getLogsResp | syncResp | truncateReq | truncateResp
  | voteReq | voteResp | storeReq | storeResp | applyReq | applyResp
  | learnerToLeaderReq | learnerToLeaderResp | learnerToFollowerReq | learnerToFollowerResp
  | followerToLeaderReq | followerToLeaderResp | configReq | configResp | destory | termResp
  deriving DecidableEq, Repr

inductive Speed where
  | fast | suspend
  deriving DecidableEq, Repr

inductive Role where
  | unknown | follower | candidate | leader | learner
  deriving DecidableEq, Repr

def maxUint64 : Nat := 18446744073709551615

def maxUint32 : Nat := 4294967295

/-- Addition of one on an unsigned 32-bit word, as the terms are. -/
def succ32 (x : Nat) : Nat := if x = maxUint32 then 0 else x + 1

theorem succ32_of_lt {x : Nat} (h : x < maxUint32) : succ32 x = x + 1 := if_neg (Nat.ne_of_lt h)

def noneId : Nat := 0

def allId : Nat := 18446744073709551614

def localNode : Nat := 18446744073709551615

/-- Subtraction of one on an unsigned 64-bit word: zero wraps around. -/
def pred64 (x : Nat) : Nat := if x = 0 then maxUint64 else x - 1

/-- The sum of two such words. -/
def add64 (x y : Nat) : Nat := (x + y) % (maxUint64 + 1)

theorem add64_of_le {x y : Nat} (h : x + y ≤ maxUint64) : add64 x y = x + y := Nat.mod_eq_of_lt (Nat.lt_succ_of_le h)

structure Log where
  id : Nat
  index : Nat
  term : Nat
  data : List UInt8
  deriving DecidableEq, Repr

/-- The encoded size: id, index and term take twenty bytes. -/
def Log.logSize (l : Log) : Nat := 8 + 8 + 4 + l.data.length

structure Config where
  migrateFrom : Nat := 0
  migrateTo : Nat := 0
  replicas : List Nat := []
  learners : List Nat := []
  role : Role := .unknown
  term : Nat := 0
  version : Nat := 0
  leader : Nat := 0
  deriving DecidableEq, Repr

structure TermStartIndexInfo where
  term : Nat := 0
  index : Nat := 0
  deriving DecidableEq, Repr

/-- One event. An omitted field has the zero value of the source. -/
structure Event where
  type : EventType
  fromNode : Nat := 0
  toNode : Nat := 0
  term : Nat := 0
  index : Nat := 0
  committedIndex : Nat := 0
  storedIndex : Nat := 0
  lastLogTerm : Nat := 0
  configVersion : Nat := 0
  config : Config := {}
  logs : List Log := []
  reason : Reason := .unknown
  speed : Speed := .fast
  termStartIndexInfo : Option TermStartIndexInfo := none
  startIndex : Nat := 0
  endIndex : Nat := 0
  deriving DecidableEq, Repr

structure RaftState where
  lastLogIndex : Nat
  lastTerm : Nat
  appliedIndex : Nat
  deriving DecidableEq, Repr

/-- What `Step` and `queue.append` can answer besides success. The append errors
carry the numbers of their messages. -/
inductive RaftError where
  | notLeader
  | proposalDropped
  | sequenceBroken (position expected got : Nat)
  | logGap (queueEnds incomingStarts : Nat)
  | unexpectedAppend (queueLast incomingFirst incomingLast count : Nat)
  deriving DecidableEq, Repr

end WuKongIM.Raft

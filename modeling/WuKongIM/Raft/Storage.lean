import WuKongIM.Lib.Ordered
import WuKongIM.Raft.Types

/-! The Pebble storages behind a node: the logs by index, the start of each term, and the applied
index. `none` is an error. -/
namespace WuKongIM.Raft
open Lib

inductive StorageKind where
  | slot | clusterConfig
  deriving DecidableEq

structure LogStorage where
  logs : List Log := []
  termStarts : List TermStartIndexInfo := []
  appliedIndex : Nat := 0
  deriving DecidableEq

namespace LogStorage

variable (d : LogStorage)

def lastIndex : Nat := (d.logs.getLast?.map Log.index).getD 0

def lastTerm : Nat := (d.logs.getLast?.map Log.term).getD 0

def setLeaderTermStartIndex (info : TermStartIndexInfo) : LogStorage :=
  { d with termStarts := put TermStartIndexInfo.term info d.termStarts }

/-- The logs of `AppendLogs`; the start of a term is written on its own before them. -/
def appendLogs (logs : List Log) : LogStorage := { d with logs := putAll Log.index logs d.logs }

/-- The range that is deleted starts at the next index, which wraps around. -/
def deleteAfter (index : Nat) : LogStorage := { d with logs := d.logs.filter (·.index < add64 index 1) }

/-- An index below the applied one is accepted, and nothing is deleted. -/
def truncateLogTo (kind : StorageKind) (d : LogStorage) (index : Nat) : Option LogStorage :=
  if index = 0 then none
  else
    match kind with
    | .slot =>
      if index ≥ d.lastIndex then some d
      else if index < d.appliedIndex then some d
      else some (d.deleteAfter index)
    | .clusterConfig => if index < d.appliedIndex then some d else some (d.deleteAfter index)

def sizeLimited (limitSize : Nat) : Nat → List Log → List Log
  | _, [] => []
  | size, log :: logs =>
    let size := size + log.logSize
    if limitSize ≠ 0 ∧ size ≥ limitSize then [log] else log :: sizeLimited limitSize size logs

/-- The logs from `start` on and before `stop`; zero lifts the bound, and so does a zero limit. -/
def getLogs (start stop limitSize : Nat) : List Log :=
  sizeLimited limitSize 0 (d.logs.filter fun log => start ≤ log.index ∧ (stop = 0 ∨ log.index < stop))

/-- The state machine takes the logs, and the applied index follows. -/
def apply (logs : List Log) : LogStorage :=
  { d with appliedIndex := (logs.getLast?.map Log.index).getD 0 }

variable (term : Nat)

/-- What an iterator from a term on finds: it stops before the largest one. -/
def termStartsFrom : List TermStartIndexInfo := d.termStarts.filter fun info => term ≤ info.term ∧ info.term < maxUint32

def leaderLastTerm : Nat :=
  (d.termStartsFrom 0).foldl (fun maxTerm info => if info.term > maxTerm then info.term else maxTerm) 0

def getTermStartIndex : Nat :=
  ((d.termStarts.find? (·.term = term)).map TermStartIndexInfo.index).getD 0

/-- The first recorded term from `term` on, or `term` itself. -/
def leaderTermGreaterEqThan : Nat :=
  (((d.termStartsFrom term).find? (·.term ≥ term)).map TermStartIndexInfo.term).getD term

def deleteLeaderTermStartIndexGreaterThanTerm : LogStorage :=
  { d with termStarts := d.termStarts.filter (· ∉ d.termStartsFrom (succ32 term)) }

/-- What a node starts from. The slot storage lowers an applied index beyond the logs. -/
def getState (kind : StorageKind) (d : LogStorage) : LogStorage × RaftState :=
  match kind with
  | .slot =>
    let d := if d.appliedIndex > d.lastIndex then { d with appliedIndex := d.lastIndex } else d
    (d, ⟨d.lastIndex, d.lastTerm, d.appliedIndex⟩)
  | .clusterConfig => (d, ⟨d.lastIndex, d.lastTerm, d.appliedIndex⟩)

end LogStorage
end WuKongIM.Raft

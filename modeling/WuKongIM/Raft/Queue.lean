import WuKongIM.Raft.Types

/-! The log queue of a node: the logs it holds and has not yet seen stored, with the
indexes up to which its log is stored, committed and applied. `none` is a panic. -/
namespace WuKongIM.Raft

structure Queue where
  logs : List Log := []
  storedIndex : Nat
  lastLogIndex : Nat
  committedIndex : Nat
  appending : Bool := false
  applying : Bool := false
  appliedIndex : Nat
  deriving DecidableEq, Repr

def newQueue (appliedLogIndex lastLogIndex : Nat) : Queue where
  storedIndex := lastLogIndex
  lastLogIndex := lastLogIndex
  committedIndex := appliedLogIndex
  appliedIndex := appliedLogIndex

namespace Queue

/-- The first place where the incoming indexes do not continue, as the loop finds it. -/
def sequenceBreak : Nat → Log → List Log → Option RaftError
  | _, _, [] => none
  | position, previous, current :: rest =>
    if current.index ≠ add64 previous.index 1 then
      some (.sequenceBroken position (add64 previous.index 1) current.index)
    else sequenceBreak (position + 1) current rest

/-- Drop the logs after `logIndex`. Below the stored index only the indexes move:
the logs kept in memory stay, as they do in the source. -/
def truncateLogTo (q : Queue) (logIndex : Nat) : Option Queue :=
  if logIndex > q.lastLogIndex then none
  else if logIndex < q.storedIndex then
    some { q with storedIndex := logIndex, lastLogIndex := logIndex }
  else if logIndex - q.storedIndex > q.logs.length then none
  else some { q with logs := q.logs.take (logIndex - q.storedIndex), lastLogIndex := logIndex }

def extend (q : Queue) (incoming : List Log) (incomingLastIndex : Nat) : Queue :=
  { q with logs := q.logs ++ incoming, lastLogIndex := incomingLastIndex }

def append (q : Queue) (incomingLogs : List Log) : Option (Queue × Option RaftError) :=
  match incomingLogs with
  | [] => some (q, none)
  | first :: rest =>
    match sequenceBreak 1 first rest with
    | some err => some (q, some err)
    | none =>
      let incomingLastIndex := (rest.getLast?.getD first).index
      let expectedPrevIndex := pred64 first.index
      if expectedPrevIndex = q.lastLogIndex then
        some (q.extend (first :: rest) incomingLastIndex, none)
      else if first.index ≤ q.lastLogIndex then
        if incomingLastIndex ≤ q.lastLogIndex then some (q, none)
        else
          -- the source calls itself here; the queue now ends right before the batch
          (q.truncateLogTo expectedPrevIndex).map fun q =>
            (q.extend (first :: rest) incomingLastIndex, none)
      else if first.index > q.lastLogIndex + 1 then
        some (q, some (.logGap q.lastLogIndex first.index))
      else
        some (q, some (.unexpectedAppend q.lastLogIndex first.index incomingLastIndex (rest.length + 1)))

def hasNextStoreLogs (q : Queue) : Bool :=
  if q.appending then false else q.storedIndex < q.lastLogIndex

/-- The logs to store next; `Ready` is the only caller and sets no size limit. -/
def nextStoreLogs (q : Queue) : Option (Queue × List Log) :=
  if q.logs.length = 0 then some (q, [])
  else if q.lastLogIndex - q.storedIndex > q.logs.length then none
  else some ({ q with appending := true }, q.logs.take (q.lastLogIndex - q.storedIndex))

def hasNextApplyLogs (q : Queue) : Bool :=
  if q.applying then false else q.appliedIndex < q.committedIndex

def nextApplyLogs (q : Queue) : Queue × Nat × Nat :=
  if q.applying then (q, 0, 0)
  else
    let q := { q with applying := true }
    if q.appliedIndex > q.committedIndex then (q, 0, 0)
    else (q, q.appliedIndex + 1, q.committedIndex + 1)

def storeTo (q : Queue) (logIndex : Nat) : Option Queue :=
  let q := { q with appending := false }
  if logIndex ≤ q.storedIndex then some q
  else if logIndex > q.lastLogIndex then none
  else if logIndex - q.storedIndex > q.logs.length then none
  else some { q with logs := q.logs.drop (logIndex - q.storedIndex), storedIndex := logIndex }

def appliedTo (q : Queue) (index : Nat) : Queue :=
  let q := { q with applying := false }
  if index < q.appliedIndex then q else { q with appliedIndex := index }

/-- What is committed and applied is the same, and so is whether an application is under way. -/
structure SameApplied (q q' : Queue) : Prop where
  committedIndex : q'.committedIndex = q.committedIndex
  appliedIndex : q'.appliedIndex = q.appliedIndex
  applying : q'.applying = q.applying

variable {q q' : Queue} {i : Nat}

theorem truncate_eq_some (h : q.truncateLogTo i = some q') : i ≤ q.lastLogIndex ∧
    (i < q.storedIndex ∧ q' = { q with storedIndex := i, lastLogIndex := i } ∨ q.storedIndex ≤ i ∧
      q' = { q with logs := q.logs.take (i - q.storedIndex), lastLogIndex := i }) := by
  unfold truncateLogTo at h
  split at h
  · cases h
  rename_i hi
  refine ⟨Nat.le_of_not_lt hi, ?_⟩
  split at h
  · rename_i hlt
    cases h
    exact .inl ⟨hlt, rfl⟩
  rename_i hge
  split at h
  · cases h
  · cases h
    exact .inr ⟨Nat.le_of_not_lt hge, rfl⟩

theorem storeTo_eq_some (h : q.storeTo i = some q') : i ≤ q.storedIndex ∧ q' = { q with appending := false } ∨
      q.storedIndex < i ∧ i ≤ q.lastLogIndex ∧ i - q.storedIndex ≤ q.logs.length ∧
        q' = { q with appending := false, logs := q.logs.drop (i - q.storedIndex), storedIndex := i } := by
  unfold storeTo at h
  by_cases hle : i ≤ q.storedIndex
  · rw [if_pos hle] at h
    cases h
    exact .inl ⟨hle, rfl⟩
  rw [if_neg hle] at h
  by_cases hlast : i > q.lastLogIndex
  · rw [if_pos hlast] at h
    cases h
  rw [if_neg hlast] at h
  split at h
  · cases h
  rename_i hlen
  cases h
  exact .inr ⟨Nat.lt_of_not_le hle, Nat.le_of_not_lt hlast, Nat.le_of_not_lt hlen, rfl⟩

theorem appliedTo_eq (q : Queue) (i : Nat) :
    q.appliedTo i = { q with applying := false, appliedIndex := max q.appliedIndex i } := by
  unfold appliedTo
  dsimp only
  split
  · rename_i hlt
    rw [Nat.max_eq_left (le_of_lt hlt)]
  · rename_i hge
    rw [Nat.max_eq_right (Nat.le_of_not_lt hge)]

theorem nextStoreLogs_eq_some {logs : List Log} (h : q.nextStoreLogs = some (q', logs)) : q.logs = [] ∧ q' = q ∧ logs = [] ∨
      q.logs ≠ [] ∧ q.lastLogIndex - q.storedIndex ≤ q.logs.length ∧ q' = { q with appending := true } ∧
        logs = q.logs.take (q.lastLogIndex - q.storedIndex) := by
  unfold nextStoreLogs at h
  split at h
  · rename_i hlen
    cases h
    exact .inl ⟨List.length_eq_zero_iff.mp hlen, rfl, rfl⟩
  rename_i hlen
  split at h
  · cases h
  rename_i hle
  cases h
  exact .inr ⟨fun hx => hlen (List.length_eq_zero_iff.mpr hx), Nat.le_of_not_lt hle, rfl, rfl⟩

theorem nextApplyLogs_of_due (h : q.hasNextApplyLogs) : q.applying = false ∧
    q.nextApplyLogs = ({ q with applying := true }, q.appliedIndex + 1, q.committedIndex + 1) := by
  unfold hasNextApplyLogs at h
  split at h
  · cases h
  rename_i hno
  have hlt := of_decide_eq_true h
  unfold nextApplyLogs
  rw [if_neg hno]
  rw [if_neg (Nat.not_lt.mpr (le_of_lt hlt))]
  exact ⟨Bool.not_eq_true _ ▸ hno, rfl⟩

theorem truncate_sameApplied (h : q.truncateLogTo i = some q') : q.SameApplied q' := by
  obtain ⟨-, ⟨-, rfl⟩ | ⟨-, rfl⟩⟩ := truncate_eq_some h
  all_goals exact ⟨rfl, rfl, rfl⟩

theorem storeTo_sameApplied (h : q.storeTo i = some q') : q.SameApplied q' := by
  obtain ⟨-, rfl⟩ | ⟨-, -, -, rfl⟩ := storeTo_eq_some h
  all_goals exact ⟨rfl, rfl, rfl⟩

end Queue
end WuKongIM.Raft

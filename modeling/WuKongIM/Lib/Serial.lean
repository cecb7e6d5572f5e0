import Mathlib.Data.List.Basic

/-! Tasks that are done one after the other, in the order in which they come, each as often as it
takes. -/
namespace WuKongIM.Lib
open List
variable {α : Type}

inductive TaskEvent (α : Type)
  | accepted (a : α)
  | started (a : α)
  | ended (a : α) (succeeded : Bool)
  deriving DecidableEq

/-- The events that may come one after the other, with the tasks that wait and whether the first of
them is being done. A task stays the first until it succeeds. -/
inductive Serial : List (TaskEvent α) → List α → Bool → Prop
  | nil : Serial [] [] false
  | accept {log : List (TaskEvent α)} {waiting : List α} {running : Bool} (h : Serial log waiting running) (a : α) :
      Serial (log ++ [.accepted a]) (waiting ++ [a]) running
  | start {log : List (TaskEvent α)} {a : α} {waiting : List α} (h : Serial log (a :: waiting) false) :
      Serial (log ++ [.started a]) (a :: waiting) true
  | fail {log : List (TaskEvent α)} {a : α} {waiting : List α} (h : Serial log (a :: waiting) true) :
      Serial (log ++ [.ended a false]) (a :: waiting) false
  | succeed {log : List (TaskEvent α)} {a : α} {waiting : List α} (h : Serial log (a :: waiting) true) :
      Serial (log ++ [.ended a true]) waiting false

def TaskEvent.acceptedTask : TaskEvent α → Option α
  | .accepted a => some a
  | _ => none

def TaskEvent.succeededTask : TaskEvent α → Option α
  | .ended a true => some a
  | _ => none

/-- No task is lost: those that have not succeeded wait, in the order in which they came. -/
theorem Serial.accepted_eq {log : List (TaskEvent α)} {waiting : List α} {running : Bool} (h : Serial log waiting running) :
    log.filterMap TaskEvent.acceptedTask = log.filterMap TaskEvent.succeededTask ++ waiting := by
  induction h with
  | nil => rfl
  | accept _ a ih | start _ ih | fail _ ih | succeed _ ih =>
    rw [filterMap_append, ih]
    simp [filterMap_cons, TaskEvent.acceptedTask, TaskEvent.succeededTask]

end WuKongIM.Lib

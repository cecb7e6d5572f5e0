import WuKongIM.Raft.Changes

/-! The log of a node as its storage sees it: what waits in memory, what is stored, which requests
are under way. -/
namespace WuKongIM.Raft
open List Option

structure LogView where
  logs : List Log
  storedIndex : Nat
  lastLogIndex : Nat
  appending : Bool
  truncating : Bool
  lastTermStartIndex : TermStartIndexInfo
  /-- Requests to change the storage that the driver has not taken over yet. -/
  orders : List Event

def isOrder : EventType → Bool
  | .storeReq | .truncateReq => true
  | _ => false

def Node.logView (n : Node) : LogView where
  logs := n.queue.logs
  storedIndex := n.queue.storedIndex
  lastLogIndex := n.queue.lastLogIndex
  appending := n.queue.appending
  truncating := n.truncating
  lastTermStartIndex := n.lastTermStartIndex
  orders := n.events.filter fun e => isOrder e.type

def LogView.withQueue (v : LogView) (q : Queue) : LogView :=
  { v with logs := q.logs, storedIndex := q.storedIndex, lastLogIndex := q.lastLogIndex }

def LogView.truncateReq (v : LogView) (index : Nat) : Event :=
  { type := .truncateReq, toNode := localNode, lastLogTerm := v.lastTermStartIndex.term, index := index }

theorem Chatter.not_isOrder {c : NodeCore} {e : Event} (h : Chatter c e) : isOrder e.type = false := by
  cases h <;> rfl

theorem Quiet.logView {n m : Node} (h : Quiet n m) : m.logView = n.logView := by
  obtain ⟨new, he, hn⟩ := h.sent
  have hnew : new.filter (fun e => isOrder e.type) = [] := by
    rw [filter_eq_nil_iff]
    intro e hm
    rw [(hn e hm).not_isOrder]
    exact Bool.false_ne_true
  rw [Node.logView, Node.logView, h.core, he, filter_append, hnew, append_nil]

theorem Queue.storeTo_last {q q' : Queue} {i : Nat} (h : q.storeTo i = some q') :
    q'.lastLogIndex = q.lastLogIndex ∧ q'.appending = false := by
  obtain ⟨-, rfl⟩ | ⟨-, -, -, rfl⟩ := storeTo_eq_some h
  all_goals exact ⟨rfl, rfl⟩

/-- What an event of the node's own term can do to the log. -/
inductive LogMove (n : Node) (e : Event) : LogView → Prop
  | same (hs : e.type = .storeResp → n.stores = false) (ht : e.type = .truncateResp → n.synchronises = false) :
      LogMove n e n.logView
  | append (q : Queue) (err : Option RaftError) (ha : n.appends e = true) (h : n.queue.append e.logs = some (q, err)) :
      LogMove n e (n.logView.withQueue q)
  | order (hs : n.synchronises = true) (he : e.type = .syncResp ∧ e.reason = .truncate) (ht : n.truncating = false) :
      LogMove n e { n.logView with truncating := true, orders := n.logView.orders ++ [n.logView.truncateReq e.index] }
  | cut (q : Queue) (hs : n.synchronises = true) (he : e.type = .truncateResp ∧ e.reason = .ok)
      (hi : e.index < n.queue.lastLogIndex) (h : n.queue.truncateLogTo e.index = some q) :
      LogMove n e ({ n.logView with truncating := false }.withQueue q)
  | uncut (hs : n.synchronises = true) (he : e.type = .truncateResp)
      (hi : e.reason = .ok → n.queue.lastLogIndex ≤ e.index) :
      LogMove n e { n.logView with truncating := false }
  | stored (q : Queue) (hs : n.stores = true) (he : e.type = .storeResp ∧ e.reason = .ok)
      (hi : e.index ≤ n.queue.lastLogIndex) (h : n.queue.storeTo e.index = some q) :
      LogMove n e ({ n.logView with appending := false }.withQueue q)
  | unstored (hs : n.stores = true) (he : e.type = .storeResp ∧ e.reason ≠ .ok) :
      LogMove n e { n.logView with appending := false }

namespace Node
variable {n m : Node} {e : Event} {err : Option RaftError} {P : Event → Prop} {T : Prop}

theorem logView_emit (n : Node) (e : Event) (he : isOrder e.type = false) : (n.emit e).logView = n.logView := by
  rw [emit, logView, logView]
  simp [he]

theorem orders_emit (n : Node) (e : Event) (he : isOrder e.type) : (n.emit e).logView.orders = n.logView.orders ++ [e] := by
  rw [emit, logView, logView]
  simp [he]

theorem logView_roleMove (h : RoleMove T n m) : m.logView = n.logView := by
  cases h with
  | calm h =>
    cases h with
    | note h => exact h.quiet.logView
    | fetch r info q hl hq => exact logView_emit _ q (by rw [hq.1]; rfl)
    | commit => rfl
  | become he hq hs ht => rw [logView, logView, he, hq, hs, ht]
  | vote new he hnew _ _ hq hs ht =>
    have hnone : new.filter (fun e => isOrder e.type) = [] := by
      rw [filter_eq_nil_iff]
      intro e hm
      rcases hnew e hm with hx | hx <;> rw [hx] <;> exact Bool.false_ne_true
    rw [logView, logView, he, hq, hs, ht, filter_append, hnone, append_nil]

theorem logView_role (h : RoleMoves T n m) : m.logView = n.logView := by
  induction h with
  | refl => rfl
  | tail _ h ih => exact (logView_roleMove h).trans ih

theorem logView_calms (h : Calms P n m) : m.logView = n.logView :=
  logView_role (T := True) h.role

theorem logView_notes (h : Notes P n m) : m.logView = n.logView := logView_calms h.calms

theorem logMove_of_type {type : EventType} (he : e.type = type) (hs : type ≠ .storeResp)
    (ht : type ≠ .truncateResp) (hv : m.logView = n.logView) : LogMove n e m.logView :=
  hv ▸ .same (fun hx => absurd (he.symm.trans hx) hs) fun hx => absurd (he.symm.trans hx) ht

theorem logMove_of_op (h : LogOp n e m) : LogMove n e m.logView := by
  cases h with
  | same hs ht => exact .same hs ht
  | append q err ha h =>
    have hv : { n with queue := q }.logView = n.logView.withQueue q := by
      rw [logView]
      simp only [Queue.append_appending h]
      rfl
    exact hv ▸ .append q err ha h
  | order hs he ht =>
    rw [sendTruncateReq, emit, logView]
    simp only [filter_append]
    exact .order hs he ht
  | cut q hs he hi h =>
    have hv : { n with truncating := false, queue := q }.logView = { n.logView with truncating := false }.withQueue q := by
      rw [logView]
      simp only [Queue.truncate_appending h]
      rfl
    exact hv ▸ .cut q hs he hi h
  | uncut hs he hi => exact .uncut hs he hi
  | stored q hs he hi h =>
    have hv : { n with queue := q }.logView = { n.logView with appending := false }.withQueue q := by
      rw [logView]
      simp only [(Queue.storeTo_last h).2]
      rfl
    exact hv ▸ .stored q hs he hi h
  | unstored hs he => exact .unstored hs he

end Node
end WuKongIM.Raft

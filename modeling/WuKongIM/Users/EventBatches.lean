import WuKongIM.Lib.Footprint
import WuKongIM.Users.ConnRecovery

/-! The connection events of a user in batches. A batch is grouped by the types of its events, and
the groups are handled in any order. -/
namespace WuKongIM.Users
open Lib List Function

/-- What a handler does with an event: it leaves its loop, passes the event over, or changes the
directory. -/
inductive Effect
  | returns
  | passes
  | acts
  deriving DecidableEq

/-- An event on the leader of the user. Its effect does not depend on the directory: it comes of the
packet, of what is stored, and of the connection itself. -/
structure ConnEvent where
  type : UserEventType
  conn : Conn
  effect : Effect := .acts

def ConnEvent.change (e : ConnEvent) (c : Conns) : Conns :=
  match e.type with
  | .connect | .connack => c.addOrUpdateConn e.conn
  | .connClose | .connRemove | .connLeaderRemove => c.remove e.conn
  | .onSend | .connWriteFrame | .userLeaderTask => c

/-- The loop of a handler over the events of its type. -/
def onEvent (c : Conns) : List ConnEvent → Conns
  | [] => c
  | e :: rest =>
    match e.effect with
    | .returns => c
    | .passes => onEvent c rest
    | .acts => onEvent (e.change c) rest

/-- The types of the events are walked through in some order. -/
structure EventBatch where
  events : List ConnEvent
  order : List UserEventType
  nodup : order.Nodup
  complete : ∀ e ∈ events, e.type ∈ order

def EventBatch.advance (c : Conns) (b : EventBatch) : Conns :=
  b.order.foldl (fun c type => onEvent c (b.events.filter (·.type = type))) c

/-- Each event in a batch of its own. -/
def inTurn (c : Conns) (events : List ConnEvent) : Conns := events.foldl (fun c e => onEvent c [e]) c

/-- No event that makes its handler return has another one of its type behind it, and events of
different types are about different connections. -/
def Separate (events : List ConnEvent) : Prop :=
  events.Pairwise fun e d => (e.type = d.type → e.effect ≠ .returns) ∧ (e.type ≠ d.type → e.conn.key ≠ d.conn.key)

/-- The connections of one number, in their order. -/
def Conns.under (c : Conns) (key : Nat × Int) : List Conn := c.conns.filter fun conn => conn.key = key

theorem filter_replace (conn : Conn) (l : List Conn) (key : Nat × Int) :
    ((Conns.replace conn l).getD (l ++ [conn])).filter (fun other => other.key = key) =
      if key = conn.key then conn :: (l.filter fun other => other.key = key).tail
        else l.filter fun other => other.key = key := by
  induction l with
  | nil => by_cases hk : key = conn.key <;> simp [Conns.replace, hk, eq_comm]
  | cons c rest ih =>
    rw [Conns.replace]
    by_cases hc : c.key = conn.key
    · by_cases hk : key = conn.key <;> simp [hc, hk, eq_comm]
    have hcons : ((Conns.replace conn rest).map (c :: ·)).getD (c :: rest ++ [conn]) =
        c :: (Conns.replace conn rest).getD (rest ++ [conn]) := by
      cases Conns.replace conn rest <;> rfl
    rw [if_neg hc, hcons, filter_cons, filter_cons, ih]
    by_cases hk : key = conn.key
    · simp [hk, hc]
    · simp [hk]

theorem under_addOrUpdateConn (c : Conns) (conn : Conn) :
    (c.addOrUpdateConn conn).under = update c.under conn.key (conn :: (c.under conn.key).tail) := by
  funext key
  rw [update_apply]
  refine (filter_replace conn c.conns key).trans ?_
  split
  · rename_i hkey
    rw [hkey]
    rfl
  · rfl

theorem filter_eraseP_of_false {p f : Conn → Bool} (h : ∀ other, p other → f other = false)
    (l : List Conn) : (l.eraseP p).filter f = l.filter f := by
  induction l with
  | nil => rfl
  | cons other rest ih =>
    cases hp : p other with
    | false => rw [eraseP_cons_of_neg (by simp [hp]), filter_cons, filter_cons, ih]
    | true => rw [eraseP_cons_of_pos hp, filter_cons, h other hp, if_neg Bool.false_ne_true]

theorem key_of_removed {other conn : Conn}
    (h : (other.connId = conn.connId && other.nodeId = conn.nodeId && other.sameSession conn)) : other.key = conn.key := by
  simp only [Bool.and_eq_true, decide_eq_true_eq] at h
  rw [Conn.key, Conn.key, h.1.1, h.1.2]

theorem under_remove (c : Conns) (conn : Conn) :
    (c.remove conn).under = update c.under conn.key ((c.under conn.key).eraseP fun other =>
      other.connId = conn.connId && other.nodeId = conn.nodeId && other.sameSession conn) := by
  funext key
  rw [update_apply]
  split
  · rename_i hkey
    rw [hkey, Conns.under, Conns.under, eraseP_filter]
    refine congrArg (filter _) (congrArg (eraseP · c.conns) (funext fun other => ?_))
    rw [Bool.eq_iff_iff]
    exact ⟨fun h => Bool.and_eq_true_iff.mpr ⟨h, decide_eq_true (key_of_removed h)⟩, fun h => (Bool.and_eq_true_iff.mp h).1⟩
  · rename_i hkey
    refine filter_eraseP_of_false (fun other hother => ?_) c.conns
    exact decide_eq_false fun hsame => hkey (hsame.symm.trans (key_of_removed hother))

/-- What an event makes of the connections of its number. -/
def ConnEvent.result (e : ConnEvent) (l : List Conn) : List Conn :=
  match e.type with
  | .connect | .connack => e.conn :: l.tail
  | .connClose | .connRemove | .connLeaderRemove => l.eraseP fun other =>
    other.connId = e.conn.connId && other.nodeId = e.conn.nodeId && other.sameSession e.conn
  | .onSend | .connWriteFrame | .userLeaderTask => l

theorem ConnEvent.under_change (e : ConnEvent) (c : Conns) :
    (e.change c).under = update c.under e.conn.key (e.result (c.under e.conn.key)) := by
  cases htype : e.type <;>
    simp only [ConnEvent.change, ConnEvent.result, htype, under_addOrUpdateConn, under_remove, update_eq_self]

def ConnEvent.step (s : Nat × Int → List Conn) (e : ConnEvent) : Nat × Int → List Conn :=
  if e.effect = .acts then update s e.conn.key (e.result (s e.conn.key)) else s

theorem ConnEvent.local_step (e : ConnEvent) : Local (fun _ _ => True) {e.conn.key} fun s => e.step s := by
  unfold ConnEvent.step
  split
  · exact .update rfl fun _ _ => trivial
  · exact .id

variable {events : List ConnEvent}

theorem under_onEvent (c : Conns) (h : events.Pairwise fun e _ => e.effect ≠ .returns) :
    (onEvent c events).under = events.foldl ConnEvent.step c.under := by
  induction events generalizing c with
  | nil => rfl
  | cons e rest ih =>
    obtain ⟨hfirst, hrest⟩ := pairwise_cons.mp h
    rw [onEvent, foldl_cons, ConnEvent.step]
    cases heffect : e.effect with
    | passes => exact ih c hrest
    | acts => rw [← e.under_change]; exact ih _ hrest
    | returns =>
      cases rest with
      | nil => rfl
      | cons d rest => exact absurd heffect (hfirst d (.head rest))

/-- The groups of a batch, one after the other, do what its events do in turn: the events of the
first group do not share a number with the others, which can be put off. -/
theorem under_groups (c : Conns) {order : List UserEventType} (hnodup : order.Nodup)
    (hall : ∀ e ∈ events, e.type ∈ order) (hsep : Separate events) :
    (order.foldl (fun c type => onEvent c (events.filter (·.type = type))) c).under =
      events.foldl ConnEvent.step c.under := by
  induction order generalizing events c with
  | nil =>
    have hnil : events = [] := eq_nil_iff_forall_not_mem.mpr fun e he => nomatch hall e he
    rw [hnil]
    rfl
  | cons type order ih =>
    obtain ⟨htype, hnodup⟩ := nodup_cons.mp hnodup
    have hrest : ∀ c, ∀ other ∈ order, onEvent c (events.filter (·.type = other)) =
        onEvent c ((events.filter (·.type ≠ type)).filter (·.type = other)) := fun c other hother => by
      rw [filter_filter]
      refine congrArg (onEvent c) (filter_congr fun e _ => ?_)
      rw [Bool.eq_iff_iff]
      simp only [decide_eq_true_eq, Bool.and_eq_true]
      refine ⟨fun h => ⟨h, ?_⟩, And.left⟩
      rintro rfl
      exact htype (h ▸ hother)
    have hpostpone := foldl_postpone (s := c.under) (fun e => e.type ≠ type) (fun e _ => e.local_step)
      (hsep.imp fun h hp hd => Set.disjoint_singleton.mpr (h.2 (by simp_all))) fun _ => trivial
    have hgroup : (events.filter (·.type = type)).Pairwise fun e _ => e.effect ≠ .returns := by
      refine (hsep.filter _).imp_of_mem fun he hd h => h.1 ?_
      rw [of_decide_eq_true (mem_filter.mp he).2, of_decide_eq_true (mem_filter.mp hd).2]
    have hothers : ∀ e ∈ events.filter (·.type ≠ type), e.type ∈ order := fun e he => by
      obtain ⟨he, hne⟩ := mem_filter.mp he
      exact (mem_cons.mp (hall e he)).resolve_left (of_decide_eq_true hne)
    rw [foldl_cons, foldl_ext _ _ _ hrest, ih _ hnodup hothers (hsep.filter _), hpostpone, under_onEvent c hgroup]
    simp

theorem under_inTurn (c : Conns) (events : List ConnEvent) :
    (inTurn c events).under = events.foldl ConnEvent.step c.under := by
  induction events generalizing c with
  | nil => rfl
  | cons e rest ih => exact (ih _).trans (congrArg (rest.foldl _) (under_onEvent c (pairwise_singleton _ e)))

/-- In every run whose batches are separate, the directory has under each number what it has when
the events are handled one at a time. -/
theorem directory_of_batches (c : Conns) (batches : List EventBatch) (h : ∀ b ∈ batches, Separate b.events) :
    (batches.foldl EventBatch.advance c).under = (inTurn c (batches.flatMap (·.events))).under := by
  rw [under_inTurn]
  induction batches generalizing c with
  | nil => rfl
  | cons b rest ih =>
    rw [foldl_cons, ih _ fun b' hb' => h b' (mem_cons_of_mem b hb'), flatMap_cons, foldl_append,
      EventBatch.advance, under_groups c b.nodup b.complete (h b (.head rest))]

private def visitor : Conn where
  uid := [1]
  nodeId := 1
  connId := 7

/-- Another connection is closed in the batch, and the closings are handled first. -/
theorem directory_of_batches_connect :
    ([EventBatch.mk [⟨.connect, visitor, .acts⟩, ⟨.connClose, { visitor with connId := 8 }, .acts⟩] [.connClose, .connect]
        (by decide) (by decide)].foldl EventBatch.advance {}).under =
      (inTurn {} [⟨.connect, visitor, .acts⟩, ⟨.connClose, { visitor with connId := 8 }, .acts⟩]).under :=
  directory_of_batches {} [_] (by simp [Separate, Conn.key, visitor])

/-- A connection is closed in the batch it came with, and stays: the closings were handled first. -/
theorem directory_of_batches_fails :
    (EventBatch.advance {} ⟨[⟨.connect, visitor, .acts⟩, ⟨.connClose, visitor, .acts⟩], [.connClose, .connect], by decide,
        by decide⟩).conns = [visitor] ∧
      (inTurn {} [⟨.connect, visitor, .acts⟩, ⟨.connClose, visitor, .acts⟩]).conns = [] := by
  decide

end WuKongIM.Users

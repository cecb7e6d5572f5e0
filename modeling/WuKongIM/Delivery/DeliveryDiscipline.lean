import WuKongIM.Delivery.DeliveryQueue

/-! Every lane of the delivery queue is in one place at a time: in the heap or with one job. -/
namespace WuKongIM.Delivery
open Lib List Function
variable {α : Type}

theorem eventsOf_append_self (log : List (DeliveryKey × TaskEvent α)) (key : DeliveryKey)
    (e : TaskEvent α) : eventsOf (log ++ [(key, e)]) key = eventsOf log key ++ [e] := by
  simp [eventsOf]

theorem eventsOf_append_ne (log : List (DeliveryKey × TaskEvent α)) {key key' : DeliveryKey}
    (h : key' ≠ key) (e : TaskEvent α) :
    eventsOf (log ++ [(key, e)]) key' = eventsOf log key' := by
  simp [eventsOf, h.symm]

inductive Place (α : Type)
  | ready
  | held (a : α)
  | running (a : α)
  | ended (a : α) (succeeded : Bool)

/-- What the attempts of a lane are in a place, given what has become of the attempts of its key. An
attempt that has succeeded is still there until the queue is told. -/
def Place.Suits (place : Place α) (attempts : List α) (log : List (TaskEvent α)) : Prop :=
  match place with
  | .ready => attempts ≠ [] ∧ Serial log attempts false
  | .held a => attempts.head? = some a ∧ Serial log attempts false
  | .running a => attempts.head? = some a ∧ Serial log attempts true
  | .ended a succeeded => attempts.head? = some a ∧ Serial log (if succeeded then attempts.tail else attempts) false

namespace Place.Suits
variable {place : Place α} {attempts : List α} {log : List (TaskEvent α)} {a : α}

section
variable (h : place.Suits attempts log)
include h

theorem ne_nil : attempts ≠ [] := by
  rintro rfl
  cases place with
  | ready => exact h.1 rfl
  | held a | running a | ended a succeeded => cases h.1

theorem serial : ∃ waiting running, Serial log waiting running ∧ waiting <:+ attempts := by
  cases place with
  | ready | held a | running a => exact ⟨attempts, _, h.2, suffix_refl _⟩
  | ended a succeeded =>
    refine ⟨_, _, h.2, ?_⟩
    cases succeeded with
    | true => exact tail_suffix _
    | false => exact suffix_refl _

theorem accept (a : α) : place.Suits (attempts ++ [a]) (log ++ [.accepted a]) := by
  have hne := h.ne_nil
  have hhead {b : α} (hb : attempts.head? = some b) : (attempts ++ [a]).head? = some b := by rw [head?_append, hb]; rfl
  cases place with
  | ready => exact ⟨append_ne_nil_of_left_ne_nil hne _, h.2.accept a⟩
  | held b | running b => exact ⟨hhead h.1, h.2.accept a⟩
  | ended b succeeded =>
    refine ⟨hhead h.1, ?_⟩
    have haccepted := h.2.accept a
    cases succeeded with
    | true =>
      rwa [tail_append_of_ne_nil hne]
    | false => exact haccepted

end

theorem start (h : (Place.held a).Suits attempts log) : (Place.running a).Suits attempts (log ++ [.started a]) := by
  obtain ⟨hhead, hserial⟩ := h
  obtain ⟨rest, rfl⟩ := head?_eq_some_iff.mp hhead
  exact ⟨rfl, hserial.start⟩

theorem finish (h : (Place.running a).Suits attempts log) (succeeded : Bool) :
    (Place.ended a succeeded).Suits attempts (log ++ [.ended a succeeded]) := by
  obtain ⟨hhead, hserial⟩ := h
  obtain ⟨rest, rfl⟩ := head?_eq_some_iff.mp hhead
  cases succeeded with
  | true => exact ⟨rfl, hserial.succeed⟩
  | false => exact ⟨rfl, hserial.fail⟩

end Place.Suits

/-- Each lane is in one of the places, and only lanes are. -/
structure Custody (q : DeliveryQueue α) (places : List (Nat × Place α)) (log : List (DeliveryKey × TaskEvent α)) : Prop where
  nodup : (places.map Prod.fst).Nodup
  current : ∀ key p, q.lanes key = some p ↔ p ∈ places.map Prod.fst ∧ (q.objects p).key = key
  fresh : ∀ p ∈ places.map Prod.fst, p < q.allocated
  suits : ∀ x ∈ places, x.2.Suits (q.objects x.1).attempts (eventsOf log (q.objects x.1).key)
  absent : ∀ key, q.lanes key = none → Serial (eventsOf log key) [] false

namespace Custody
variable {q q' : DeliveryQueue α} {places places' : List (Nat × Place α)} {log log' : List (DeliveryKey × TaskEvent α)} {p : Nat} {x y : Place α}

theorem perm (h : Custody q places log) (hperm : places'.Perm places) : Custody q places' log where
  nodup := ((hperm.map _).nodup_iff).mpr h.nodup
  current key p := by rw [(hperm.map Prod.fst).mem_iff]; exact h.current key p
  fresh p hp := h.fresh p ((hperm.map Prod.fst).mem_iff.mp hp)
  suits x hx := h.suits x (hperm.mem_iff.mp hx)
  absent := h.absent

section
variable (h : Custody q ((p, x) :: places) log)
include h

theorem elsewhere {p' : Nat} (hp' : p' ∈ places.map Prod.fst) : p' ≠ p ∧ (q.objects p').key ≠ (q.objects p).key := by
  have hne : p' ≠ p := by
    rintro rfl
    exact (nodup_cons.mp h.nodup).1 hp'
  refine ⟨hne, fun hkey => hne ?_⟩
  have hlane := (h.current (q.objects p).key p').mpr ⟨mem_cons_of_mem _ hp', hkey⟩
  have hlane' := (h.current (q.objects p).key p).mpr ⟨mem_cons_self, rfl⟩
  exact Option.some.inj (hlane.symm.trans hlane')

theorem move (hlanes : q'.lanes = q.lanes) (hallocated : q'.allocated = q.allocated)
    (hkeys : ∀ p, (q'.objects p).key = (q.objects p).key)
    (hother : ∀ p' ≠ p, (q'.objects p').attempts = (q.objects p').attempts)
    (hlog : ∀ key ≠ (q.objects p).key, eventsOf log' key = eventsOf log key)
    (hsuits : y.Suits (q'.objects p).attempts (eventsOf log' (q.objects p).key)) : Custody q' ((p, y) :: places) log' where
  nodup := h.nodup
  current key p' := by
    rw [hlanes, hkeys]
    exact h.current key p'
  fresh p' hp' := by
    rw [hallocated]
    exact h.fresh p' hp'
  suits z hz := by
    rw [hkeys]
    rcases mem_cons.mp hz with rfl | hz
    · exact hsuits
    · obtain ⟨hne, hkey⟩ := h.elsewhere (mem_map_of_mem hz)
      rw [hother _ hne, hlog _ hkey]
      exact h.suits z (mem_cons_of_mem _ hz)
  absent key hkey := by
    rw [hlanes] at hkey
    have hne : key ≠ (q.objects p).key := by
      rintro rfl
      rw [(h.current _ p).mpr ⟨mem_cons_self, rfl⟩] at hkey
      cases hkey
    rw [hlog key hne]
    exact h.absent key hkey

theorem remove (hlanes : q'.lanes = update q.lanes (q.objects p).key none)
    (hallocated : q'.allocated = q.allocated) (hkeys : ∀ p, (q'.objects p).key = (q.objects p).key)
    (hother : ∀ p' ≠ p, (q'.objects p').attempts = (q.objects p').attempts)
    (hdone : Serial (eventsOf log (q.objects p).key) [] false) :
    Custody q' places log where
  nodup := (nodup_cons.mp h.nodup).2
  current key p' := by
    rw [hlanes, hkeys]
    by_cases hkey : key = (q.objects p).key
    · subst hkey
      rw [update_self]
      refine iff_of_false nofun ?_
      rintro ⟨hp', hsame⟩
      exact (h.elsewhere hp').2 hsame
    · rw [update_of_ne hkey, h.current key, map_cons, mem_cons]
      refine and_congr_left fun hsame => or_iff_right ?_
      rintro rfl
      exact hkey hsame.symm
  fresh p' hp' := by
    rw [hallocated]
    exact h.fresh p' (mem_cons_of_mem _ hp')
  suits z hz := by
    rw [hkeys, hother _ (h.elsewhere (mem_map_of_mem hz)).1]
    exact h.suits z (mem_cons_of_mem _ hz)
  absent key hkey := by
    by_cases hsame : key = (q.objects p).key
    · rw [hsame]
      exact hdone
    · rw [hlanes, update_of_ne hsame] at hkey
      exact h.absent key hkey

end

theorem add (h : Custody q places log) {key : DeliveryKey} (hnone : q.lanes key = none)
    (hlanes : q'.lanes = update q.lanes key (some q.allocated)) (hallocated : q'.allocated = q.allocated + 1)
    (hkey : (q'.objects q.allocated).key = key) (hother : ∀ p ≠ q.allocated, q'.objects p = q.objects p)
    (hlog : ∀ key' ≠ key, eventsOf log' key' = eventsOf log key')
    (hsuits : x.Suits (q'.objects q.allocated).attempts (eventsOf log' key)) :
      Custody q' ((q.allocated, x) :: places) log' := by
  have hold {p : Nat} (hp : p ∈ places.map Prod.fst) : p ≠ q.allocated ∧ (q.objects p).key ≠ key := by
    refine ⟨fun hp' => Nat.lt_irrefl _ (hp' ▸ h.fresh p hp), fun hkey' => ?_⟩
    rw [(h.current key p).mpr ⟨hp, hkey'⟩] at hnone
    cases hnone
  refine ⟨nodup_cons.mpr ⟨fun hp => (hold hp).1 rfl, h.nodup⟩, fun key' p => ?_, fun p hp => ?_,
    fun z hz => ?_, fun key' hkey' => ?_⟩
  · rw [hlanes, map_cons, mem_cons]
    by_cases hp : p = q.allocated
    · subst hp
      rw [hkey]
      by_cases hsame : key' = key
      · subst hsame
        rw [update_self]
        exact iff_of_true rfl ⟨.inl rfl, rfl⟩
      · rw [update_of_ne hsame]
        refine iff_of_false (fun hlane => ?_) fun hlane => hsame hlane.2.symm
        exact (hold ((h.current key' q.allocated).mp hlane).1).1 rfl
    · rw [hother p hp, or_iff_right hp]
      by_cases hsame : key' = key
      · subst hsame
        rw [update_self]
        exact iff_of_false (fun hlane => hp (Option.some.inj hlane).symm) fun hlane => (hold hlane.1).2 hlane.2
      · rw [update_of_ne hsame]
        exact h.current key' p
  · rw [hallocated]
    rcases mem_cons.mp hp with rfl | hp
    · exact Nat.lt_succ_self _
    · exact Nat.lt_succ_of_lt (h.fresh p hp)
  · rcases mem_cons.mp hz with rfl | hz
    · rw [hkey]
      exact hsuits
    · obtain ⟨hne, hkey'⟩ := hold (mem_map_of_mem hz)
      rw [hother _ hne, hlog _ hkey']
      exact h.suits z hz
  · rw [hlanes] at hkey'
    by_cases hsame : key' = key
    · subst hsame
      rw [update_self] at hkey'
      cases hkey'
    · rw [update_of_ne hsame] at hkey'
      rw [hlog key' hsame]
      exact h.absent key' hkey'

end Custody
end WuKongIM.Delivery

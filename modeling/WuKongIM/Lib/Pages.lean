import Mathlib.Data.List.Basic

/-! Reading a list in pages. A page is cut one item longer than its limit, then what may not be seen
is left out of it, and the reading goes on while more than the limit is left. -/
namespace WuKongIM.Lib
open List
variable {α : Type} (visible : α → Bool) (limit : Nat)

/-- What is read with at most `fuel` pages, unless there is still more then. -/
def readPages : Nat → List α → Option (List α)
  | 0, _ => none
  | fuel + 1, l =>
    let seen := (l.take (limit + 1)).filter visible
    if limit < seen.length then (readPages fuel (l.drop limit)).map (seen.take limit ++ ·) else some seen

/-- After a hidden item of one of the pages nothing can be seen beyond that page. -/
def HiddenLast (l : List α) : Prop :=
  ∀ i, (∃ a ∈ (l.drop (i * limit)).take (limit + 1), visible a = false) →
    ∀ a ∈ l.drop (i * limit + limit + 1), visible a = false

variable {visible limit} {l : List α} {fuel : Nat}

theorem limit_lt_length_filter : limit < ((l.take (limit + 1)).filter visible).length ↔
    limit < l.length ∧ ∀ a ∈ l.take (limit + 1), visible a := by
  have hle := length_filter_le visible (l.take (limit + 1))
  rw [length_take] at hle
  rw [← length_filter_eq_length_iff, length_take]
  omega

theorem hiddenLast_of_visible (h : ∀ a ∈ l, visible a) : HiddenLast visible limit l := by
  rintro i ⟨a, ha, hhidden⟩
  exact absurd (h a (mem_of_mem_drop (mem_of_mem_take ha))) (Bool.eq_false_iff.mp hhidden)

theorem hiddenLast_of_full (h : ∀ a ∈ l.take (limit + 1), visible a) :
    HiddenLast visible limit l ↔ HiddenLast visible limit (l.drop limit) := by
  have hshift (i : Nat) : limit + i * limit = (i + 1) * limit := by rw [Nat.succ_mul, Nat.add_comm]
  constructor
  · intro hl i
    have hi := hl (i + 1)
    rw [drop_drop, drop_drop, ← Nat.add_assoc, ← Nat.add_assoc, hshift]
    exact hi
  · intro hl i
    cases i with
    | zero =>
      rintro ⟨a, ha, hhidden⟩
      rw [Nat.zero_mul] at ha
      exact absurd (h a ha) (Bool.eq_false_iff.mp hhidden)
    | succ i =>
      have hi := hl i
      rw [drop_drop, drop_drop, ← Nat.add_assoc, ← Nat.add_assoc, hshift] at hi
      exact hi

theorem hiddenLast_of_not_full (h : ¬limit < ((l.take (limit + 1)).filter visible).length) :
    HiddenLast visible limit l ↔ ∀ a ∈ l.drop (limit + 1), visible a = false := by
  rw [limit_lt_length_filter] at h
  constructor
  · intro hl a ha
    have hlong : limit + 1 < l.length := length_drop ▸ length_pos_of_mem ha |> Nat.lt_of_sub_pos
    have hhidden : ∃ a ∈ l.take (limit + 1), visible a = false := by
      by_contra hall
      refine h ⟨by omega, fun b hb => ?_⟩
      rw [← Bool.not_eq_false]
      exact fun hb' => hall ⟨b, hb, hb'⟩
    have hzero := hl 0
    rw [Nat.zero_mul, Nat.zero_add] at hzero
    exact hzero hhidden a ha
  · intro hl i _ a ha
    refine hl a ?_
    rw [show i * limit + limit + 1 = limit + 1 + i * limit by omega, ← drop_drop] at ha
    exact mem_of_mem_drop ha

/-- The reading comes to its end, and it tells all that can be seen just when hidden items do not
come in between. -/
theorem readPages_spec (hlimit : 0 < limit) (hfuel : l.length < fuel) :
    ∃ read, readPages visible limit fuel l = some read ∧ (read = l.filter visible ↔ HiddenLast visible limit l) := by
  induction fuel generalizing l with
  | zero => omega
  | succ fuel ih =>
    rw [readPages]
    by_cases hfull : limit < ((l.take (limit + 1)).filter visible).length
    · obtain ⟨hlong, hall⟩ := limit_lt_length_filter.mp hfull
      obtain ⟨rest, hrest, hiff⟩ := ih (l := l.drop limit) (by rw [length_drop]; omega)
      have htake : ((l.take (limit + 1)).filter visible).take limit = l.take limit := by
        rw [filter_eq_self.mpr hall, take_take, Nat.min_eq_left (Nat.le_succ limit)]
      have hfilter : l.filter visible = l.take limit ++ (l.drop limit).filter visible := by
        conv_lhs => rw [← take_append_drop limit l]
        rw [filter_append, filter_eq_self.mpr]
        exact fun a ha => hall a (take_subset_take_left l (Nat.le_succ limit) ha)
      refine ⟨l.take limit ++ rest, ?_, ?_⟩
      · rw [if_pos hfull, hrest, htake]
        rfl
      · rw [hfilter, append_right_inj, hiff, hiddenLast_of_full hall]
    · refine ⟨_, if_neg hfull, ?_⟩
      rw [hiddenLast_of_not_full hfull]
      conv_lhs => rhs; rw [← take_append_drop (limit + 1) l]
      rw [filter_append, self_eq_append_right, filter_eq_nil_iff]
      exact forall₂_congr fun a _ => Bool.eq_false_iff.symm

theorem readPages_sublist {read : List α} (h : readPages visible limit fuel l = some read) :
    read.Sublist (l.filter visible) := by
  induction fuel generalizing l read with
  | zero => cases h
  | succ fuel ih =>
    rw [readPages] at h
    split at h
    · next hfull =>
      obtain ⟨rest, hrest, rfl⟩ := Option.map_eq_some_iff.mp h
      rw [← take_append_drop limit l, filter_append]
      refine Sublist.append ?_ (ih hrest)
      obtain ⟨-, hall⟩ := limit_lt_length_filter.mp hfull
      rw [take_append_drop, filter_eq_self.mpr hall, take_take, Nat.min_eq_left (Nat.le_succ limit),
        filter_eq_self.mpr fun a ha => hall a (take_subset_take_left l (Nat.le_succ limit) ha)]
    · cases h
      exact (take_sublist _ l).filter visible

/-- Going on from an item of an ascending list: what is left is what comes after the item. -/
theorem filter_lt_of_split {number : α → Nat} (hl : l.Pairwise fun a b => number a < number b) {start : Nat}
    {front back : List α} {x : α} (hsplit : l.filter (fun a => start < number a) = front ++ x :: back) :
    l.filter (fun a => number x < number a) = back := by
  have hx : start < number x := by
    have hmem : x ∈ l.filter (fun a => start < number a) := by simp [hsplit]
    simpa using (mem_filter.mp hmem).2
  have hpair := hl.filter fun a => start < number a
  rw [hsplit, pairwise_append, pairwise_cons] at hpair
  calc l.filter fun a => number x < number a
      = (l.filter fun a => start < number a).filter fun a => number x < number a := by
        rw [filter_filter]
        refine filter_congr fun a _ => ?_
        rw [← Bool.decide_and, decide_eq_decide]
        omega
    _ = back := by
        rw [hsplit, filter_append, filter_cons_of_neg (by simp), filter_eq_nil_iff.mpr, nil_append,
          filter_eq_self]
        · exact fun a ha => decide_eq_true (hpair.2.1.1 a ha)
        intro a ha
        have := hpair.2.2 a ha x mem_cons_self
        simp only [decide_eq_true_eq]
        omega

end WuKongIM.Lib

import Mathlib.Data.Set.Finite.Lemmas
import Mathlib.Data.Set.Finite.List

/-! A scan that keeps the best value so far but passes over a value of a lower rank. -/
namespace WuKongIM.Lib
open List
variable {α κ τ : Type} [LinearOrder κ] [LinearOrder τ] {score : α → κ} {rank : α → τ} {a b x : α} {xs ys : List α}

/-- The value that is kept when `x` meets the best one so far. -/
def contest (score : α → κ) (rank : α → τ) (best x : α) : α :=
  if rank x < rank best then best else if score best < score x then x else best

def Greatest (score : α → κ) (xs : List α) (x : α) : Prop := x ∈ xs ∧ ∀ y ∈ xs, score y ≤ score x

/-- A value of the list that is not behind any other, neither in score nor in rank. -/
def Undisputed (score : α → κ) (rank : α → τ) (xs : List α) : Prop := ∃ x ∈ xs, ∀ y ∈ xs, score y ≤ score x ∧ rank y ≤ rank x

variable (score rank) in
theorem contest_eq_or (best x : α) : contest score rank best x = best ∨ contest score rank best x = x := by
  rw [contest]
  split
  · exact .inl rfl
  · split
    · exact .inr rfl
    · exact .inl rfl

theorem score_le_contest (best x : α) : score best ≤ score (contest score rank best x) := by
  rw [contest]
  split
  · exact le_rfl
  · split
    · next h => exact h.le
    · exact le_rfl

theorem score_le_contest_right (h : rank b ≤ rank x) : score x ≤ score (contest score rank b x) := by
  rw [contest, if_neg (not_lt.mpr h)]
  split
  · exact le_rfl
  · next hle => exact not_lt.mp hle

theorem foldl_mem_cons {f : α → α → α} (hf : ∀ a b, f a b = a ∨ f a b = b) (l : List α) (a : α) : l.foldl f a ∈ a :: l := by
  induction l generalizing a with
  | nil => exact mem_cons_self
  | cons b l ih =>
    rw [foldl_cons]
    rcases mem_cons.mp (ih (f a b)) with h | h
    · rcases hf a b with hsame | hnext
      · rw [h, hsame]
        exact mem_cons_self
      · rw [h, hnext]
        exact mem_cons_of_mem _ mem_cons_self
    · exact mem_cons_of_mem _ (mem_cons_of_mem _ h)

theorem foldl_contest_mem (a : α) (xs : List α) : xs.foldl (contest score rank) a ∈ a :: xs :=
  foldl_mem_cons (contest_eq_or score rank) xs a

theorem score_le_foldl_contest (a : α) (xs : List α) : score a ≤ score (xs.foldl (contest score rank) a) := by
  induction xs generalizing a with
  | nil => exact le_rfl
  | cons x xs ih => exact (score_le_contest a x).trans (ih _)

theorem score_le_of_undisputed (ha : rank a ≤ rank x) (hxs : ∀ y ∈ xs, rank y ≤ rank x)
    (hx : x ∈ xs) : score x ≤ score (xs.foldl (contest score rank) a) := by
  induction xs generalizing a with
  | nil => cases hx
  | cons y xs ih =>
    rcases mem_cons.mp hx with rfl | hx
    · exact (score_le_contest_right ha).trans (score_le_foldl_contest _ xs)
    refine ih ?_ (fun z hz => hxs z (mem_cons_of_mem y hz)) hx
    rcases contest_eq_or score rank a y with h | h
    · rw [h]
      exact ha
    · rw [h]
      exact hxs y mem_cons_self

theorem foldl_contest_of_outranked (h : ∀ y ∈ xs, rank y < rank a) : xs.foldl (contest score rank) a = a := by
  induction xs with
  | nil => rfl
  | cons y xs ih =>
    rw [foldl_cons, contest, if_pos (h y mem_cons_self)]
    exact ih fun z hz => h z (mem_cons_of_mem y hz)

def winner (score : α → κ) (rank : α → τ) : List α → Option α
  | [] => none
  | x :: xs => some (xs.foldl (contest score rank) x)

theorem winner_mem (h : winner score rank xs = some x) : x ∈ xs := by
  cases xs with
  | nil => cases h
  | cons y xs =>
    cases h
    exact foldl_contest_mem y xs

theorem winner_eq_none : winner score rank xs = none ↔ xs = [] := by
  cases xs with
  | nil | cons x xs => simp [winner]

theorem greatest_winner (h : Undisputed score rank xs) : ∃ w, winner score rank xs = some w ∧ Greatest score xs w := by
  obtain ⟨x, hx, hbest⟩ := h
  cases xs with
  | nil => cases hx
  | cons y xs =>
    refine ⟨_, rfl, foldl_contest_mem y xs, fun z hz => (hbest z hz).1.trans ?_⟩
    rcases mem_cons.mp hx with rfl | hx
    · exact score_le_foldl_contest x xs
    · exact score_le_of_undisputed (hbest y mem_cons_self).2 (fun z hz => (hbest z (mem_cons_of_mem y hz)).2) hx

/-- In every order a greatest value is kept, and not only in some. -/
theorem greatest_winner_iff (hne : xs ≠ []) :
    (∀ ys, ys.Perm xs → ∃ w, winner score rank ys = some w ∧ Greatest score xs w) ↔ Undisputed score rank xs := by
  constructor
  · intro h
    obtain ⟨top, htop, hrank⟩ := Set.exists_max_image {x | x ∈ xs} rank (finite_toSet xs) (exists_mem_of_ne_nil xs hne)
    by_contra hdisputed
    classical
    -- the value of the highest rank comes first, then all greatest values, which it outranks
    let best (x : α) : Bool := ∀ y ∈ xs, score y ≤ score x
    let greatest := xs.filter best
    let others := xs.filter fun x => !best x
    have houtranked (x : α) (hx : x ∈ greatest) : rank x < rank top := by
      obtain ⟨hmem, hbest⟩ := mem_filter.mp hx
      refine lt_of_le_of_ne (hrank x hmem) fun heq => hdisputed ⟨x, hmem, fun y hy => ⟨of_decide_eq_true hbest y hy, ?_⟩⟩
      exact heq ▸ hrank y hy
    have htopOther : top ∈ others := by
      refine mem_filter.mpr ⟨htop, Bool.not_eq_true' _ ▸ Bool.eq_false_iff.mpr fun hbest => ?_⟩
      exact (houtranked top (mem_filter.mpr ⟨htop, hbest⟩)).false
    obtain ⟨before, after, hothers⟩ := append_of_mem htopOther
    have hperm : (top :: (greatest ++ (before ++ after))).Perm xs := by
      have hsplit : (greatest ++ others).Perm xs := filter_append_perm best xs
      rw [hothers] at hsplit
      refine .trans ?_ hsplit
      rw [← append_assoc, ← append_assoc]
      exact perm_middle.symm
    obtain ⟨w, hw, hgreatest⟩ := h _ hperm
    rw [winner, foldl_append, foldl_contest_of_outranked houtranked] at hw
    obtain rfl := Option.some.inj hw
    have hmem : (before ++ after).foldl (contest score rank) top ∈ others := by
      rw [hothers]
      exact perm_middle.symm.subset (foldl_contest_mem top (before ++ after))
    have hbest : best ((before ++ after).foldl (contest score rank) top) := decide_eq_true hgreatest.2
    have hnot := (mem_filter.mp hmem).2
    rw [hbest] at hnot
    cases hnot
  · intro h ys hperm
    obtain ⟨x, hx, hbest⟩ := h
    have hys : Undisputed score rank ys := ⟨x, hperm.symm.subset hx, fun y hy => hbest y (hperm.subset hy)⟩
    obtain ⟨w, hw, hgreatest⟩ := greatest_winner hys
    exact ⟨w, hw, hperm.subset hgreatest.1, fun y hy => hgreatest.2 y (hperm.symm.subset hy)⟩

theorem exists_perm_filterMap {β : Type} {f : α → Option β} {us vs : List β} (h : us.Perm vs)
    (l : List α) (hl : l.filterMap f = vs) : ∃ l' : List α, l'.Perm l ∧ l'.filterMap f = us := by
  induction h generalizing l with
  | nil => exact ⟨l, .refl l, hl⟩
  | cons u _ ih =>
    obtain ⟨before, a, after, rfl, hbefore, ha, hafter⟩ := filterMap_eq_cons_iff.mp hl
    obtain ⟨after', hperm, hmap⟩ := ih after hafter
    refine ⟨before ++ a :: after', (hperm.cons a).append_left before, ?_⟩
    rw [filterMap_append, filterMap_eq_nil_iff.mpr hbefore, filterMap_cons_some ha, hmap]
    rfl
  | swap u v us =>
    obtain ⟨before, a, after, rfl, hbefore, ha, hafter⟩ := filterMap_eq_cons_iff.mp hl
    obtain ⟨between, b, rest, rfl, hbetween, hb, hrest⟩ := filterMap_eq_cons_iff.mp hafter
    refine ⟨before ++ (between ++ b :: a :: rest), ?_, ?_⟩
    · refine Perm.append_left before ?_
      exact ((Perm.swap a b rest).append_left between).trans perm_middle
    · rw [filterMap_append, filterMap_append, filterMap_eq_nil_iff.mpr hbefore,
        filterMap_eq_nil_iff.mpr hbetween, filterMap_cons_some hb, filterMap_cons_some ha, hrest]
      rfl
  | trans _ _ ih₁ ih₂ =>
    obtain ⟨l₂, hperm₂, hmap₂⟩ := ih₂ l hl
    obtain ⟨l₁, hperm₁, hmap₁⟩ := ih₁ l₂ hmap₂
    exact ⟨l₁, hperm₁.trans hperm₂, hmap₁⟩

end WuKongIM.Lib

import Mathlib.Data.List.Perm.Basic

/-! Binary heaps in a list, as `container/heap` keeps them: an operation moves the elements about,
and loses or doubles none. -/
namespace WuKongIM.Lib
open List
variable {α : Type} (less : α → α → Bool)

def lessAt (l : List α) (i j : Nat) : Bool :=
  match l[i]?, l[j]? with
  | some x, some y => less x y
  | _, _ => false

/-- Every round at least halves `j`, so that `j` rounds are enough. -/
def heapUp : Nat → List α → Nat → List α
  | 0, l, _ => l
  | fuel + 1, l, j =>
    let i := (j - 1) / 2
    if i = j || !lessAt less l j i then l else heapUp fuel (l.swap i j) i

/-- Of the two children of `i` the one that comes first. -/
def firstChild (n : Nat) (l : List α) (i : Nat) : Nat :=
  let j1 := 2 * i + 1
  let j2 := j1 + 1
  if j2 < n && lessAt less l j2 j1 then j2 else j1

/-- Every round goes down to a child, below `n`. -/
def heapDown (n : Nat) : Nat → List α → Nat → List α
  | 0, l, _ => l
  | fuel + 1, l, i =>
    let j := firstChild less n l i
    if n ≤ 2 * i + 1 || !lessAt less l j i then l else heapDown n fuel (l.swap i j) j

def heapPush (l : List α) (x : α) : List α := heapUp less l.length (l ++ [x]) l.length

def heapPop (l : List α) : Option (α × List α) :=
  let n := l.length - 1
  let l := heapDown less n n (l.swap 0 n) 0
  l[n]?.map fun x => (x, l.take n)

theorem heapUp_perm (fuel : Nat) (l : List α) (j : Nat) : (heapUp less fuel l j).Perm l := by
  induction fuel generalizing l j with
  | zero => exact .refl l
  | succ fuel ih =>
    rw [heapUp]
    split
    · exact .refl l
    · exact (ih _ _).trans (swap_perm l _ _)

theorem heapPush_perm (l : List α) (x : α) : (heapPush less l x).Perm (x :: l) :=
  (heapUp_perm less _ _ _).trans (perm_append_singleton x l)

theorem heapDown_perm (n fuel : Nat) (l : List α) (i : Nat) : (heapDown less n fuel l i).Perm l := by
  induction fuel generalizing l i with
  | zero => exact .refl l
  | succ fuel ih =>
    rw [heapDown]
    split
    · exact .refl l
    · exact (ih _ _).trans (swap_perm l _ _)

theorem firstChild_lt {n : Nat} {l : List α} {i : Nat} (h : 2 * i + 1 < n) : firstChild less n l i < n := by
  rw [firstChild]
  split
  · next hsecond => exact of_decide_eq_true (Bool.and_eq_true_iff.mp hsecond).1
  · exact h

theorem getElem?_heapDown (n fuel : Nat) (l : List α) (i : Nat) : (heapDown less n fuel l i)[n]? = l[n]? := by
  induction fuel generalizing l i with
  | zero => rfl
  | succ fuel ih =>
    rw [heapDown]
    split
    · rfl
    rename_i hdown
    have hchild : 2 * i + 1 < n := by
      simp only [Bool.or_eq_true, decide_eq_true_eq, not_or, Nat.not_le] at hdown
      exact hdown.1
    have hfirst := firstChild_lt less (l := l) hchild
    rw [ih]
    by_cases hn : n < l.length
    · rw [getElem?_eq_getElem (by rwa [length_swap]), getElem_swap_of_ne (by omega) (by omega), getElem?_eq_getElem]
    · rw [getElem?_eq_none (by rw [length_swap]; omega), getElem?_eq_none (by omega)]

theorem heapPop_cons (x : α) (l : List α) : ∃ rest, heapPop less (x :: l) = some (x, rest) ∧ rest.Perm l := by
  set popped := heapDown less l.length l.length ((x :: l).swap 0 l.length) 0 with hpopped
  have hall : popped.Perm (x :: l) := (heapDown_perm less _ _ _ _).trans (swap_perm (x :: l) 0 l.length)
  have hlen : l.length < popped.length := by
    rw [hall.length_eq]
    exact Nat.lt_succ_self _
  have hroot : popped[l.length] = x := by
    apply Option.some.inj
    rw [← getElem?_eq_getElem, getElem?_heapDown, getElem?_eq_getElem (by simp),
      getElem_swap_right_of_lt (by simp)]
    rfl
  refine ⟨popped.take l.length, ?_, ?_⟩
  · rw [heapPop, length_cons, Nat.add_sub_cancel, getElem?_eq_getElem hlen, hroot, Option.map_some]
  have hsplit : popped = popped.take l.length ++ [x] := by
    conv_lhs => rw [← take_append_drop l.length popped]
    rw [drop_eq_getElem_cons hlen, hroot, drop_eq_nil_of_le (by rw [hall.length_eq]; exact Nat.le_refl _)]
  rw [hsplit] at hall
  exact Perm.cons_inv ((perm_append_singleton x _).symm.trans hall)

end WuKongIM.Lib

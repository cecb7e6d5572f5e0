import Mathlib.Logic.Basic

/-! Computations that may fail: what the parts of a successful one have yielded. -/
namespace WuKongIM.Lib
variable {ε ε' α β : Type} {x : Except ε α} {f : α → Except ε β}

theorem bind_eq_ok {b : β} : (x >>= f) = .ok b ↔ ∃ a, x = .ok a ∧ f a = .ok b := by
  cases x with
  | error e | ok a => simp [bind, Except.bind]

theorem bind_eq_error {e : ε} : (x >>= f) = .error e ↔ x = .error e ∨ ∃ a, x = .ok a ∧ f a = .error e := by
  cases x with
  | error e' | ok a => simp [bind, Except.bind]

theorem map_eq_ok {f : α → β} {b : β} : f <$> x = .ok b ↔ ∃ a, x = .ok a ∧ f a = b := by
  cases x with
  | error e | ok a => simp [Functor.map, Except.map]

theorem foldlM_ok {f : α → β → Except ε α} {bs : List β} (inv : α → Prop)
    (hinv : ∀ s, ∀ b ∈ bs, ∀ t, inv s → f s b = .ok t → inv t)
    {s t : α} (hs : inv s) (h : bs.foldlM f s = .ok t) : inv t := by
  induction bs generalizing s with
  | nil =>
    cases h
    exact hs
  | cons b bs ih =>
    obtain ⟨u, hu, h⟩ := bind_eq_ok.mp h
    exact ih (fun s b hb => hinv s b (List.mem_cons_of_mem _ hb)) (hinv s b List.mem_cons_self u hs hu) h

end WuKongIM.Lib

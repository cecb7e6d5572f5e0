import Mathlib.Order.Basic

/-! Runs of a partial step function whose steps all satisfy a side condition.
A refused or panicking step has no successor, so it ends the run. -/
namespace WuKongIM.Lib
variable {σ α : Type}

/-- The states that runs from an initial state reach when every step meets `ok`. -/
inductive Reach (init : σ → Prop) (step : σ → α → Option σ) (ok : σ → α → Prop) : σ → Prop
  | init {s : σ} (h : init s) : Reach init step ok s
  | step {s t : σ} {a : α} (hs : Reach init step ok s) (ha : ok s a) (h : step s a = some t) :
      Reach init step ok t

variable {init : σ → Prop} {step : σ → α → Option σ} {ok : σ → α → Prop} {as : List α} {t s : σ}

/-- What holds at the start and is kept by every step holds in every state reached. -/
theorem Reach.invariant (inv : σ → Prop) (h0 : ∀ s, init s → inv s) (h1 : ∀ s a t, inv s → ok s a → step s a = some t → inv t)
    (h : Reach init step ok s) : inv s := by
  induction h with
  | init h => exact h0 _ h
  | step hs ha h ih => exact h1 _ _ _ ih ha h

theorem Reach.mono {ok' : σ → α → Prop} (hk : ∀ s a, ok s a → ok' s a)
    (h : Reach init step ok s) : Reach init step ok' s := by
  induction h with
  | init h => exact .init h
  | step hs ha h ih => exact .step ih (hk _ _ ha) h

/-- Execute a list of actions, checking the side condition before each of them. -/
def exec (step : σ → α → Option σ) (check : σ → α → Bool) (s : σ) : List α → Option σ
  | [] => some s
  | a :: as => if check s a then (step s a).bind fun t => exec step check t as else none

theorem Reach.of_exec {check : σ → α → Bool} (hs : Reach init step ok s)
    (hc : ∀ s a, check s a → ok s a) (as : List α) (h : exec step check s as = some t) : Reach init step ok t := by
  induction as generalizing s with
  | nil =>
    cases h
    exact hs
  | cons a as ih =>
    rw [exec] at h
    split at h
    · rename_i ha
      cases hn : step s a with
      | none => simp [hn] at h
      | some u =>
        rw [hn] at h
        exact ih (hs.step (hc s a ha) hn) h
    · cases h

theorem Reach.exists_of_exec (hs : Reach init step ok s) (check : σ → α → Bool)
    (hc : ∀ s a, check s a → ok s a) (as : List α) (p : σ → Bool)
    (h : (exec step check s as).any p) : ∃ t, Reach init step ok t ∧ p t := by
  cases he : exec step check s as with
  | none => simp [he] at h
  | some t =>
    rw [he] at h
    exact ⟨t, hs.of_exec hc as he, h⟩

theorem Reach.exists_of_run [∀ s a, Decidable (ok s a)] (hs : Reach init step ok s) (as : List α) (p : σ → Prop)
    [DecidablePred p] (h : (exec step (fun s a => decide (ok s a)) s as).any fun t => decide (p t)) :
    ∃ t, Reach init step ok t ∧ p t := by
  obtain ⟨t, ht, hp⟩ := hs.exists_of_exec (fun s a => decide (ok s a)) (fun _ _ h => of_decide_eq_true h) as _ h
  exact ⟨t, ht, of_decide_eq_true hp⟩

theorem foldlM_invariant (inv : σ → Prop) (hinv : ∀ a ∈ as, ∀ s t, inv s → step s a = some t → inv t) (hs : inv s)
    (h : as.foldlM step s = some t) : inv t := by
  induction as generalizing s with
  | nil =>
    cases h
    exact hs
  | cons a as ih =>
    obtain ⟨ha, has⟩ := List.forall_mem_cons.mp hinv
    obtain ⟨u, hu, h⟩ := Option.bind_eq_some_iff.mp h
    exact ih has (ha s u hs hu) h

end WuKongIM.Lib

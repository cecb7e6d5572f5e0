import Mathlib.Data.Set.Function
import Mathlib.Data.Set.BooleanAlgebra
import Mathlib.Order.CompletePartialOrder
import Mathlib.Data.List.Basic
import Mathlib.Logic.Function.Basic

/-! Changes of a state that read and write at known places only. The state has an invariant at each
place. -/
namespace WuKongIM.Lib
open List Function
variable {ι α γ : Type} (inv : ι → α → Prop)

def Valid (s : ι → α) : Prop := ∀ i, inv i (s i)

/-- A change that keeps the invariant, leaves every place outside `K` alone, and whose outcome
inside `K` depends on the state inside `K`. -/
structure Local (K : Set ι) (f : (ι → α) → ι → α) : Prop where
  keeps : ∀ s, Valid inv s → Valid inv (f s)
  frame : ∀ s, Valid inv s → ∀ i ∉ K, f s i = s i
  reads : ∀ s t, Valid inv s → Valid inv t → Set.EqOn s t K → Set.EqOn (f s) (f t) K

variable {inv} {K L : Set ι} {f g : (ι → α) → ι → α}

theorem Local.id : Local inv K fun s => s := ⟨fun _ h => h, fun _ _ _ _ => rfl, fun _ _ _ _ h => h⟩

theorem Local.mono (h : Local inv K f) (hKL : K ⊆ L) : Local inv L f where
  keeps := h.keeps
  frame s hs i hi := h.frame s hs i fun hk => hi (hKL hk)
  reads s t hs ht heq i hi := by
    by_cases hk : i ∈ K
    · exact h.reads s t hs ht (fun j hj => heq (hKL hj)) hk
    · rw [h.frame s hs i hk, h.frame t ht i hk]
      exact heq hi

theorem Local.comp (hf : Local inv K f) (hg : Local inv K g) : Local inv K fun s => g (f s) where
  keeps s hs := hg.keeps _ (hf.keeps s hs)
  frame s hs i hi := (hg.frame _ (hf.keeps s hs) i hi).trans (hf.frame s hs i hi)
  reads s t hs ht heq := hg.reads _ _ (hf.keeps s hs) (hf.keeps t ht) (hf.reads s t hs ht heq)

theorem Local.foldl {step : (ι → α) → γ → ι → α} {l : List γ}
    (h : ∀ c ∈ l, Local inv K fun s => step s c) : Local inv K fun s => l.foldl step s := by
  induction l with
  | nil => exact .id
  | cons c l ih => exact (h c (.head l)).comp (ih fun d hd => h d (mem_cons_of_mem c hd))

theorem Local.update [DecidableEq ι] {k : ι} {g : α → α} (hk : k ∈ K)
    (h : ∀ a, inv k a → inv k (g a)) : Local inv K fun s => Function.update s k (g (s k)) where
  keeps s hs i := by
    by_cases hi : i = k
    · subst hi
      rw [update_self]
      exact h _ (hs i)
    · rw [update_of_ne hi]
      exact hs i
  frame s _ i hi := by
    have hik : i ≠ k := by
      rintro rfl
      exact hi hk
    rw [update_of_ne hik]
  reads s t _ _ heq i hi := by
    by_cases hik : i = k
    · subst hik
      rw [update_self, update_self, heq hk]
    · rw [update_of_ne hik, update_of_ne hik]
      exact heq hi

theorem Local.plan (plan : (ι → α) → γ) (act : γ → (ι → α) → ι → α)
    (hp : ∀ s t, Valid inv s → Valid inv t → Set.EqOn s t K → plan s = plan t)
    (ha : ∀ s, Valid inv s → Local inv K (act (plan s))) : Local inv K fun s => act (plan s) s where
  keeps s hs := (ha s hs).keeps s hs
  frame s hs := (ha s hs).frame s hs
  reads s t hs ht heq := by
    rw [← hp s t hs ht heq]
    exact (ha s hs).reads s t hs ht heq

theorem Local.comm (hf : Local inv K f) (hg : Local inv L g) (h : Disjoint K L) {s : ι → α}
    (hs : Valid inv s) : g (f s) = f (g s) := by
  funext i
  by_cases hK : i ∈ K
  · have hL : i ∉ L := Set.disjoint_left.mp h hK
    rw [hg.frame _ (hf.keeps s hs) i hL]
    refine (hf.reads (g s) s (hg.keeps s hs) hs (fun j hj => hg.frame s hs j (Set.disjoint_left.mp h hj)) hK).symm
  · rw [hf.frame _ (hg.keeps s hs) i hK]
    by_cases hL : i ∈ L
    · exact hg.reads (f s) s (hf.keeps s hs) hs (fun j hj => hf.frame s hs j (Set.disjoint_right.mp h hj)) hL
    · rw [hg.frame _ (hf.keeps s hs) i hL, hf.frame s hs i hK, hg.frame s hs i hL]

variable {step : (ι → α) → γ → ι → α} {keys : γ → Set ι} {l l' : List γ} {s : ι → α}

theorem Local.foldl_comm {c : γ} (hc : Local inv (keys c) fun s => step s c)
    (hl : ∀ d ∈ l, Local inv (keys d) fun s => step s d) (hd : ∀ d ∈ l, Disjoint (keys c) (keys d))
    (hs : Valid inv s) : l.foldl step (step s c) = step (l.foldl step s) c := by
  have hall : Local inv {i | ∃ d ∈ l, i ∈ keys d} fun s => l.foldl step s :=
    .foldl fun d h => (hl d h).mono fun i hi => ⟨d, h, hi⟩
  refine hc.comm hall (Set.disjoint_left.mpr ?_) hs
  rintro i hi ⟨d, h, hid⟩
  exact Set.disjoint_left.mp (hd d h) hi hid

/-- The changes of one kind can be put off to the end, if none of them shares a place with a later
change of the other kind. -/
theorem foldl_postpone (p : γ → Bool) (hl : ∀ c ∈ l, Local inv (keys c) fun s => step s c)
    (hd : l.Pairwise fun c d => p c → p d = false → Disjoint (keys c) (keys d)) (hs : Valid inv s) :
    l.foldl step s = (l.filter p).foldl step ((l.filter fun c => !p c).foldl step s) := by
  induction l generalizing s with
  | nil => rfl
  | cons c l ih =>
    obtain ⟨hc, hd⟩ := pairwise_cons.mp hd
    have hl' : ∀ d ∈ l, Local inv (keys d) fun s => step s d := fun d h => hl d (mem_cons_of_mem c h)
    rw [foldl_cons, ih hl' hd ((hl c (.head l)).keeps s hs)]
    cases hp : p c with
    | false => simp [hp]
    | true =>
      -- what stays in front does not touch the places of `c`
      have hfront : ∀ d ∈ l.filter fun c => !p c, Disjoint (keys c) (keys d) := fun d h => by
        obtain ⟨h, hpd⟩ := mem_filter.mp h
        exact hc d h hp (by simpa using hpd)
      rw [Local.foldl_comm (hl c (.head l)) (fun d h => hl' d (mem_of_mem_filter h)) hfront hs]
      simp [hp]

theorem foldl_perm (h : l.Perm l') (hl : ∀ c ∈ l, Local inv (keys c) fun s => step s c)
    (hd : l.Pairwise fun c d => Disjoint (keys c) (keys d)) (hs : Valid inv s) : l.foldl step s = l'.foldl step s := by
  induction h generalizing s with
  | nil => rfl
  | cons c _ ih =>
    exact ih (fun d h => hl d (mem_cons_of_mem c h)) (pairwise_cons.mp hd).2 ((hl c (.head _)).keeps s hs)
  | swap c d l =>
    have hcd : Disjoint (keys d) (keys c) := (pairwise_cons.mp hd).1 c (.head l)
    rw [foldl_cons, foldl_cons, foldl_cons, foldl_cons,
      (hl d (.head _)).comm (hl c (.tail d (.head l))) hcd hs]
  | trans h1 h2 ih1 ih2 =>
    exact (ih1 hl hd hs).trans (ih2 (fun c h => hl c (h1.mem_iff.mpr h)) ((h1.pairwise_iff fun h => h.symm).mp hd) hs)

end WuKongIM.Lib

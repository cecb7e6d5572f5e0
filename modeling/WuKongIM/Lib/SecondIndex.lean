import Mathlib.Data.Set.Insert

/-! A table of rows under their identifiers, and an index that leads from a number of a row to its
identifier. -/
namespace WuKongIM.Lib
open Function
variable {ρ ι κ : Type} {id : ρ → ι} {num : ρ → κ} {gaps : Set ι} {rows rows' : List ρ} {index index' : κ → Option ι}

/-- The index leads to every row but those whose identifiers are among the gaps. -/
structure SecondIndex (id : ρ → ι) (num : ρ → κ) (gaps : Set ι) (rows : List ρ) (index : κ → Option ι) : Prop where
  apart : ∀ r ∈ rows, ∀ r' ∈ rows, id r = id r' → r = r'
  lookup : ∀ r ∈ rows, id r ∉ gaps → index (num r) = some (id r)

namespace SecondIndex

theorem unique (h : SecondIndex id num ∅ rows index) {r r' : ρ} (hr : r ∈ rows) (hr' : r' ∈ rows)
    (heq : num r = num r') : r = r' := by
  apply h.apart r hr r' hr'
  have hlookup := h.lookup r' hr' (Set.notMem_empty _)
  rw [← heq, h.lookup r hr (Set.notMem_empty _)] at hlookup
  exact Option.some.inj hlookup

theorem mono (h : SecondIndex id num gaps rows index) {gaps' : Set ι} (hsub : ∀ r ∈ rows, id r ∈ gaps → id r ∈ gaps') :
    SecondIndex id num gaps' rows index := ⟨h.apart, fun r hr hgap => h.lookup r hr fun hmem => hgap (hsub r hr hmem)⟩

theorem forget (h : SecondIndex id num ∅ rows index) (gone : ρ → Prop)
    (hgone : ∀ r, gone r → r ∈ rows) (hkept : ∀ n, (∀ r, gone r → num r ≠ n) → index' n = index n) :
      SecondIndex id num {i | ∃ r, gone r ∧ id r = i} rows index' := by
  refine ⟨h.apart, fun r hr hgap => ?_⟩
  rw [hkept]
  · exact h.lookup r hr (Set.notMem_empty _)
  · intro r' hr' hnum
    obtain rfl := h.unique (hgone r' hr') hr hnum
    exact hgap ⟨r', hr', rfl⟩

variable (h : SecondIndex id num gaps rows index)
include h

theorem write [DecidableEq κ] {x : ρ} (hrows : ∀ r, r ∈ rows' ↔ r = x ∨ r ∈ rows ∧ id r ≠ id x)
    (hagree : ∀ r ∈ rows, num r = num x → id r = id x) :
    SecondIndex id num (gaps \ {id x}) rows' (Function.update index (num x) (some (id x))) := by
  refine ⟨fun r hr r' hr' heq => ?_, fun r hr hgap => ?_⟩
  · rcases (hrows r).mp hr with rfl | ⟨hr, hne⟩
    · rcases (hrows r').mp hr' with rfl | ⟨-, hne⟩
      · rfl
      · exact absurd heq.symm hne
    · rcases (hrows r').mp hr' with rfl | ⟨hr', -⟩
      · exact absurd heq hne
      · exact h.apart r hr r' hr' heq
  · rcases (hrows r).mp hr with rfl | ⟨hr, hne⟩
    · exact update_self ..
    · rw [update_of_ne fun hnum => hne (hagree r hr hnum)]
      exact h.lookup r hr fun hmem => hgap ⟨hmem, hne⟩

theorem drop (hrows : ∀ r, r ∈ rows' ↔ r ∈ rows ∧ id r ∉ gaps) : SecondIndex id num ∅ rows' index := by
  refine ⟨fun r hr r' hr' => h.apart r ((hrows r).mp hr).1 r' ((hrows r').mp hr').1, fun r hr _ => ?_⟩
  obtain ⟨hr, hgap⟩ := (hrows r).mp hr
  exact h.lookup r hr hgap

end SecondIndex
end WuKongIM.Lib

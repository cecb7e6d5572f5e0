import WuKongIM.Lib.UTF8

/-! JSON values, as a library that decodes them into maps has them: the fields of an object are kept
in the order of their keys, which is the order they are written in, and a number is the 64 bits of a
float. -/
namespace WuKongIM.Lib
open List

inductive Json
  | null
  | bool (b : Bool)
  | num (bits : UInt64)
  | str (s : List UInt8)
  | arr (items : List Json)
  | obj (fields : List (List UInt8 × Json))

namespace Json

abbrev Fields := List (List UInt8 × Json)

def field (k : List UInt8) (fields : Fields) : Option Json := (fields.find? fun f => f.1 = k).map (·.2)

def strField (k : List UInt8) (fields : Fields) : List UInt8 :=
  match field k fields with
  | some (.str s) => s
  | _ => []

def setField (k : List UInt8) (v : Json) : Fields → Fields
  | [] => [(k, v)]
  | f :: fields =>
    if f.1 = k then (k, v) :: fields
    else if k < f.1 then (k, v) :: f :: fields
    else f :: setField k v fields

variable {fields : Fields}

variable {k' k : List UInt8} {v : Json}

theorem field_cons (f : List UInt8 × Json) : field k (f :: fields) = if f.1 = k then some f.2 else field k fields := by
  rw [field, find?_cons]
  split
  · next h => rw [if_pos (of_decide_eq_true h), Option.map_some]
  · next h => rw [if_neg (of_decide_eq_false h), field]

@[simp] theorem field_setField_self : field k (setField k v fields) = some v := by
  induction fields with
  | nil => rw [setField, field_cons, if_pos rfl]
  | cons f fields ih =>
    rw [setField]
    split
    · rw [field_cons, if_pos rfl]
    · next hne =>
      split
      · rw [field_cons, if_pos rfl]
      · rw [field_cons, if_neg hne, ih]

theorem mem_setField {f : List UInt8 × Json} (h : f ∈ setField k v fields) : f = (k, v) ∨ f ∈ fields := by
  induction fields with
  | nil => exact .inl (mem_singleton.mp h)
  | cons g fields ih =>
    rw [setField] at h
    split at h
    · exact (mem_cons.mp h).imp_right (mem_cons_of_mem g)
    split at h
    · exact mem_cons.mp h
    · rcases mem_cons.mp h with rfl | h
      · exact .inr mem_cons_self
      · exact (ih h).imp_right (mem_cons_of_mem g)

/-- The keys of an object are all different and stand in their order. -/
def Sorted (fields : Fields) : Prop := fields.Pairwise fun f g => f.1 < g.1

theorem Sorted.setField (h : Sorted fields) (k : List UInt8) (v : Json) : Sorted (setField k v fields) := by
  induction fields with
  | nil => exact pairwise_singleton ..
  | cons f fields ih =>
    obtain ⟨hf, hrest⟩ := pairwise_cons.mp h
    rw [Json.setField]
    split
    · next heq => exact pairwise_cons.mpr ⟨fun g hg => heq ▸ hf g hg, hrest⟩
    rename_i hne
    split
    · next hlt =>
      exact pairwise_cons.mpr ⟨forall_mem_cons.mpr ⟨hlt, fun g hg => List.lt_trans hlt (hf g hg)⟩, h⟩
    · next hnlt =>
      refine pairwise_cons.mpr ⟨fun g hg => ?_, ih hrest⟩
      rcases mem_setField hg with rfl | hg
      · exact Std.lt_of_le_of_ne hnlt hne
      · exact hf g hg

def Finite (bits : UInt64) : Prop := bits &&& 0x7ff0000000000000 ≠ 0x7ff0000000000000

/-- A value as a decoder yields it, with arrays and objects at most so many deep. -/
inductive Plain : Nat → Json → Prop
  | null {n : Nat} : Plain n .null
  | bool {n : Nat} {b : Bool} : Plain n (.bool b)
  | num {n : Nat} {bits : UInt64} (h : Finite bits) : Plain n (.num bits)
  | str {n : Nat} {s : List UInt8} (h : validUTF8 s = true) : Plain n (.str s)
  | arr {n : Nat} {items : List Json} (h : ∀ v ∈ items, Plain n v) : Plain (n + 1) (.arr items)
  | obj {n : Nat} {fields : Fields} (hsorted : Sorted fields) (hkeys : ∀ f ∈ fields, validUTF8 f.1 = true)
      (h : ∀ f ∈ fields, Plain n f.2) : Plain (n + 1) (.obj fields)

namespace Plain
variable {n : Nat}

theorem succ (h : Plain n v) : Plain (n + 1) v := by
  induction h with
  | null => exact .null
  | bool => exact .bool
  | num h => exact .num h
  | str h => exact .str h
  | arr _ ih => exact .arr ih
  | obj hsorted hkeys _ ih => exact .obj hsorted hkeys ih

theorem setField (h : Plain (n + 1) (.obj fields)) (hk : validUTF8 k) (hv : Plain n v) :
    Plain (n + 1) (.obj (setField k v fields)) := by
  cases h with
  | obj hsorted hkeys h =>
    refine .obj (hsorted.setField k v) (fun f hf => ?_) fun f hf => ?_
    · rcases mem_setField hf with rfl | hf
      · exact hk
      · exact hkeys f hf
    · rcases mem_setField hf with rfl | hf
      · exact hv
      · exact h f hf

theorem empty : Plain (n + 1) (.obj []) :=
  .obj .nil nofun nofun

theorem validUTF8_strField (h : Plain n (.obj fields)) (k : List UInt8) : validUTF8 (strField k fields) := by
  cases h with
  | obj _ _ h =>
    rw [strField, field]
    cases hf : fields.find? fun f => f.1 = k with
    | none => rfl
    | some f =>
      have hplain := h f (mem_of_find?_eq_some hf)
      rw [Option.map_some]
      split
      · next s hs =>
        rw [Option.some.inj hs] at hplain
        cases hplain with
        | str h => exact h
      · rfl

end Plain

structure Codec where
  unmarshal : List UInt8 → Option Json
  marshal : Json → List UInt8

end Json
end WuKongIM.Lib

import Mathlib.Data.List.AList

/-! A map into which values are gathered, each under the key that it names. -/
namespace WuKongIM.Lib
open List
variable {κ α β : Type} [DecidableEq κ]

def Named (name : β → κ) (m : AList fun _ : κ => β) : Prop := ∀ k v, m.lookup k = some v → name v = k

variable {name : β → κ} {m : AList fun _ : κ => β} {xs : List α}

theorem Named.empty : Named name ∅ := by
  intro k v h
  cases h

theorem Named.insert (h : Named name m) {k : κ} {v : β} (hv : name v = k) : Named name (m.insert k v) := by
  intro k' v' hv'
  by_cases hk : k' = k
  · subst hk
    rw [AList.lookup_insert] at hv'
    exact Option.some.inj hv' ▸ hv
  · rw [AList.lookup_insert_ne hk] at hv'
    exact h k' v' hv'

theorem Named.find?_values (h : Named name m) (k : κ) : (m.entries.map (·.2)).find? (fun v => name v = k) = m.lookup k := by
  cases hfind : (m.entries.map (·.2)).find? fun v => name v = k with
  | none =>
    cases hlookup : m.lookup k with
    | none => rfl
    | some v =>
      have hmem : ⟨k, v⟩ ∈ m.entries := AList.mem_lookup_iff.mp hlookup
      have hnot := find?_eq_none.mp hfind v (mem_map_of_mem hmem)
      exact absurd (h k v hlookup) (by simpa using hnot)
  | some v =>
    obtain ⟨⟨k', v'⟩, hmem, rfl⟩ := mem_map.mp (mem_of_find?_eq_some hfind)
    have hlookup : m.lookup k' = some v' := AList.mem_lookup_iff.mpr hmem
    have hname : name v' = k := by simpa using find?_some hfind
    rw [← hname, h k' v' hlookup, hlookup]

theorem find?_of_mem {key : α → κ} (h : (xs.map key).Nodup) {x : α} (hx : x ∈ xs) :
    xs.find? (fun y => key y = key x) = some x := by
  cases hfind : xs.find? fun y => key y = key x with
  | none => exact absurd (decide_eq_true rfl) (find?_eq_none.mp hfind x hx)
  | some y =>
    have hname : key y = key x := by simpa using find?_some hfind
    rw [inj_on_of_nodup_map h (mem_of_find?_eq_some hfind) hx hname]

variable (key : α → κ) (f : Option β → α → β)

def upsertAll (m : AList fun _ : κ => β) (xs : List α) : AList fun _ : κ => β :=
  xs.foldl (fun m x => m.insert (key x) (f (m.lookup (key x)) x)) m

variable {key f}

theorem lookup_upsertAll (h : (xs.map key).Nodup) (m : AList fun _ : κ => β) (k : κ) :
    (upsertAll key f m xs).lookup k = (xs.find? fun x => key x = k).elim (m.lookup k) fun x => some (f (m.lookup k) x) := by
  induction xs generalizing m with
  | nil => rfl
  | cons x xs ih =>
    obtain ⟨hx, hxs⟩ := nodup_cons.mp h
    have htail := ih hxs (m.insert (key x) (f (m.lookup (key x)) x))
    refine htail.trans ?_
    by_cases hk : key x = k
    · subst hk
      have hnone : (xs.find? fun y => key y = key x) = none := by
        refine find?_eq_none.mpr fun y hy => ?_
        simpa using fun heq => hx (mem_map.mpr ⟨y, hy, heq⟩)
      rw [hnone, find?_cons_of_pos (by simp), Option.elim_none, AList.lookup_insert, Option.elim_some]
    · rw [find?_cons_of_neg (by simpa using hk), AList.lookup_insert_ne (Ne.symm hk)]

theorem Named.upsertAll (h : Named name m)
    (hf : ∀ x, name (f none x) = key x ∧ ∀ v, name v = key x → name (f (some v) x) = key x)
    (xs : List α) : Named name (upsertAll key f m xs) := by
  induction xs generalizing m with
  | nil => exact h
  | cons x xs ih =>
    refine ih (h.insert ?_)
    cases hlookup : m.lookup (key x) with
    | none => exact (hf x).1
    | some v => exact (hf x).2 v (h _ v hlookup)

end WuKongIM.Lib

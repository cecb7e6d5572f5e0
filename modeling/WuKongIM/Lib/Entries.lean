import Mathlib.Data.List.Nodup

/-! Maps as lists of their entries, each key once. -/
namespace WuKongIM.Lib
open List
variable {κ β : Type} [DecidableEq κ] {m : List (κ × β)}

/-- `m[k] = v`: an entry in its place, or a new one at the end. -/
def setEntry (m : List (κ × β)) (k : κ) (v : β) : List (κ × β) :=
  if k ∈ m.map Prod.fst then m.map fun e => if e.1 = k then (k, v) else e else m ++ [(k, v)]

omit [DecidableEq κ] in
theorem keys_map_of_fst {f : κ × β → κ × β} (h : ∀ e, (f e).1 = e.1) (m : List (κ × β)) :
    (m.map f).map Prod.fst = m.map Prod.fst := by
  rw [map_map]
  exact map_congr_left fun e _ => h e

theorem keys_setEntry (m : List (κ × β)) (k : κ) (v : β) : (setEntry m k v).map Prod.fst =
    if k ∈ m.map Prod.fst then m.map Prod.fst else m.map Prod.fst ++ [k] := by
  rw [setEntry]
  split
  · refine keys_map_of_fst (fun e => ?_) m
    split
    · next h => exact h.symm
    · rfl
  · simp

theorem nodup_setEntry (k : κ) (v : β) (h : (m.map Prod.fst).Nodup) : ((setEntry m k v).map Prod.fst).Nodup := by
  rw [keys_setEntry]
  split
  · exact h
  · next hnew =>
    refine nodup_append.mpr ⟨h, nodup_singleton _, fun a ha b hb heq => hnew ?_⟩
    rwa [← mem_singleton.mp hb, ← heq]

theorem lookup_setEntry (m : List (κ × β)) (k k' : κ)
    (v : β) : (setEntry m k v).lookup k' = if k' = k then some v else m.lookup k' := by
  have hcons (e : κ × β) (m : List (κ × β)) : (e :: m).lookup k' = if k' = e.1 then some e.2 else m.lookup k' := by
    by_cases hk' : k' = e.1
    · rw [lookup_cons, beq_iff_eq.mpr hk', if_pos hk']
    · rw [lookup_cons, beq_false_of_ne hk', if_neg hk']
  have hplace : k ∈ m.map Prod.fst ∨ k' ≠ k →
      (m.map fun e => if e.1 = k then (k, v) else e).lookup k' = if k' = k then some v else m.lookup k' := by
    intro h
    induction m with
    | nil =>
      rw [if_neg (h.resolve_left not_mem_nil)]
      rfl
    | cons e m ih =>
      rw [map_cons, hcons, hcons]
      by_cases hk' : k' = k
      · have hmem := h.resolve_right (not_not.mpr hk')
        rw [if_pos hk'] at ih ⊢
        by_cases hk : e.1 = k
        · rw [if_pos hk, if_pos hk']
        · have hrest := (mem_cons.mp hmem).resolve_left (Ne.symm hk)
          rw [if_neg hk, if_neg (hk' ▸ Ne.symm hk), ih (.inl hrest)]
      · rw [if_neg hk'] at ih ⊢
        rw [ih (.inr hk')]
        by_cases hk : e.1 = k
        · rw [if_pos hk, if_neg hk', if_neg (hk ▸ hk')]
        · rw [if_neg hk]
  rw [setEntry]
  split
  · next hmem => exact hplace (.inl hmem)
  rename_i hnew
  rw [lookup_append, hcons]
  by_cases hk' : k' = k
  · have hnone : m.lookup k' = none := by
      refine lookup_eq_none_iff.mpr fun e he => ?_
      have hne : k' ≠ e.1 := fun heq => hnew (hk' ▸ heq ▸ mem_map_of_mem he)
      simpa using hne
    rw [hnone, if_pos hk', if_pos hk']
    rfl
  · rw [if_neg hk', if_neg hk']
    exact Option.or_none

theorem mem_setEntry {k : κ} {v : β} {e : κ × β} (h : e ∈ setEntry m k v) : e ∈ m ∨ e = (k, v) := by
  rw [setEntry] at h
  split at h
  · obtain ⟨e', he', rfl⟩ := mem_map.mp h
    split
    · exact .inr rfl
    · exact .inl he'
  · exact (mem_append.mp h).imp_right mem_singleton.mp

theorem mem_of_lookup {k : κ} {v : β} (h : m.lookup k = some v) : (k, v) ∈ m := by
  induction m with
  | nil => cases h
  | cons e m ih =>
    rw [lookup_cons] at h
    split at h
    · next heq =>
      cases h
      exact beq_iff_eq.mp heq ▸ mem_cons_self
    · exact mem_cons_of_mem _ (ih h)

theorem length_setEntry_le (m : List (κ × β)) (k : κ) (v : β) : (setEntry m k v).length ≤ m.length + 1 := by
  rw [setEntry]
  split <;> simp

def setEntries (m es : List (κ × β)) : List (κ × β) := es.foldl (fun m e => setEntry m e.1 e.2) m

variable (es : List (κ × β))

theorem nodup_setEntries (h : (m.map Prod.fst).Nodup) : ((setEntries m es).map Prod.fst).Nodup := by
  induction es generalizing m with
  | nil => exact h
  | cons e es ih => exact ih (nodup_setEntry e.1 e.2 h)

theorem mem_setEntries {es : List (κ × β)} {e : κ × β} (h : e ∈ setEntries m es) : e ∈ m ∨ e ∈ es := by
  induction es generalizing m with
  | nil => exact .inl h
  | cons e' es ih =>
    rcases ih h with hset | hrest
    · rcases mem_setEntry hset with hold | rfl
      · exact .inl hold
      · exact .inr mem_cons_self
    · exact .inr (mem_cons_of_mem _ hrest)

theorem mem_keys_setEntries {es : List (κ × β)} {k : κ} :
    k ∈ (setEntries m es).map Prod.fst ↔ k ∈ m.map Prod.fst ∨ k ∈ es.map Prod.fst := by
  induction es generalizing m with
  | nil => simp [setEntries]
  | cons e es ih =>
    have hset : k ∈ (setEntry m e.1 e.2).map Prod.fst ↔ k ∈ m.map Prod.fst ∨ k = e.1 := by
      rw [keys_setEntry]
      split
      · next hold => exact ⟨.inl, fun h => h.elim id fun heq => heq ▸ hold⟩
      · rw [mem_append, mem_singleton]
    rw [map_cons, mem_cons, ← or_assoc, ← hset]
    exact ih

theorem length_setEntries_le (m es : List (κ × β)) : (setEntries m es).length ≤ m.length + es.length := by
  induction es generalizing m with
  | nil => simp [setEntries]
  | cons e es ih =>
    have hset := length_setEntry_le m e.1 e.2
    have hrest := ih (setEntry m e.1 e.2)
    rw [length_cons]
    exact Nat.le_trans hrest (by omega)

theorem setEntries_of_nodup (h : ((m ++ es).map Prod.fst).Nodup) : setEntries m es = m ++ es := by
  induction es generalizing m with
  | nil => simp [setEntries]
  | cons e es ih =>
    have hnew : e.1 ∉ m.map Prod.fst := by
      intro hmem
      rw [map_append] at h
      exact (nodup_append.mp h).2.2 _ hmem _ mem_cons_self rfl
    have hrest := ih (m := m ++ [e]) (by simpa using h)
    rw [setEntries, foldl_cons, setEntry, if_neg hnew]
    exact hrest.trans (append_assoc m [e] es)

end WuKongIM.Lib

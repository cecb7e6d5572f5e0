import Mathlib.Data.List.Basic
import Mathlib.Data.List.Pairwise

/-! An ordered key-value store: a list of values in ascending order of their numeric keys. -/
namespace WuKongIM.Lib
open List
variable {α : Type} (key : α → Nat)

def put (a : α) : List α → List α
  | [] => [a]
  | x :: xs => if key a < key x then a :: x :: xs else if key a = key x then a :: xs else x :: put a xs

def putAll (new : List α) (l : List α) : List α := new.foldl (fun l a => put key a l) l

def Ascending (l : List α) : Prop := l.Pairwise fun a b => key a < key b

/-- The keys count up from `start`. -/
def Consecutive (start : Nat) (l : List α) : Prop := l.map key = range' start l.length

variable {key}

variable {a b : α} {l new : List α} {p : α → Bool} {r : List α}

theorem mem_of_mem_put (h : b ∈ put key a l) : b = a ∨ b ∈ l := by
  induction l with
  | nil => exact .inl (mem_singleton.mp h)
  | cons x xs ih =>
    rw [put] at h
    split at h
    · exact mem_cons.mp h
    split at h
    · exact (mem_cons.mp h).imp_right (mem_cons_of_mem x)
    · rcases mem_cons.mp h with rfl | h
      · exact .inr mem_cons_self
      · exact (ih h).imp_right (mem_cons_of_mem x)

theorem mem_of_mem_putAll (h : b ∈ putAll key new l) : b ∈ new ∨ b ∈ l := by
  induction new generalizing l with
  | nil => exact .inr h
  | cons a new ih =>
    rcases ih h with hb | hb
    · exact .inl (mem_cons_of_mem a hb)
    · rcases mem_of_mem_put hb with rfl | hb
      · exact .inl mem_cons_self
      · exact .inr hb

theorem mem_put (h : Ascending key l) : b ∈ put key a l ↔ b = a ∨ b ∈ l ∧ key b ≠ key a := by
  induction l with
  | nil => simp [put]
  | cons x xs ih =>
    obtain ⟨hx, hxs⟩ := pairwise_cons.mp h
    rw [put]
    split
    · rw [mem_cons]
      constructor
      · rintro (rfl | hb)
        · exact .inl rfl
        refine .inr ⟨hb, ?_⟩
        rcases mem_cons.mp hb with rfl | hb
        · omega
        · have := hx b hb
          omega
      · rintro (rfl | ⟨hb, -⟩)
        · exact .inl rfl
        · exact .inr hb
    split
    · rename_i heq
      rw [mem_cons, mem_cons]
      constructor
      · rintro (rfl | hb)
        · exact .inl rfl
        · have := hx b hb
          exact .inr ⟨.inr hb, by omega⟩
      · rintro (rfl | ⟨rfl | hb, hne⟩)
        · exact .inl rfl
        · exact absurd heq.symm hne
        · exact .inr hb
    · rename_i hne
      rw [mem_cons, mem_cons, ih hxs]
      constructor
      · rintro (rfl | rfl | hb)
        · exact .inr ⟨.inl rfl, fun hk => hne hk.symm⟩
        · exact .inl rfl
        · exact .inr ⟨.inr hb.1, hb.2⟩
      · rintro (rfl | ⟨rfl | hb, hk⟩)
        · exact .inr (.inl rfl)
        · exact .inl rfl
        · exact .inr (.inr ⟨hb, hk⟩)

theorem mem_put_of_injective (hinj : Function.Injective key) : b ∈ put key a l ↔ b = a ∨ b ∈ l := by
  induction l with
  | nil => simp [put]
  | cons x xs ih =>
    rw [put]
    split
    · simp
    split
    · next heq => simp [hinj heq]
    · rw [mem_cons, mem_cons]
      tauto

theorem mem_putAll_of_injective (hinj : Function.Injective key) : b ∈ putAll key new l ↔ b ∈ new ∨ b ∈ l := by
  induction new generalizing l with
  | nil => simp [putAll]
  | cons a new ih =>
    change b ∈ putAll key new (put key a l) ↔ _
    rw [ih, mem_put_of_injective hinj, mem_cons]
    tauto

theorem Ascending.put (h : Ascending key l) (a : α) : Ascending key (put key a l) := by
  induction l with
  | nil => exact pairwise_singleton ..
  | cons x xs ih =>
    obtain ⟨hx, hxs⟩ := pairwise_cons.mp h
    rw [Lib.put]
    split
    · rename_i hlt
      exact pairwise_cons.mpr ⟨forall_mem_cons.mpr ⟨hlt, fun b hb => Nat.lt_trans hlt (hx b hb)⟩, h⟩
    split
    · rename_i heq
      refine pairwise_cons.mpr ⟨?_, hxs⟩
      intro b hb
      rw [heq]
      exact hx b hb
    · refine pairwise_cons.mpr ⟨?_, ih hxs⟩
      intro b hb
      rcases (mem_put hxs).mp hb with rfl | ⟨hb, -⟩
      · omega
      · exact hx b hb

theorem Ascending.eq_of_key (h : Ascending key l) (ha : a ∈ l) (hb : b ∈ l) (hkey : key a = key b) : a = b := by
  induction l with
  | nil => cases ha
  | cons x xs ih =>
    obtain ⟨hx, hxs⟩ := pairwise_cons.mp h
    rcases mem_cons.mp ha with rfl | ha'
    · rcases mem_cons.mp hb with rfl | hb'
      · rfl
      · have := hx b hb'
        omega
    · rcases mem_cons.mp hb with rfl | hb'
      · have := hx a ha'
        omega
      · exact ih hxs ha' hb'

theorem Ascending.nodup (h : Ascending key l) : l.Nodup := by
  refine Pairwise.imp ?_ h
  rintro a b hlt rfl
  exact Nat.lt_irrefl _ hlt

theorem put_append (h : ∀ b ∈ l, key b < key a) : put key a (l ++ r) = l ++ put key a r := by
  induction l with
  | nil => rfl
  | cons x xs ih =>
    have hx := h x (.head xs)
    rw [cons_append, put, if_neg (by omega), if_neg (by omega), ih fun b hb => h b (.tail x hb)]
    rfl

theorem putAll_eq_append (h : Ascending key new) (hl : ∀ a ∈ new, ∀ b ∈ l, key b < key a) : putAll key new l = l ++ new := by
  induction new generalizing l with
  | nil => exact (append_nil l).symm
  | cons a new ih =>
    obtain ⟨ha, hn⟩ := pairwise_cons.mp h
    have hstep : putAll key (a :: new) l = putAll key new (put key a l) := rfl
    have hput := put_append (r := []) (hl a (.head new))
    rw [append_nil] at hput
    rw [hstep, hput, ih hn, append_assoc]
    · rfl
    intro b hb c hc
    rcases mem_append.mp hc with hc | hc
    · exact hl b (.tail a hb) c hc
    · rw [mem_singleton.mp hc]
      exact ha b hb

theorem putAll_append (h : ∀ a ∈ new, ∀ b ∈ l, key b < key a) : putAll key new (l ++ r) = l ++ putAll key new r := by
  induction new generalizing r with
  | nil => rfl
  | cons a new ih =>
    have hstep (l : List α) : putAll key (a :: new) l = putAll key new (put key a l) := rfl
    rw [hstep, hstep, put_append (h a (.head new)), ih fun b hb => h b (.tail a hb)]

theorem putAll_map {β : Type} {key' : β → Nat} {f : β → α}
    (hlt : ∀ a b, key (f a) < key (f b) ↔ key' a < key' b) (heq : ∀ a b, key (f a) = key (f b) ↔ key' a = key' b)
    (new l : List β) : putAll key (new.map f) (l.map f) = (putAll key' new l).map f := by
  have hput (a : β) (l : List β) : put key (f a) (l.map f) = (put key' a l).map f := by
    induction l with
    | nil => rfl
    | cons x xs ih =>
      simp only [map_cons, put, hlt, heq, ih]
      split
      · rfl
      split <;> rfl
  induction new generalizing l with
  | nil => rfl
  | cons a new ih =>
    have hstep : putAll key ((a :: new).map f) (l.map f) = putAll key (new.map f) (put key (f a) (l.map f)) := rfl
    rw [hstep, hput, ih]
    rfl

theorem filter_put (hp : ∀ a b, key a = key b → p a = p b) (h : Ascending key l) :
    (put key a l).filter p = if p a then put key a (l.filter p) else l.filter p := by
  induction l with
  | nil => cases hpa : p a <;> simp [put, hpa]
  | cons x xs ih =>
    obtain ⟨hx, hxs⟩ := pairwise_cons.mp h
    have hcons {l : List α} (hl : ∀ b ∈ l, key a < key b) : put key a l = a :: l := by
      cases l with
      | nil => rfl
      | cons y ys => rw [put, if_pos (hl y mem_cons_self)]
    rw [put]
    split
    · rename_i hlt
      have hall : ∀ b ∈ (x :: xs).filter p, key a < key b := by
        intro b hb
        rcases mem_cons.mp (mem_filter.mp hb).1 with rfl | hb
        · exact hlt
        · exact Nat.lt_trans hlt (hx b hb)
      rw [hcons hall, filter_cons]
    split
    · rename_i heq
      have hpx := hp a x heq
      rw [filter_cons, filter_cons, ← hpx]
      cases hpa : p a with
      | false => rfl
      | true => rw [if_pos rfl, if_pos rfl, if_pos rfl, put, if_neg (by omega), if_pos heq]
    · rename_i hnlt hne
      rw [filter_cons, filter_cons, ih hxs]
      cases p x <;> cases hpa : p a <;> simp [put, hnlt, hne]

theorem Ascending.putAll (h : Ascending key l) (new : List α) : Ascending key (putAll key new l) := by
  induction new generalizing l with
  | nil => exact h
  | cons a new ih => exact ih (h.put a)

theorem filter_putAll (hp : ∀ a b, key a = key b → p a = p b) (new : List α) (h : Ascending key l) :
    (putAll key new l).filter p = putAll key (new.filter p) (l.filter p) := by
  induction new generalizing l with
  | nil => rfl
  | cons a new ih =>
    have hstep (new l : List α) : putAll key (a :: new) l = putAll key new (put key a l) := rfl
    rw [hstep, ih (h.put a), filter_put hp h, filter_cons]
    split
    · rw [hstep]
    · rfl

theorem Ascending.le_getLast (h : Ascending key l) (ha : l.getLast? = some a) (hb : b ∈ l) : key b ≤ key a := by
  obtain ⟨ys, rfl⟩ := getLast?_eq_some_iff.mp ha
  rcases mem_append.mp hb with hb | hb
  · exact Nat.le_of_lt ((pairwise_append.mp h).2.2 b hb a (mem_singleton.mpr rfl))
  · exact Nat.le_of_eq (congrArg key (mem_singleton.mp hb))

section
variable {start : Nat}

theorem consecutive_append : Consecutive key start (l ++ r) ↔
    Consecutive key start l ∧ Consecutive key (start + l.length) r := by
  have h : range' start (l ++ r).length = range' start l.length ++ range' (start + l.length) r.length := by
    rw [length_append, range'_append_1]
  rw [Consecutive, map_append, h]
  refine ⟨fun h => append_inj h (by rw [length_map, length_range']), ?_⟩
  rintro ⟨hl, hr⟩
  rw [hl, hr]

theorem consecutive_cons : Consecutive key start (a :: l) ↔ key a = start ∧ Consecutive key (start + 1) l := by
  simp [Consecutive, range'_succ]

variable (h : Consecutive key start l)
include h

theorem Consecutive.take (n : Nat) : Consecutive key start (l.take n) := by
  rw [← take_append_drop n l] at h
  exact (consecutive_append.mp h).1

theorem Consecutive.bounds (ha : a ∈ l) : start ≤ key a ∧ key a < start + l.length := by
  have := mem_map_of_mem (f := key) ha
  rwa [h, mem_range'_1] at this

theorem Consecutive.exists_key {i : Nat} (hs : start ≤ i) (hi : i < start + l.length) : ∃ x ∈ l, key x = i := by
  rw [← mem_map, h]
  exact mem_range'_1.mpr ⟨hs, hi⟩

theorem Consecutive.ascending : Ascending key l := by
  have := pairwise_lt_range' (s := start) (n := l.length)
  rwa [← h, pairwise_map] at this

theorem Consecutive.getLast (hl : l.getLast? = some a) : key a + 1 = start + l.length := by
  obtain ⟨ys, rfl⟩ := getLast?_eq_some_iff.mp hl
  have := (consecutive_cons.mp (consecutive_append.mp h).2).1
  rw [length_append, length_singleton]
  omega

theorem Consecutive.filter_le (i : Nat) : l.filter (key · ≤ i) = l.take (i + 1 - start) := by
  induction l generalizing start with
  | nil => rw [take_nil]; rfl
  | cons x xs ih =>
    obtain ⟨hx, hxs⟩ := consecutive_cons.mp h
    rw [filter_cons, ih hxs]
    split
    · rename_i hle
      have hle := of_decide_eq_true hle
      rw [show i + 1 - start = i + 1 - (start + 1) + 1 by omega, take_succ_cons]
    · rename_i hlt
      rw [decide_eq_true_iff] at hlt
      rw [show i + 1 - (start + 1) = 0 by omega, show i + 1 - start = 0 by omega, take_zero, take_zero]

theorem Consecutive.filter_ge (i : Nat) : l.filter (i ≤ key ·) = l.drop (i - start) := by
  induction l generalizing start with
  | nil => rw [drop_nil]; rfl
  | cons x xs ih =>
    obtain ⟨hx, hxs⟩ := consecutive_cons.mp h
    rw [filter_cons, ih hxs]
    split
    · rename_i hle
      have hle := of_decide_eq_true hle
      rw [show i - (start + 1) = 0 by omega, show i - start = 0 by omega, drop_zero, drop_zero]
    · rename_i hlt
      rw [decide_eq_true_iff] at hlt
      rw [show i - start = i - (start + 1) + 1 by omega, drop_succ_cons]

end

end WuKongIM.Lib

import Mathlib.Algebra.Group.Int.Defs
import Mathlib.Algebra.GroupWithZero.Nat
import Mathlib.Data.Nat.Basic
import Mathlib.Control.Monad.Basic

/-! Decoders of byte strings: what a decoder reads back from the bytes of a value, and what holds of
every value that it can yield. -/
namespace WuKongIM.Lib
open List Option
variable {α β : Type} {p : α → Prop}

/-- A decoder takes bytes from the front, or fails. -/
abbrev Decoder := StateT (List UInt8) Option

/-- The decoder reads `x` from the bytes and leaves whatever follows them. -/
def Reads (d : Decoder α) (bytes : List UInt8) (x : α) : Prop := ∀ rest, d.run (bytes ++ rest) = some (x, rest)

/-- Whatever the decoder yields has the property. -/
def Yields (d : Decoder α) (p : α → Prop) : Prop := ∀ bytes x rest, d.run bytes = some (x, rest) → p x

namespace Reads
variable {d : Decoder α} {f : α → Decoder β} {a b : List UInt8} {x : α} {y : β}

theorem pure (x : α) : Reads (Pure.pure x) [] x := fun _ => rfl

theorem bind (h : Reads d a x) (h' : Reads (f x) b y) : Reads (d >>= f) (a ++ b) y := by
  intro rest
  rw [StateT.run_bind, append_assoc, h]
  exact h' rest

theorem result (g : α → β) (h : Reads d a x) : Reads (d >>= fun v => Pure.pure (g v)) a (g x) := by
  intro rest
  rw [StateT.run_bind, h]
  rfl

theorem map (g : α → β) (h : Reads d a x) : Reads (g <$> d) a (g x) := by
  intro rest
  rw [StateT.run_map, h]
  rfl

theorem lift {g : α → Option β} (h : Reads d a x) (hg : g x = some y) : Reads (d >>= fun v => StateT.lift (g v)) a y := by
  intro rest
  rw [StateT.run_bind, h]
  change (g x).bind (fun z => some (z, rest)) = some (y, rest)
  rw [hg, bind_some]

end Reads

namespace Yields
variable {d : Decoder α} {f : α → Decoder β} {q : β → Prop}

theorem pure {x : α} (h : p x) : Yields (Pure.pure x) p := by
  intro bytes y rest hy
  cases hy
  exact h

theorem bind (h : Yields d p) (h' : ∀ x, p x → Yields (f x) q) : Yields (d >>= f) q := by
  intro bytes y rest hy
  obtain ⟨⟨x, mid⟩, hx, hy⟩ := bind_eq_some_iff.mp hy
  exact h' x (h bytes x mid hx) mid y rest hy

theorem lift {o : Option α} (h : ∀ x, o = some x → p x) : Yields (StateT.lift o) p := by
  intro bytes x rest hx
  obtain ⟨y, hy, he⟩ := bind_eq_some_iff.mp hx
  cases he
  exact h x hy

theorem any (d : Decoder α) : Yields d fun _ => True := fun _ _ _ _ => trivial

end Yields

def many (d : Decoder α) : Nat → Decoder (List α)
  | 0 => pure []
  | n + 1 => do
    let x ← d
    let xs ← many d n
    return x :: xs

variable {encode : α → List UInt8} {d : Decoder α} {present : Bool} {f : α → β}

theorem Reads.many_map {d : Decoder β} (xs : List α) (h : ∀ x ∈ xs, Reads d (encode x) (f x)) :
    Reads (many d xs.length) (xs.flatMap encode) (xs.map f) := by
  induction xs with
  | nil => exact .pure _
  | cons x xs ih =>
    have hx := h x mem_cons_self
    have hxs := ih fun y hy => h y (mem_cons_of_mem _ hy)
    exact hx.bind (hxs.result (f x :: ·))

theorem Reads.many_take {d : Decoder β} {xs : List α} {k : Nat} (hk : k ≤ xs.length)
    (h : ∀ x ∈ xs, Reads d (encode x) (f x)) : (Lib.many d k).run (xs.flatMap encode) =
    some ((xs.take k).map f, (xs.drop k).flatMap encode) := by
  have hread := many_map (xs.take k) fun x hx => h x (mem_of_mem_take hx)
  rw [length_take_of_le hk] at hread
  rw [← hread, ← flatMap_append, take_append_drop]

theorem Reads.many (xs : List α) (h : ∀ x ∈ xs, Reads d (encode x) x) : Reads (many d xs.length) (xs.flatMap encode) xs := by
  have hid := many_map (f := id) xs h
  rwa [List.map_id] at hid

theorem Yields.many (h : Yields d p) (n : Nat) : Yields (many d n) fun xs => xs.length = n ∧ ∀ x ∈ xs, p x := by
  induction n with
  | zero => exact .pure ⟨rfl, nofun⟩
  | succ n ih =>
    refine h.bind fun x hx => ih.bind fun xs hxs => .pure ⟨?_, forall_mem_cons.mpr ⟨hx, hxs.2⟩⟩
    rw [length_cons, hxs.1]

/-- A part that stands in the bytes only when a flag says so. -/
def optional (present : Bool) (d : Decoder α) (absent : α) : Decoder α := if present then d else pure absent

theorem Reads.optional {bytes : List UInt8} {x absent : α}
    (h : present → Reads d bytes x) (h0 : present = false → x = absent) :
    Reads (optional present d absent) (if present then bytes else []) x := by
  cases present with
  | true => exact h rfl
  | false =>
    rw [h0 rfl]
    exact .pure _

theorem Yields.optional {absent : α} (h : Yields d p) (h0 : p absent) :
    Yields (optional present d absent) p := by
  cases present with
  | true => exact h
  | false => exact .pure h0

def takeBytes (n : Nat) : Decoder (List UInt8) := fun bytes =>
  if n ≤ bytes.length then some (bytes.take n, bytes.drop n) else none

theorem Reads.takeBytes (bytes : List UInt8) : Reads (takeBytes bytes.length) bytes bytes := by
  intro rest
  change (if bytes.length ≤ (bytes ++ rest).length then
    some ((bytes ++ rest).take bytes.length, (bytes ++ rest).drop bytes.length) else none) = some (bytes, rest)
  rw [if_pos (by simp), take_left, drop_left]

theorem Yields.takeBytes (n : Nat) : Yields (takeBytes n) fun bytes => bytes.length = n := by
  intro bytes x rest hx
  change (if n ≤ bytes.length then some (bytes.take n, bytes.drop n) else none) = some (x, rest) at hx
  split at hx
  · cases hx
    rw [length_take]
    omega
  · cases hx

/-- The last `width` base-256 digits of a number, the most significant one first. -/
def bigEndian : Nat → Nat → List UInt8
  | 0, _ => []
  | width + 1, value => UInt8.ofNat (value / 256 ^ width) :: bigEndian width value

def ofBigEndian : List UInt8 → Nat
  | [] => 0
  | byte :: bytes => byte.toNat * 256 ^ bytes.length + ofBigEndian bytes

@[simp] theorem length_bigEndian (width value : Nat) : (bigEndian width value).length = width := by
  induction width with
  | zero => rfl
  | succ width ih => rw [bigEndian, length_cons, ih]

theorem ofBigEndian_bigEndian (width value : Nat) : ofBigEndian (bigEndian width value) = value % 256 ^ width := by
  induction width with
  | zero => rw [Nat.pow_zero, Nat.mod_one]; rfl
  | succ width ih =>
    rw [bigEndian, ofBigEndian, length_bigEndian, ih, Nat.mod_pow_succ, Nat.mul_comm, Nat.add_comm]
    rfl

theorem ofBigEndian_uint64 (x : UInt64) : UInt64.ofNat (ofBigEndian (bigEndian 8 x.toNat)) = x := by
  rw [ofBigEndian_bigEndian, Nat.mod_eq_of_lt (b := 256 ^ 8) x.toNat_lt, UInt64.ofNat_toNat]

theorem ofBigEndian_uint32 (x : UInt32) : UInt32.ofNat (ofBigEndian (bigEndian 4 x.toNat)) = x := by
  rw [ofBigEndian_bigEndian, Nat.mod_eq_of_lt (b := 256 ^ 4) x.toNat_lt, UInt32.ofNat_toNat]

/-- An unsigned number of `width` bytes. -/
def readNat (width : Nat) : Decoder Nat := ofBigEndian <$> takeBytes width

theorem Reads.readNat (width : Nat) {value : Nat} (h : value < 256 ^ width) :
    Reads (readNat width) (bigEndian width value) value := by
  have hread := (takeBytes (bigEndian width value)).map ofBigEndian
  rw [ofBigEndian_bigEndian, Nat.mod_eq_of_lt h, length_bigEndian] at hread
  exact hread

end WuKongIM.Lib

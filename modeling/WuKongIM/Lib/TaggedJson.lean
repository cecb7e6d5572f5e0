import WuKongIM.Lib.Bytes
import WuKongIM.Lib.Json

/-! A codec for JSON values that reads back all of them: each value starts with a byte for its
kind. -/
namespace WuKongIM.Lib.Json
open List Option

/-- A one comes before each byte, and a zero ends the string. -/
def putStr : List UInt8 → List UInt8
  | [] => [0]
  | b :: s => 1 :: b :: putStr s

def takeStr : List UInt8 → Option (List UInt8 × List UInt8)
  | 0 :: rest => some ([], rest)
  | 1 :: b :: rest => (takeStr rest).map fun (s, rest) => (b :: s, rest)
  | _ => none

mutual

def put : Json → List UInt8
  | .null => [0]
  | .bool b => [1, if b then 1 else 0]
  | .num bits => 2 :: bigEndian 8 bits.toNat
  | .str s => 3 :: putStr s
  | .arr items => 4 :: putItems items
  | .obj fields => 5 :: putFields fields

def putItems : List Json → List UInt8
  | [] => [0]
  | v :: items => 1 :: (put v ++ putItems items)

def putField : List UInt8 × Json → List UInt8
  | (k, v) => 1 :: (putStr k ++ put v)

def putFields : List (List UInt8 × Json) → List UInt8
  | [] => [0]
  | f :: fields => putField f ++ putFields fields

end

mutual

def take : Nat → List UInt8 → Option (Json × List UInt8)
  | _ + 1, 0 :: rest => some (.null, rest)
  | _ + 1, 1 :: b :: rest => some (.bool (b = 1), rest)
  | _ + 1, 2 :: rest => some (.num (UInt64.ofNat (ofBigEndian (rest.take 8))), rest.drop 8)
  | _ + 1, 3 :: rest => (takeStr rest).map fun (s, rest) => (.str s, rest)
  | fuel + 1, 4 :: rest => (takeItems fuel rest).map fun (items, rest) => (.arr items, rest)
  | fuel + 1, 5 :: rest => (takeFields fuel rest).map fun (fields, rest) => (.obj fields, rest)
  | _, _ => none

def takeItems : Nat → List UInt8 → Option (List Json × List UInt8)
  | _ + 1, 0 :: rest => some ([], rest)
  | fuel + 1, 1 :: rest => do
    let (v, rest) ← take fuel rest
    let (items, rest) ← takeItems fuel rest
    return (v :: items, rest)
  | _, _ => none

def takeFields : Nat → List UInt8 → Option (Fields × List UInt8)
  | _ + 1, 0 :: rest => some ([], rest)
  | fuel + 1, 1 :: rest => do
    let (k, rest) ← takeStr rest
    let (v, rest) ← take fuel rest
    let (fields, rest) ← takeFields fuel rest
    return ((k, v) :: fields, rest)
  | _, _ => none

end

/-- Nothing may follow the value. -/
def tagged : Codec where
  unmarshal bytes :=
    match take bytes.length bytes with
    | some (v, []) => some v
    | _ => none
  marshal := put

theorem takeStr_putStr (s rest : List UInt8) : takeStr (putStr s ++ rest) = some (s, rest) := by
  induction s with
  | nil => rfl
  | cons b s ih => rw [putStr, cons_append, cons_append, takeStr, ih, map_some]

theorem takeItems_putItems {items : List Json} {fuel : Nat} (hfuel : (putItems items).length ≤ fuel)
    (h : ∀ v ∈ items, ∀ fuel rest, (put v).length ≤ fuel → take fuel (put v ++ rest) = some (v, rest)) (rest : List UInt8) :
    takeItems fuel (putItems items ++ rest) = some (items, rest) := by
  induction items generalizing fuel with
  | nil =>
    obtain ⟨fuel, rfl⟩ := Nat.exists_eq_add_of_le' hfuel
    rfl
  | cons v items ih =>
    rw [putItems, length_cons, length_append] at hfuel
    obtain _ | fuel := fuel
    · omega
    have hv := h v mem_cons_self fuel (putItems items ++ rest) (by omega)
    have hitems := ih (show _ ≤ fuel by omega) fun v hv => h v (mem_cons_of_mem _ hv)
    rw [putItems, cons_append, append_assoc, takeItems, hv]
    simp [hitems]

theorem takeFields_putFields {fields : Fields} {fuel : Nat} (hfuel : (putFields fields).length ≤ fuel)
    (h : ∀ f ∈ fields, ∀ fuel rest, (put f.2).length ≤ fuel →
      take fuel (put f.2 ++ rest) = some (f.2, rest)) (rest : List UInt8) :
    takeFields fuel (putFields fields ++ rest) = some (fields, rest) := by
  induction fields generalizing fuel with
  | nil =>
    obtain ⟨fuel, rfl⟩ := Nat.exists_eq_add_of_le' hfuel
    rfl
  | cons f fields ih =>
    rw [putFields, putField, length_append, length_cons, length_append] at hfuel
    obtain _ | fuel := fuel
    · omega
    have hf := h f mem_cons_self fuel (putFields fields ++ rest) (by omega)
    have hfields := ih (show _ ≤ fuel by omega) fun f hf => h f (mem_cons_of_mem _ hf)
    rw [putFields, putField, cons_append, cons_append, append_assoc, append_assoc, takeFields, takeStr_putStr]
    simp [hf, hfields]

theorem take_put {n : Nat} {v : Json} (h : Plain n v) (fuel : Nat) (rest : List UInt8)
    (hfuel : (put v).length ≤ fuel) : take fuel (put v ++ rest) = some (v, rest) := by
  induction h generalizing fuel rest with
    rw [put, length_cons] at hfuel
  | null =>
    obtain ⟨fuel, rfl⟩ := Nat.exists_eq_add_of_le' hfuel
    rfl
  | @bool _ b =>
    obtain ⟨fuel, rfl⟩ := Nat.exists_eq_add_of_le' (show 1 ≤ fuel by exact Nat.le_of_succ_le hfuel)
    cases b <;> rfl
  | @num _ bits _ =>
    obtain _ | fuel := fuel
    · omega
    rw [put, cons_append, take, take_left' (length_bigEndian ..), drop_left' (length_bigEndian ..), ofBigEndian_uint64]
  | str _ =>
    obtain _ | fuel := fuel
    · omega
    rw [put, cons_append, take, takeStr_putStr, map_some]
  | arr _ ih =>
    obtain _ | fuel := fuel
    · omega
    rw [put, cons_append, take, takeItems_putItems (by omega) ih, map_some]
  | obj _ _ _ ih =>
    obtain _ | fuel := fuel
    · omega
    rw [put, cons_append, take, takeFields_putFields (by omega) ih, map_some]

theorem tagged_reads_back {n : Nat} {v : Json} (h : Plain n v) : tagged.unmarshal (tagged.marshal v) = some v := by
  have htake := take_put h _ [] le_rfl
  rw [append_nil] at htake
  simp only [tagged, htake]

end WuKongIM.Lib.Json

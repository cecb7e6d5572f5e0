import Mathlib.Data.List.Basic

/-! The form of UTF-8 texts. -/
namespace WuKongIM.Lib
open List

/-- Whether bytes are well-formed UTF-8: no overlong forms, no surrogates, nothing above
U+10FFFF. -/
def validUTF8 : List UInt8 → Bool
  | [] => true
  | a :: rest =>
    if a < 0x80 then validUTF8 rest
    else
      match rest with
      | [] => false
      | b :: rest =>
        if 0xC2 ≤ a && a ≤ 0xDF then cont b && validUTF8 rest
        else
          match rest with
          | [] => false
          | c :: rest =>
            if 0xE0 ≤ a && a ≤ 0xEF then
              (if a = 0xE0 then 0xA0 else 0x80) ≤ b && b ≤ (if a = 0xED then 0x9F else 0xBF) && cont c && validUTF8 rest
            else
              match rest with
              | [] => false
              | d :: rest =>
                0xF0 ≤ a && a ≤ 0xF4 && (if a = 0xF0 then 0x90 else 0x80) ≤ b && b ≤ (if a = 0xF4 then 0x8F else 0xBF) &&
                  cont c && cont d && validUTF8 rest
where
  cont (byte : UInt8) : Bool := 0x80 ≤ byte && byte ≤ 0xBF

theorem validUTF8_ascii {byte : UInt8} (h : byte < 0x80) (rest : List UInt8) : validUTF8 (byte :: rest) = validUTF8 rest := by
  rw [validUTF8.eq_def]
  exact if_pos h

/-- The cases are those of the first character: it has one, two, three or four bytes, or it is cut
off. -/
theorem validUTF8_append {a b : List UInt8} (ha : validUTF8 a = true) (hb : validUTF8 b = true) :
    validUTF8 (a ++ b) = true := by
  fun_induction validUTF8 a with
  | case1 => exact hb
  | case2 byte rest hbyte ih =>
    rw [cons_append, validUTF8_ascii hbyte]
    exact ih ha
  | case4 _ hone _ _ htwo ih =>
    rw [Bool.and_eq_true] at ha
    rw [cons_append, cons_append, validUTF8.eq_def]
    simp only [if_neg hone, if_pos htwo, ha.1, ih ha.2, Bool.and_true]
  | case6 _ hone _ htwo _ _ hthree ih =>
    rw [Bool.and_eq_true] at ha
    rw [cons_append, cons_append, cons_append, validUTF8.eq_def]
    simp only [if_neg hone, if_neg htwo, if_pos hthree, ha.1, ih ha.2, Bool.and_true]
  | case8 _ hone _ htwo _ hthree _ _ ih =>
    rw [Bool.and_eq_true] at ha
    rw [cons_append, cons_append, cons_append, cons_append, validUTF8.eq_def]
    simp only [if_neg hone, if_neg htwo, if_neg hthree, ha.1, ih ha.2, Bool.and_true]
  | case3 | case5 | case7 => cases ha

end WuKongIM.Lib

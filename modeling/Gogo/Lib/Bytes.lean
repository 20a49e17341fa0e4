import Mathlib.Data.Nat.Digits.Defs
import Mathlib.Data.Nat.Digits.Lemmas
import Mathlib.Tactic

/-!
# Strings as byte sequences

* `Bytes`, `ascii` — byte sequences, and those of ASCII texts.
* `decimal`, `numeral` — the decimal digits of a number and the number they stand for
  (`numeral_decimal`).
* `trimSpace` — `strings.TrimSpace`.
-/

namespace Gogo.Lib

open List

/-- A string. -/
abbrev Bytes := List UInt8

/-- The bytes of an ASCII text. -/
def ascii (s : String) : Bytes := s.toList.map fun c => UInt8.ofNat c.toNat

/-- A natural number in decimal digits. -/
def decimal (n : ℕ) : Bytes :=
  if n = 0 then [48] else ((Nat.digits 10 n).map fun d => UInt8.ofNat (48 + d)).reverse

/-- The number that digits stand for. -/
def numeral (s : Bytes) : ℕ := s.foldl (fun n c => 10 * n + (c.toNat - 48)) 0

lemma numeral_append (s : Bytes) (c : UInt8) :
    numeral (s ++ [c]) = 10 * numeral s + (c.toNat - 48) := by
  simp [numeral]

lemma toNat_digit {d : ℕ} (h : d < 10) : (UInt8.ofNat (48 + d)).toNat = 48 + d := by
  rw [UInt8.toNat_ofNat_of_lt']
  rw [UInt8.size]
  omega

lemma numeral_digits {ds : List ℕ} (h : ∀ d ∈ ds, d < 10) :
    numeral (ds.map fun d => UInt8.ofNat (48 + d)).reverse = Nat.ofDigits 10 ds := by
  induction ds with
  | nil => rfl
  | cons d ds ih =>
    rw [forall_mem_cons] at h
    rw [map_cons, reverse_cons, numeral_append, ih h.2, Nat.ofDigits_cons,
      toNat_digit h.1, Nat.add_sub_cancel_left, Nat.add_comm]

/-- The digits of a number stand for it. -/
lemma numeral_decimal (n : ℕ) : numeral (decimal n) = n := by
  unfold decimal
  split_ifs with hzero
  · rw [hzero]
    rfl
  · rw [numeral_digits fun d hd => Nat.digits_lt_base (by norm_num) hd, Nat.ofDigits_digits]

lemma mem_decimal {n : ℕ} {c : UInt8} (h : c ∈ decimal n) : 48 ≤ c.toNat ∧ c.toNat ≤ 57 := by
  unfold decimal at h
  split_ifs at h
  · rw [mem_singleton.mp h]
    decide
  · rw [mem_reverse] at h
    obtain ⟨d, hd, rfl⟩ := mem_map.mp h
    have hlt : d < 10 := Nat.digits_lt_base (by norm_num) hd
    rw [toNat_digit hlt]
    omega

lemma decimal_ne_nil (n : ℕ) : decimal n ≠ [] := by
  unfold decimal
  split_ifs with hzero
  · exact cons_ne_nil _ _
  · rw [ne_eq, reverse_eq_nil_iff, map_eq_nil_iff]
    exact Nat.digits_ne_nil_iff_ne_zero.mpr hzero

/-! ## White space -/

/-- The characters of `unicode.IsSpace` in UTF-8. -/
def spaces : List Bytes :=
  [[9], [10], [11], [12], [13], [32], [0xC2, 0x85], [0xC2, 0xA0], [0xE1, 0x9A, 0x80],
    [0xE2, 0x80, 0xA8], [0xE2, 0x80, 0xA9], [0xE2, 0x80, 0xAF], [0xE2, 0x81, 0x9F],
    [0xE3, 0x80, 0x80]] ++
    (List.range 11).map fun n => [0xE2, 0x80, UInt8.ofNat (0x80 + n)]

/-- Remove patterns from the front, at most so many. -/
def dropPatterns (patterns : List Bytes) : ℕ → Bytes → Bytes
  | 0, s => s
  | n + 1, s =>
    match patterns.find? (·.isPrefixOf s) with
    | none => s
    | some pattern => dropPatterns patterns n (s.drop pattern.length)

/-- `strings.TrimSpace`. -/
def trimSpace (s : Bytes) : Bytes :=
  let left := dropPatterns spaces s.length s
  (dropPatterns (spaces.map List.reverse) left.length left.reverse).reverse

end Gogo.Lib

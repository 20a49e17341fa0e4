import Mathlib.Algebra.Order.Field.Basic
import Mathlib.Algebra.Order.Field.Rat
import Mathlib.Data.List.TakeWhile
import Mathlib.Tactic.FieldSimp
import Mathlib.Tactic.Linarith
import Mathlib.Tactic.NormNum
import Mathlib.Tactic.Ring

/-!
# Rational numbers as text

The spellings of a rational number without a slash: an optional sign, an optional prefix for base 2,
8 or 16, digits with an optional radix point and with single underscores between them, and an
optional exponent, `e` for a power of ten or `p` for a power of two.

* `setString` — reads a spelling; `Reading.value` — the number.
* `digitsValue`, `digitsValue_lt`, `digitsValue_append` — the number of a list of digits.
* `setString_plain` — **a spelling without an exponent is its sign, its prefix and its mantissa, and
  the value is the number of its digits over the power of the base that the point calls for.**
* `abs_value_lt`, `value_mul_isInt` — its size and its denominator.
-/

namespace Gogo.Lib

open List

/-- The base of the digits. -/
inductive Radix
  | decimal | binary | octal | hexadecimal
deriving DecidableEq

/-- The number of digits. -/
def Radix.base : Radix → ℕ
  | .decimal => 10
  | .binary => 2
  | .octal => 8
  | .hexadecimal => 16

/-! ## Digits -/

/-- The value of a digit, up to base 36. -/
def digitValue (c : Char) : Option ℕ :=
  if '0' ≤ c ∧ c ≤ '9' then some (c.toNat - 48)
  else if 'a' ≤ c ∧ c ≤ 'z' then some (c.toNat - 87)
  else if 'A' ≤ c ∧ c ≤ 'Z' then some (c.toNat - 55)
  else none

/-- A digit of a base. -/
def isDigitOf (base : ℕ) (c : Char) : Bool := (digitValue c).any (· < base)

/-- The digits of a text with separators. -/
def withoutSeparators (text : List Char) : List Char := text.filter (· ≠ '_')

/-- The number of a list of digits. -/
def digitsValue (base : ℕ) (digits : List Char) : ℕ :=
  digits.foldl (fun n c => base * n + (digitValue c).getD 0) 0

/-- A separator stands behind a digit, or where `here` allows one, and in front of a digit. -/
def separatorsOk : Bool → List Char → Bool
  | _, [] => true
  | here, c :: rest =>
    if c = '_' then
      here && rest.head?.any (fun d => d ≠ '_' && d ≠ '.') && separatorsOk false rest
    else separatorsOk (c ≠ '.') rest

/-! ## Reading -/

/-- What a spelling says. -/
structure Reading where
  negative : Bool
  radix : Radix
  mantissa : ℕ
  /-- The digits behind the point. -/
  places : ℕ
  exponentBase : ℕ
  exponent : ℤ
deriving DecidableEq

/-- The number that a spelling stands for. -/
def Reading.value (r : Reading) : ℚ :=
  (if r.negative then -1 else 1) * (r.mantissa / (r.radix.base : ℚ) ^ r.places) *
    (r.exponentBase : ℚ) ^ r.exponent

/-- An optional sign. -/
def readSign : List Char → Bool × List Char
  | '-' :: rest => (true, rest)
  | '+' :: rest => (false, rest)
  | text => (false, text)

/-- An optional prefix for the base. -/
def readRadix : List Char → Radix × List Char
  | '0' :: 'b' :: rest | '0' :: 'B' :: rest => (.binary, rest)
  | '0' :: 'o' :: rest | '0' :: 'O' :: rest => (.octal, rest)
  | '0' :: 'x' :: rest | '0' :: 'X' :: rest => (.hexadecimal, rest)
  | text => (.decimal, text)

/-- A character of the mantissa. -/
def inMantissa (radix : Radix) (c : Char) : Bool :=
  isDigitOf radix.base c || c == '_' || c == '.'

/-- The part in front of the point. -/
def beforePoint (text : List Char) : List Char := text.takeWhile (· ≠ '.')

/-- The part behind the point. -/
def behindPoint (text : List Char) : List Char := (text.dropWhile (· ≠ '.')).drop 1

/-- The mantissa and its places; none if it has two points, a misplaced separator or no digit. -/
def readMantissa (radix : Radix) (text : List Char) : Option (ℕ × ℕ) :=
  let whole := withoutSeparators (beforePoint text)
  let fraction := withoutSeparators (behindPoint text)
  if '.' ∈ behindPoint text ∨ whole ++ fraction = [] ∨
      separatorsOk (radix ≠ .decimal) text = false then none
  else some (digitsValue radix.base (whole ++ fraction), fraction.length)

/-- The digits of an exponent, with their sign. -/
def readExponentDigits (text : List Char) : Option ℤ :=
  let (negative, digits) := readSign text
  let plain := withoutSeparators digits
  if plain = [] ∨ plain.all (isDigitOf 10) = false ∨ separatorsOk false digits = false then none
  else some ((if negative then -1 else 1) * (digitsValue 10 plain : ℤ))

/-- An optional exponent: its base and its value. -/
def readExponent : List Char → Option (ℕ × ℤ)
  | [] => some (10, 0)
  | c :: rest =>
    if c = 'e' ∨ c = 'E' then (readExponentDigits rest).map fun e => (10, e)
    else if c = 'p' ∨ c = 'P' then (readExponentDigits rest).map fun e => (2, e)
    else none

/-- Read a spelling; all of the text belongs to it. -/
def setString (text : List Char) : Option Reading :=
  let (negative, text) := readSign text
  let (radix, text) := readRadix text
  match readMantissa radix (text.takeWhile (inMantissa radix)),
      readExponent (text.dropWhile (inMantissa radix)) with
  | some (mantissa, places), some (exponentBase, exponent) =>
    some ⟨negative, radix, mantissa, places, exponentBase, exponent⟩
  | _, _ => none

/-! ## The number of a list of digits -/

section Digits

variable {base : ℕ} {s t : List Char}

lemma foldl_digits (base n : ℕ) (s : List Char) :
    s.foldl (fun n c => base * n + (digitValue c).getD 0) n =
      base ^ s.length * n + digitsValue base s := by
  unfold digitsValue
  induction s generalizing n with
  | nil => simp
  | cons c s ih =>
    rw [foldl_cons, foldl_cons, ih, ih (base * 0 + (digitValue c).getD 0)]
    rw [length_cons]
    ring

lemma digitsValue_append (base : ℕ) (s t : List Char) :
    digitsValue base (s ++ t) = digitsValue base s * base ^ t.length + digitsValue base t := by
  unfold digitsValue
  rw [foldl_append, foldl_digits]
  unfold digitsValue
  ring

lemma digitsValue_cons (base : ℕ) (c : Char) (s : List Char) :
    digitsValue base (c :: s) = (digitValue c).getD 0 * base ^ s.length + digitsValue base s := by
  have hsplit : c :: s = [c] ++ s := rfl
  rw [hsplit, digitsValue_append]
  simp [digitsValue]

/-- Digits below the base stay below its power. -/
lemma digitsValue_lt (hs : ∀ c ∈ s, isDigitOf base c = true) :
    digitsValue base s < base ^ s.length := by
  induction s with
  | nil => exact Nat.one_pos
  | cons c s ih =>
    have hrest := ih fun d hd => hs d (mem_cons_of_mem _ hd)
    have hc := hs c mem_cons_self
    unfold isDigitOf at hc
    obtain ⟨d, hd, hlt⟩ : ∃ d, digitValue c = some d ∧ d < base := by
      rcases hvalue : digitValue c with _ | d
      · rw [hvalue] at hc
        cases hc
      · rw [hvalue] at hc
        exact ⟨d, rfl, of_decide_eq_true hc⟩
    rw [digitsValue_cons, hd, Option.getD_some, length_cons, pow_succ]
    calc d * base ^ s.length + digitsValue base s
        < d * base ^ s.length + base ^ s.length := by omega
      _ = (d + 1) * base ^ s.length := by ring
      _ ≤ base * base ^ s.length := Nat.mul_le_mul_right _ hlt
      _ = base ^ s.length * base := by ring

end Digits

/-! ## Spellings without an exponent -/

section Plain

variable {text : List Char} {r : Reading}

/-- The text behind its sign. -/
def unsigned (text : List Char) : List Char := (readSign text).2

/-- The base that the prefix of a text says. -/
def radixOf (text : List Char) : Radix := (readRadix (unsigned text)).1

/-- The text behind its sign and prefix. -/
def bodyOf (text : List Char) : List Char := (readRadix (unsigned text)).2

/-- The text has a character of an exponent. -/
def hasExponentMark (text : List Char) : Bool :=
  text.any fun c => c = 'e' || c = 'E' || c = 'p' || c = 'P'

lemma unsigned_suffix (text : List Char) : unsigned text <:+ text := by
  unfold unsigned readSign
  split
  · exact suffix_cons _ _
  · exact suffix_cons _ _
  · exact suffix_rfl

/-- The unsigned text is the body, behind a prefix for another base than ten. -/
lemma unsigned_cases (text : List Char) :
    (radixOf text = .decimal ∧ unsigned text = bodyOf text) ∨
      ∃ letter, letter ∈ ['b', 'B', 'o', 'O', 'x', 'X'] ∧
        unsigned text = '0' :: letter :: bodyOf text := by
  unfold radixOf bodyOf
  generalize unsigned text = u
  unfold readRadix
  split
  · exact .inr ⟨'b', by decide, rfl⟩
  · exact .inr ⟨'B', by decide, rfl⟩
  · exact .inr ⟨'o', by decide, rfl⟩
  · exact .inr ⟨'O', by decide, rfl⟩
  · exact .inr ⟨'x', by decide, rfl⟩
  · exact .inr ⟨'X', by decide, rfl⟩
  · exact .inl ⟨rfl, rfl⟩

lemma bodyOf_suffix (text : List Char) : bodyOf text <:+ text := by
  refine IsSuffix.trans ?_ (unsigned_suffix text)
  rcases unsigned_cases text with ⟨-, heq⟩ | ⟨letter, -, heq⟩
  · exact ⟨[], heq.symm⟩
  · rw [heq]
    exact (suffix_cons letter _).trans (suffix_cons '0' _)

lemma readExponent_of_not_mark {c : Char} (rest : List Char)
    (h : ¬ (c = 'e' ∨ c = 'E') ∧ ¬ (c = 'p' ∨ c = 'P')) : readExponent (c :: rest) = none := by
  rw [readExponent, if_neg h.1, if_neg h.2]

/-- **A spelling without an exponent is its sign, its prefix and its mantissa.** -/
theorem setString_plain (hmark : hasExponentMark (bodyOf text) = false)
    (h : setString text = some r) :
    (bodyOf text).all (inMantissa (radixOf text)) = true ∧ '.' ∉ behindPoint (bodyOf text) ∧
      r.radix = radixOf text ∧
      r.places = (withoutSeparators (behindPoint (bodyOf text))).length ∧
      r.mantissa = digitsValue (radixOf text).base
        (withoutSeparators (beforePoint (bodyOf text)) ++
          withoutSeparators (behindPoint (bodyOf text))) ∧
      r.exponent = 0 := by
  have hread : setString text =
      match readMantissa (radixOf text) ((bodyOf text).takeWhile (inMantissa (radixOf text))),
        readExponent ((bodyOf text).dropWhile (inMantissa (radixOf text))) with
      | some (mantissa, places), some (exponentBase, exponent) =>
        some ⟨(readSign text).1, radixOf text, mantissa, places, exponentBase, exponent⟩
      | _, _ => none := rfl
  rw [hread] at h
  -- what is left behind the mantissa has no mark of an exponent, so there is nothing left
  have hrest : (bodyOf text).dropWhile (inMantissa (radixOf text)) = [] := by
    rcases hdrop : (bodyOf text).dropWhile (inMantissa (radixOf text)) with _ | ⟨c, rest⟩
    · rfl
    · have hc : c ∈ bodyOf text := by
        refine (dropWhile_suffix (inMantissa (radixOf text))).subset ?_
        rw [hdrop]
        exact mem_cons_self
      have hnot := any_eq_false.mp hmark c hc
      simp only [Bool.or_eq_true, decide_eq_true_eq, not_or] at hnot
      have hnone : readExponent (c :: rest) = none :=
        readExponent_of_not_mark rest ⟨by tauto, by tauto⟩
      rw [hdrop, hnone] at h
      split at h
      · next heq => cases heq
      · cases h
  have hall : (bodyOf text).takeWhile (inMantissa (radixOf text)) = bodyOf text := by
    have happend : (bodyOf text).takeWhile (inMantissa (radixOf text)) ++
        (bodyOf text).dropWhile (inMantissa (radixOf text)) = bodyOf text :=
      takeWhile_append_dropWhile
    rw [hrest, append_nil] at happend
    exact happend
  rw [hall, hrest] at h
  refine ⟨all_eq_true.mpr fun c hc => ?_, ?_⟩
  · rw [← hall] at hc
    exact mem_takeWhile_imp hc
  unfold readMantissa at h
  by_cases hbad : '.' ∈ behindPoint (bodyOf text) ∨
      withoutSeparators (beforePoint (bodyOf text)) ++
        withoutSeparators (behindPoint (bodyOf text)) = [] ∨
      separatorsOk (radixOf text ≠ .decimal) (bodyOf text) = false
  · rw [if_pos hbad] at h
    cases h
  · rw [if_neg hbad] at h
    obtain rfl := Option.some.inj h
    exact ⟨fun hpoint => hbad (.inl hpoint), rfl, rfl, rfl, rfl⟩

/-! ## Size and denominator -/

lemma Radix.base_pos (radix : Radix) : 0 < radix.base := by
  cases radix <;> decide

lemma value_of_exponent_eq_zero (h : r.exponent = 0) :
    r.value = (if r.negative then -1 else 1) * (r.mantissa / (r.radix.base : ℚ) ^ r.places) := by
  unfold Reading.value
  rw [h, zpow_zero, mul_one]

/-- The size of a number without an exponent. -/
lemma abs_value_lt (h : r.exponent = 0) {n : ℕ}
    (hn : r.mantissa < n * r.radix.base ^ r.places) : |r.value| < n := by
  have hbase : (0 : ℚ) < (r.radix.base : ℚ) ^ r.places :=
    pow_pos (Nat.cast_pos.mpr r.radix.base_pos) _
  have hsign : |(if r.negative then -1 else 1 : ℚ)| = 1 := by
    split_ifs <;> norm_num
  have hquotient : (r.mantissa : ℚ) / (r.radix.base : ℚ) ^ r.places < n := by
    rw [div_lt_iff₀ hbase]
    exact_mod_cast hn
  rw [value_of_exponent_eq_zero h, abs_mul, hsign, one_mul, abs_of_nonneg (by positivity)]
  exact hquotient

/-- A number without an exponent has a power of its base for a denominator. -/
lemma value_mul_isInt (h : r.exponent = 0) {n : ℕ} (hn : r.radix.base ^ r.places ∣ n) :
    ∃ z : ℤ, r.value * n = z := by
  obtain ⟨k, rfl⟩ := hn
  have hbase : (r.radix.base : ℚ) ^ r.places ≠ 0 :=
    pow_ne_zero _ (Nat.cast_ne_zero.mpr r.radix.base_pos.ne')
  refine ⟨(if r.negative then -1 else 1) * (r.mantissa * k), ?_⟩
  rw [value_of_exponent_eq_zero h]
  push_cast
  split_ifs <;> field_simp

end Plain

end Gogo.Lib

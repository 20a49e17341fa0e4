import Gogo.Lib.Decimal

/-!
# Byte ranges of downloads

`downloadRange` reads the positions of a `Range` header as signed numbers of 64 bits.

* `downloadRange` — the source.
* `ByteRange`, `ByteRange.selects` — a range of digit texts and the bytes that RFC 9110 gives it,
  with positions of any magnitude.
* `interval_eq_selects_iff` — **the interval is the right one exactly when a last position or a
  suffix length fits 64 bits, or the first position is behind the end.**
* `ranges_follow_rfc` — **ranges are answered as RFC 9110 says up to this bound, and with 416 beyond
  it; every interval of an answer has bytes and lies within the file.**
-/

namespace Gogo.Files

open Gogo.Lib

/-! ## The source -/

/-- `strings.EqualFold` against small ASCII letters, none of them a `k`: the long s folds too. -/
def equalFold : Bytes → Bytes → Bool
  | [], [] => true
  | 0xC5 :: 0xBF :: s, 115 :: t => equalFold s t
  | c :: s, d :: t => (if 65 ≤ c ∧ c ≤ 90 then c + 32 else c) == d && equalFold s t
  | _, _ => false

/-- `strings.Cut` at a byte. -/
def cut (c : UInt8) (s : Bytes) : Option (Bytes × Bytes) :=
  if c ∈ s then some (s.takeWhile (· ≠ c), (s.dropWhile (· ≠ c)).tail) else none

/-- The `decimal` of `downloadRange`: `strconv.ParseInt` on digits. -/
def parseDecimal (s : Bytes) : Option ℤ :=
  if s ≠ [] ∧ IsDigits s ∧ numeral s < 2 ^ 63 then some (numeral s) else none

/-- The first byte and the number of bytes for the texts around the `-`. -/
def interval (a b : Bytes) (size : ℤ) : Option (ℤ × ℤ) :=
  if a = [] then
    (parseDecimal b).bind fun n =>
      if n = 0 then none else some (size - min n size, min n size)
  else
    (parseDecimal a).bind fun n =>
      if size ≤ n then none
      else if b = [] then some (n, size - 1 - n + 1)
      else
        (parseDecimal b).bind fun last =>
          if last < n then none else some (n, min last (size - 1) - n + 1)

/-- First byte, number of bytes and status. -/
structure Answer where
  start : ℤ
  length : ℤ
  status : ℕ
deriving DecidableEq

/-- The answer with an interval, or without one. -/
def answerTo (size : ℤ) : Option (ℤ × ℤ) → Answer
  | none => ⟨0, size, 416⟩
  | some (start, length) => ⟨start, length, 206⟩

/-- Source: `download_range.go` `downloadRange`. -/
def downloadRange (value : Bytes) (size : ℤ) : Answer :=
  if value = [] then ⟨0, size, 200⟩
  else
    match cut 61 value with
    | none =>
      if equalFold (trimSpace value) (ascii "bytes") then answerTo size none else ⟨0, size, 200⟩
    | some (unit, spec) =>
      if ¬ equalFold (trimSpace unit) (ascii "bytes") ∨ 44 ∈ spec then ⟨0, size, 200⟩
      else if 128 < value.length ∨ ¬ equalFold unit (ascii "bytes") ∨ size ≤ 0 then
        answerTo size none
      else answerTo size ((cut 45 spec).bind fun (a, b) => interval a b size)

/-! ## Ranges -/

/-- A digit text of any length. -/
structure Digits where
  text : Bytes
  digits : IsDigits text
  ne_nil : text ≠ []

/-- The number that a digit text stands for. -/
def Digits.value (d : Digits) : ℤ := numeral d.text

/-- The three forms of one range. -/
inductive ByteRange
  | closed (a b : Digits)
  | onward (a : Digits)
  | suffix (b : Digits)

/-- The texts around the `-`. -/
def ByteRange.texts : ByteRange → Bytes × Bytes
  | .closed a b => (a.text, b.text)
  | .onward a => (a.text, [])
  | .suffix b => ([], b.text)

/-- The header value. -/
def ByteRange.text (r : ByteRange) : Bytes := ascii "bytes=" ++ (r.texts.1 ++ 45 :: r.texts.2)

/-- RFC 9110: the first byte and the number of bytes, `none` where a range is not satisfiable. -/
def ByteRange.selects (size : ℤ) : ByteRange → Option (ℤ × ℤ)
  | .closed a b =>
    if a.value < size ∧ a.value ≤ b.value then
      some (a.value, min b.value (size - 1) - a.value + 1)
    else none
  | .onward a => if a.value < size then some (a.value, size - a.value) else none
  | .suffix b => if 0 < b.value then some (size - min b.value size, min b.value size) else none

/-- Where machine numbers are enough. -/
def ByteRange.Fits (size : ℤ) : ByteRange → Prop
  | .closed a b => b.value < 2 ^ 63 ∨ size ≤ a.value
  | .onward _ => True
  | .suffix b => b.value < 2 ^ 63

/-! ## Answers -/

variable {size : ℤ} {a b : Bytes}

lemma Digits.parse_of_lt {d : Digits} (h : d.value < 2 ^ 63) :
    parseDecimal d.text = some d.value := by
  rw [Digits.value] at h
  exact if_pos ⟨d.ne_nil, d.digits, by exact_mod_cast h⟩

lemma Digits.parse_of_le {d : Digits} (h : 2 ^ 63 ≤ d.value) : parseDecimal d.text = none := by
  rw [Digits.value] at h
  apply if_neg
  rintro ⟨-, -, hlt⟩
  exact absurd hlt (not_lt.mpr (by exact_mod_cast h))

lemma Digits.value_nonneg (d : Digits) : 0 ≤ d.value := Int.natCast_nonneg _

lemma parseDecimal_nonneg {n : ℤ} (h : parseDecimal a = some n) : 0 ≤ n := by
  unfold parseDecimal at h
  split_ifs at h
  rw [← Option.some.inj h]
  exact Int.natCast_nonneg _

/-- **When the interval is the right one.** -/
lemma interval_eq_selects_iff (r : ByteRange) (hmax : size < 2 ^ 63) :
    interval r.texts.1 r.texts.2 size = r.selects size ↔ r.Fits size := by
  cases r with
  | closed a b =>
    simp only [interval, ByteRange.texts, ByteRange.selects, ByteRange.Fits, a.ne_nil, b.ne_nil,
      if_false]
    rcases lt_or_ge a.value (2 ^ 63) with ha | ha
    · rw [Digits.parse_of_lt ha, Option.bind_some]
      rcases lt_or_ge b.value (2 ^ 63) with hb | hb
      · rw [Digits.parse_of_lt hb, Option.bind_some]
        refine iff_of_true ?_ (.inl hb)
        split_ifs <;> first | rfl | omega
      · rw [Digits.parse_of_le hb, Option.bind_none]
        split_ifs <;> first | omega | (simp; omega)
    · rw [Digits.parse_of_le ha, Option.bind_none, if_neg (by omega)]
      exact iff_of_true rfl (.inr (by omega))
  | onward a =>
    simp only [interval, ByteRange.texts, ByteRange.selects, ByteRange.Fits, a.ne_nil, if_false,
      if_true, iff_true]
    rcases lt_or_ge a.value (2 ^ 63) with ha | ha
    · rw [Digits.parse_of_lt ha, Option.bind_some]
      split_ifs <;> first | rfl | omega | (simp; omega)
    · rw [Digits.parse_of_le ha, Option.bind_none, if_neg (by omega)]
  | suffix b =>
    have hb := b.value_nonneg
    simp only [interval, ByteRange.texts, ByteRange.selects, ByteRange.Fits, if_true]
    rcases lt_or_ge b.value (2 ^ 63) with hb | hb
    · rw [Digits.parse_of_lt hb, Option.bind_some]
      refine iff_of_true ?_ hb
      split_ifs <;> first | rfl | omega
    · rw [Digits.parse_of_le hb, Option.bind_none, if_pos (by omega)]
      exact iff_of_false (by simp) (not_lt.mpr hb)

/-- A position or a length beyond the bound has no interval. -/
lemma interval_of_not_fits {r : ByteRange} (hmax : size < 2 ^ 63) (h : ¬ r.Fits size) :
    interval r.texts.1 r.texts.2 size = none := by
  cases r with
  | closed a b =>
    obtain ⟨hb, ha⟩ := not_or.mp h
    simp only [interval, ByteRange.texts, a.ne_nil, b.ne_nil, if_false]
    rw [Digits.parse_of_lt (by omega), Option.bind_some, Digits.parse_of_le (not_lt.mp hb),
      Option.bind_none, ite_self]
  | onward a => exact absurd trivial h
  | suffix b =>
    simp only [interval, ByteRange.texts, if_true]
    rw [Digits.parse_of_le (not_lt.mp h), Option.bind_none]

/-- An interval has bytes, and all of them are there. -/
lemma interval_within {start length : ℤ} (hsize : 0 < size)
    (h : interval a b size = some (start, length)) :
    0 ≤ start ∧ 0 < length ∧ start + length ≤ size := by
  unfold interval at h
  split_ifs at h with ha hb
  · obtain ⟨n, hn, h⟩ := Option.bind_eq_some_iff.mp h
    have hpos := parseDecimal_nonneg hn
    split_ifs at h with hzero
    cases h
    omega
  · obtain ⟨n, hn, h⟩ := Option.bind_eq_some_iff.mp h
    have hpos := parseDecimal_nonneg hn
    split_ifs at h with hbehind
    cases h
    omega
  · obtain ⟨n, hn, h⟩ := Option.bind_eq_some_iff.mp h
    have hpos := parseDecimal_nonneg hn
    split_ifs at h with hbehind
    obtain ⟨last, -, h⟩ := Option.bind_eq_some_iff.mp h
    split_ifs at h with hlast
    cases h
    omega

lemma cut_append {c : UInt8} (h : c ∉ a) : cut c (a ++ c :: b) = some (a, b) := by
  have hall : ∀ d ∈ a, decide (d ≠ c) = true := fun d hd =>
    decide_eq_true fun heq => h (heq ▸ hd)
  rw [cut, if_pos (by simp), List.takeWhile_append_of_pos hall, List.dropWhile_append_of_pos hall]
  simp

lemma ByteRange.not_mem_texts {r : ByteRange} {c : UInt8} (h : ¬ IsDigit c) :
    c ∉ r.texts.1 ∧ c ∉ r.texts.2 := by
  have hdigits : ∀ d : Digits, c ∉ d.text := fun d hc => h (d.digits c hc)
  cases r <;> simp [ByteRange.texts, hdigits]

/-- A range in bytes is answered by the interval of its texts. -/
lemma downloadRange_text (r : ByteRange) (hsize : 0 < size) (hlen : r.text.length ≤ 128) :
    downloadRange r.text size = answerTo size (interval r.texts.1 r.texts.2 size) := by
  have hdash := (@ByteRange.not_mem_texts r 45 (by decide)).1
  have hcomma := @ByteRange.not_mem_texts r 44 (by decide)
  have hcut : cut 61 r.text = some (ascii "bytes", r.texts.1 ++ 45 :: r.texts.2) :=
    @cut_append (ascii "bytes") _ 61 (by decide)
  have hunit : equalFold (trimSpace (ascii "bytes")) (ascii "bytes") = true := by decide
  have hsame : equalFold (ascii "bytes") (ascii "bytes") = true := by decide
  have hne : r.text ≠ [] := List.append_ne_nil_of_left_ne_nil (by decide) _
  unfold downloadRange
  simp only [if_neg hne, hcut, hunit, hsame, cut_append hdash]
  rw [if_neg (by simp [hcomma]), if_neg (by simp; omega), Option.bind_some]

lemma answerTo_inj {o o' : Option (ℤ × ℤ)} (h : answerTo size o = answerTo size o') : o = o' := by
  rcases o with _ | ⟨s, l⟩ <;> rcases o' with _ | ⟨s', l'⟩ <;> simp_all [answerTo]

lemma interval_of_partial {value : Bytes} (h : (downloadRange value size).status = 206) :
    ∃ a b start length, 0 < size ∧ interval a b size = some (start, length) ∧
      downloadRange value size = ⟨start, length, 206⟩ := by
  unfold downloadRange at h ⊢
  rcases hcut : cut 61 value with _ | ⟨unit, spec⟩ <;> simp only [hcut] at h ⊢
  · split_ifs at h <;> cases h
  · split_ifs at h ⊢ with hempty hunit hbad <;> try cases h
    rcases hspec : (cut 45 spec).bind fun (a, b) => interval a b size with _ | ⟨start, length⟩
    · rw [hspec] at h
      cases h
    · obtain ⟨⟨a, b⟩, -, hinterval⟩ := Option.bind_eq_some_iff.mp hspec
      exact ⟨a, b, start, length, by omega, hinterval, rfl⟩

/-- **Ranges are answered as RFC 9110 says exactly within the bound of 64 bits, and with 416 beyond
it**; every interval of an answer has bytes and lies within the file.
Source: `download_range.go` `downloadRange`; `download.md`, "checked integer arithmetic". -/
theorem ranges_follow_rfc (size : ℤ) :
    (∀ r : ByteRange, 0 < size → size < 2 ^ 63 → r.text.length ≤ 128 →
      (downloadRange r.text size = answerTo size (r.selects size) ↔ r.Fits size) ∧
      (¬ r.Fits size → downloadRange r.text size = answerTo size none)) ∧
    ∀ value, (downloadRange value size).status = 206 →
      0 ≤ (downloadRange value size).start ∧ 0 < (downloadRange value size).length ∧
        (downloadRange value size).start + (downloadRange value size).length ≤ size := by
  constructor
  · intro r hsize hmax hlen
    rw [downloadRange_text r hsize hlen, ← interval_eq_selects_iff r hmax]
    refine ⟨⟨answerTo_inj, congrArg _⟩, fun h => ?_⟩
    rw [interval_eq_selects_iff r hmax] at h
    rw [interval_of_not_fits hmax h]
  · intro value h
    obtain ⟨a, b, start, length, hsize, hinterval, heq⟩ := interval_of_partial h
    rw [heq]
    exact interval_within hsize hinterval

/-- A range from the first byte of a file of ten bytes. -/
def fromStart (last : Digits) : ByteRange := .closed ⟨ascii "0", by decide, by decide⟩ last

/-- The last position 2^63, which a signed number of 64 bits does not hold. -/
def beyondInt64 : Digits := ⟨ascii "9223372036854775808", by decide, by decide⟩

/-- The last position 2^63 - 1 is cut down to the end of the file, and 2^63 is refused. -/
theorem bound_of_last_position :
    downloadRange (ascii "bytes=0-9223372036854775807") 10 = ⟨0, 10, 206⟩ ∧
      downloadRange (ascii "bytes=0-9223372036854775808") 10 = ⟨0, 10, 416⟩ := by
  have hlast := (ranges_follow_rfc 10).1
    (fromStart ⟨ascii "9223372036854775807", by decide, by decide⟩) (by decide) (by decide)
    (by decide)
  have hbeyond := (ranges_follow_rfc 10).1 (fromStart beyondInt64) (by decide) (by decide)
    (by decide)
  have hfits : ¬ (fromStart beyondInt64).Fits 10 := by
    rintro (h | h)
    · exact absurd h (by decide)
    · exact absurd h (by decide)
  exact ⟨hlast.1.mpr (.inl (by decide)), hbeyond.2 hfits⟩

/-- A last position of 2^63 in a file of ten bytes. -/
theorem large_last_position_is_refused :
    downloadRange (ascii "bytes=0-9223372036854775808") 10 = answerTo 10 none ∧
      (fromStart beyondInt64).selects 10 = some (0, 10) := by
  decide

end Gogo.Files

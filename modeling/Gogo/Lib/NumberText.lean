import Gogo.Lib.Decimal

/-!
# Reading number tokens

* `readNumber` — the parts of a text, when the text is a JSON number; `readNumber_eq_some_iff` —
  **the parts are those that spell the text**, so the text determines them
  (`Spelling.text_injective`).
* `Canonical.exponential` — the token with one digit before the point and an exponent
  (`canonicalForm_exponential`).
-/

namespace Gogo.Lib

/-! ## Reading -/

/-- The digits in front of a text. -/
def leadingDigits (s : Bytes) : Bytes := s.takeWhile fun c => decide (IsDigit c)

/-- What follows the digits in front of a text. -/
def afterDigits (s : Bytes) : Bytes := s.dropWhile fun c => decide (IsDigit c)

/-- The fraction part in front of a text. -/
def readFraction (s : Bytes) : Option Bytes :=
  if s.head? = some 46 then some (leadingDigits s.tail) else none

/-- What follows the fraction part. -/
def afterFraction (s : Bytes) : Bytes := if s.head? = some 46 then afterDigits s.tail else s

/-- The written sign of an exponent. -/
def leadingSign (s : Bytes) : Option Bool :=
  if s.head? = some 45 then some true else if s.head? = some 43 then some false else none

/-- What follows the sign. -/
def afterSign (s : Bytes) : Bytes := if (leadingSign s).isSome then s.tail else s

/-- The exponent part that a text is, `none` when it is not one. -/
def exponentOf : Bytes → Option (Option ExponentPart)
  | [] => some none
  | c :: s =>
    if h : IsDigits (afterSign s) ∧ afterSign s ≠ [] then
      some (some ⟨c == 69, leadingSign s, afterSign s, h.1, h.2⟩)
    else none

/-- The parts of an unsigned text. -/
def readParts (negative : Bool) (s : Bytes) : Option Spelling :=
  (exponentOf (afterFraction (afterDigits s))).bind fun exponent =>
    if h : (IsDigits (leadingDigits s) ∧ leadingDigits s ≠ []) ∧
        ((leadingDigits s).head? = some 48 → leadingDigits s = [48]) ∧
        ∀ f ∈ readFraction (afterDigits s), IsDigits f ∧ f ≠ [] then
      some ⟨negative, leadingDigits s, readFraction (afterDigits s), exponent, h.1.1, h.1.2,
        h.2.1, h.2.2⟩
    else none

/-- The number that a text is: its parts, when they spell it. -/
def readNumber (s : Bytes) : Option Spelling :=
  let negative := s.head? == some 45
  (readParts negative (if negative then s.tail else s)).filter fun n => n.text == s

open Spelling in
lemma digits_append {a s : Bytes} (ha : IsDigits a) (hs : Stops s) :
    leadingDigits (a ++ s) = a ∧ afterDigits (a ++ s) = s := by
  apply append_inj_of_stops _ ha _ hs
  · exact List.takeWhile_append_dropWhile
  · intro c hc
    have htest := List.mem_takeWhile_imp hc
    exact of_decide_eq_true htest
  · intro c hc
    have hstop := List.head?_dropWhile_not (fun c => decide (IsDigit c)) (a ++ s)
    rw [show (a ++ s).dropWhile (fun c => decide (IsDigit c)) = afterDigits (a ++ s) from rfl,
      Option.mem_def.mp hc] at hstop
    simpa using hstop

lemma leadingSign_append {sign : Option Bool} {s : Bytes} (hs : IsDigits s) :
    leadingSign (ExponentPart.signText sign ++ s) = sign ∧
      afterSign (ExponentPart.signText sign ++ s) = s := by
  have hnone : leadingSign s = none := by
    have hdigit : ∀ c, s.head? = some c → IsDigit c := fun c hc => hs c (List.mem_of_mem_head? hc)
    have hminus : s.head? ≠ some 45 := fun h => absurd (hdigit _ h) (by decide)
    have hplus : s.head? ≠ some 43 := fun h => absurd (hdigit _ h) (by decide)
    rw [leadingSign, if_neg hminus, if_neg hplus]
  rcases sign with _ | _ | _
  · rw [ExponentPart.signText, List.nil_append, afterSign, hnone]
    exact ⟨rfl, rfl⟩
  · exact ⟨rfl, rfl⟩
  · exact ⟨rfl, rfl⟩

lemma exponentOf_text (p : Option ExponentPart) :
    exponentOf (Spelling.exponentText p) = some p := by
  cases p with
  | none => rfl
  | some p =>
    obtain ⟨hsign, hafter⟩ := @leadingSign_append p.sign p.digits p.isDigits
    have hletter : ((if p.upper then 69 else 101 : UInt8) == 69) = p.upper := by
      cases p.upper <;> rfl
    rw [Spelling.exponentText, ExponentPart.text, exponentOf,
      dif_pos (by rw [hafter]; exact ⟨p.isDigits, p.ne_nil⟩)]
    simp only [hsign, hafter, hletter]

lemma readFraction_append (n : Spelling) :
    readFraction (Spelling.fractionText n.fraction ++ Spelling.exponentText n.exponent) =
        n.fraction ∧
      afterFraction (Spelling.fractionText n.fraction ++ Spelling.exponentText n.exponent) =
        Spelling.exponentText n.exponent := by
  cases hf : n.fraction with
  | none =>
    have hhead : (Spelling.exponentText n.exponent).head? ≠ some 46 := by
      cases n.exponent with
      | none => simp [Spelling.exponentText]
      | some p =>
        cases hupper : p.upper <;> simp [Spelling.exponentText, ExponentPart.text, hupper]
    rw [Spelling.fractionText, List.nil_append, readFraction, afterFraction, if_neg hhead,
      if_neg hhead]
    exact ⟨rfl, rfl⟩
  | some f =>
    obtain ⟨hlead, hafter⟩ :=
      digits_append (n.fraction_digits f hf).1 (Spelling.stops_exponentText n.exponent)
    rw [Spelling.fractionText, List.cons_append, readFraction, afterFraction,
      if_pos List.head?_cons, if_pos List.head?_cons, List.tail_cons, hlead, hafter]
    exact ⟨rfl, rfl⟩

lemma readParts_text (n : Spelling) :
    readParts n.negative (n.integer ++ (Spelling.fractionText n.fraction ++
      Spelling.exponentText n.exponent)) = some n := by
  obtain ⟨hinteger, hrest⟩ :=
    digits_append n.integer_digits (Spelling.stops_rest n.fraction n.exponent)
  obtain ⟨hfraction, hexponent⟩ := readFraction_append n
  unfold readParts
  simp only [hrest, hexponent, exponentOf_text, Option.bind_some, hinteger, hfraction]
  rw [dif_pos]
  exact ⟨⟨n.integer_digits, n.integer_ne_nil⟩, n.integer_head, n.fraction_digits⟩

lemma readNumber_text (n : Spelling) : readNumber n.text = some n := by
  have hparts : readParts (n.text.head? == some 45)
      (if n.text.head? == some 45 then n.text.tail else n.text) = some n := by
    have htext := readParts_text n
    cases hneg : n.negative with
    | true =>
      rw [hneg] at htext
      simpa [Spelling.text, hneg] using htext
    | false =>
      have hhead := n.head?_integer_append
        (Spelling.fractionText n.fraction ++ Spelling.exponentText n.exponent)
      rw [hneg] at htext
      rw [Spelling.text, hneg, if_neg Bool.false_ne_true, List.nil_append,
        beq_eq_false_iff_ne.mpr hhead]
      exact htext
  rw [readNumber, hparts]
  simp

/-- **The parts of a token are determined by its text.** -/
theorem Spelling.text_injective {n m : Spelling} (h : n.text = m.text) : n = m := by
  have hn := readNumber_text n
  rw [h, readNumber_text m] at hn
  exact (Option.some.inj hn).symm

/-- **The parts that are read are those that spell the text.** -/
theorem readNumber_eq_some_iff {s : Bytes} {n : Spelling} :
    readNumber s = some n ↔ n.text = s := by
  constructor
  · intro h
    rw [readNumber, Option.filter_eq_some_iff] at h
    exact beq_iff_eq.mp h.2
  · rintro rfl
    exact readNumber_text n

/-! ## Scientific notation -/

/-- The digits after the first one, as a fraction part. -/
def fractionOf (digits : Bytes) : Option Bytes :=
  if digits.length = 1 then none else some (digits.drop 1)

section FirstDigit

variable {digits : Bytes}

lemma Trimmed.isDigits_take (h : Trimmed digits) : IsDigits (digits.take 1) :=
  h.digits.of_subset (List.take_subset _ _)

lemma Trimmed.take_ne_nil (h : Trimmed digits) : digits.take 1 ≠ [] := by
  rw [ne_eq, List.take_eq_nil_iff]
  exact fun hnil => hnil.elim (fun hzero => by omega) h.ne_nil

lemma Trimmed.head?_take (h : Trimmed digits) (hzero : (digits.take 1).head? = some 48) :
    digits.take 1 = [48] := by
  rw [List.head?_take, if_neg (by omega)] at hzero
  exact absurd hzero h.head_ne

lemma Trimmed.isDigits_fractionOf (h : Trimmed digits) :
    ∀ f ∈ fractionOf digits, IsDigits f ∧ f ≠ [] := by
  intro f hf
  unfold fractionOf at hf
  split_ifs at hf with hone
  · cases hf
  · obtain rfl := Option.some.inj hf
    have hpos := List.length_pos_of_ne_nil h.ne_nil
    refine ⟨h.digits.of_subset (List.drop_subset _ _), ?_⟩
    rw [ne_eq, List.drop_eq_nil_iff]
    omega

lemma take_append_fractionOf (digits : Bytes) :
    digits.take 1 ++ (fractionOf digits).getD [] = digits := by
  unfold fractionOf
  split_ifs with hone
  · rw [Option.getD_none, List.append_nil, List.take_of_length_le (by omega)]
  · exact List.take_append_drop 1 digits

lemma length_fractionOf (digits : Bytes) :
    ((fractionOf digits).getD []).length = digits.length - 1 := by
  unfold fractionOf
  split_ifs with hone
  · simp [hone]
  · simp

end FirstDigit

/-- One digit, the others after the point, and an exponent. -/
def Canonical.exponential : Canonical → Spelling
  | zero => zeroToken
  | scientific negative digits trimmed exponent =>
    { negative := negative
      integer := digits.take 1
      fraction := fractionOf digits
      exponent := exponentPart (digits.length + exponent - 1)
      integer_digits := trimmed.isDigits_take
      integer_ne_nil := trimmed.take_ne_nil
      integer_head := trimmed.head?_take
      fraction_digits := trimmed.isDigits_fractionOf }

lemma Canonical.value_exponential (c : Canonical) : c.exponential.value = c.value := by
  cases c with
  | zero => exact value_spelling .zero
  | scientific negative digits trimmed exponent =>
    have hpos := List.length_pos_of_ne_nil trimmed.ne_nil
    have hscale : (digits.length + exponent - 1 : ℤ) - ((fractionOf digits).getD []).length =
        exponent := by
      rw [length_fractionOf]
      omega
    simp only [exponential, Spelling.value, Spelling.digits, Spelling.scale, Spelling.power,
      power_exponentPart, take_append_fractionOf, hscale, value]

lemma canonicalForm_exponential (c : Canonical) : canonicalForm c.exponential = c := by
  refine Canonical.value_injective ?_
  rw [value_canonicalForm, c.value_exponential]

end Gogo.Lib

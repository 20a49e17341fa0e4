import Gogo.Lib.RationalText
import Gogo.Lib.Run
import Gogo.Models.Schema

/-!
# Decimal fields

`core/models/validation.go`, `Field.Clean` on a string for a `Decimal` field: `big.Rat` reads the
text, and the digits of the text are counted against the precision of the column.

* `cleanDecimal` — the branch of the switch; `Field.cleanText` — with the test for a blank in front
  and the checks of choices, bounds and validators behind it.
* `Fits` — the number fits a column with so many digits and decimal places.
* `SafelyCounted` — the spellings whose digits may be counted as decimal ones: no binary exponent,
  and no prefix or the one for base 2, or that for base 8 or (with four digits at most) for base 16
  where there is no point.
* `fits_of_safelyCounted` — **an accepted text of such a spelling fits.**
* `accepted_decimals_fit` — **every accepted text of such a spelling fits, and the other kinds of
  spelling have accepted texts that do not:** digits are counted as decimal ones and the exponent as
  digits, whatever the prefix.
-/

namespace Gogo.Models

open List Gogo.Lib

/-! ## The check -/

/-- Source: `validation.go` `FieldError`, as `Invalid` makes it. -/
structure FieldError where
  code : String
  message : String
deriving DecidableEq

/-- Source: `strings.TrimPrefix`, for one character. -/
def trimFirst (mark : Char) : List Char → List Char
  | [] => []
  | c :: rest => if c = mark then rest else c :: rest

def trimSign (text : List Char) : List Char := trimFirst '+' (trimFirst '-' text)

/-- Source: `strings.Split(text, ".")`. -/
def splitPoints : List Char → List (List Char)
  | [] => [[]]
  | c :: rest =>
    if c = '.' then [] :: splitPoints rest
    else match splitPoints rest with
      | [] => [[c]]
      | part :: parts => (c :: part) :: parts

/-- The digits that are counted in front of the first point. -/
def wholeDigits (text : List Char) : ℕ :=
  (((splitPoints (trimSign text)).headD []).dropWhile (· = '0')).length

/-- The digits that are counted behind the first point. -/
def placeDigits (text : List Char) : ℕ :=
  let parts := splitPoints (trimSign text)
  if parts.length > 1 then (parts.getD 1 []).length else 0

/-- Source: `Field.Clean`, the case `Decimal` of the switch, for a string. -/
def cleanDecimal (f : Field) (text : String) : Except FieldError String :=
  if (setString text.toList).isNone || text.toList.any (fun c => c = '/' || c = 'e' || c = 'E') then
    .error ⟨"invalid", "Enter a decimal number without an exponent."⟩
  else if (placeDigits text.toList : ℤ) > f.decimalPlaces ||
      (wholeDigits text.toList : ℤ) > f.maxDigits - f.decimalPlaces ||
      (wholeDigits text.toList + placeDigits text.toList : ℤ) > f.maxDigits then
    .error ⟨"precision", "Decimal exceeds declared precision."⟩
  else .ok text

/-- `Field.Clean` on a string, for a decimal field; `later` stands for the choices, the bounds and
the validators of the field. -/
def Field.cleanText (later : Field → String → Except FieldError Unit) (f : Field) (text : String) :
    Except FieldError String :=
  if text = "" then
    if f.blank then .ok text else .error ⟨"blank", "This field cannot be blank."⟩
  else do
    let value ← cleanDecimal f text
    later f value
    .ok value

/-- The number fits the column: `MaxDigits` digits, `DecimalPlaces` of them behind the point. -/
def Fits (f : Field) (v : ℚ) : Prop :=
  |v| < 10 ^ (f.maxDigits - f.decimalPlaces).toNat ∧
    ∃ n : ℤ, v * 10 ^ f.decimalPlaces.toNat = n

/-- The text has an exponent to base two. -/
def hasBinaryExponent (text : List Char) : Bool := text.any fun c => c = 'p' || c = 'P'

/-- The digits of the text may be counted as decimal ones. Base 8 has fewer digits than base 10, but
its places are not decimal places; up to four digits of base 16, together with the letter of their
prefix, are not too few for the number. -/
def SafelyCounted (text : List Char) : Prop :=
  hasBinaryExponent text = false ∧
    (radixOf text = .decimal ∨ radixOf text = .binary ∨
      ('.' ∉ text ∧ (radixOf text = .octal ∨
        (radixOf text = .hexadecimal ∧ (bodyOf text).length ≤ 4))))

/-! ## Counting -/

lemma splitPoints_eq (text : List Char) :
    splitPoints text = beforePoint text ::
      (if '.' ∈ text then splitPoints (behindPoint text) else []) := by
  induction text with
  | nil => rfl
  | cons c rest ih =>
    by_cases hc : c = '.'
    · subst hc
      rw [if_pos mem_cons_self]
      rfl
    · have hbefore : beforePoint (c :: rest) = c :: beforePoint rest := by
        unfold beforePoint
        rw [takeWhile_cons_of_pos (by simpa using hc)]
      have hbehind : behindPoint (c :: rest) = behindPoint rest := by
        unfold behindPoint
        rw [dropWhile_cons_of_pos (by simpa using hc)]
      have hmem : '.' ∈ c :: rest ↔ '.' ∈ rest := by
        rw [mem_cons]
        exact or_iff_right (Ne.symm hc)
      rw [splitPoints, if_neg hc, ih, hbefore, hbehind]
      simp only [hmem]

variable {text u : List Char} {radix : Radix}

lemma beforePoint_of_not_mem (h : '.' ∉ text) : beforePoint text = text := by
  unfold beforePoint
  exact takeWhile_eq_self_iff.mpr fun c hc => by
    simp only [decide_eq_true_eq]
    rintro rfl
    exact h hc

lemma behindPoint_of_not_mem (h : '.' ∉ text) : behindPoint text = [] := by
  unfold behindPoint
  rw [dropWhile_eq_nil_iff.mpr]
  · rfl
  · intro c hc
    simp only [decide_eq_true_eq]
    rintro rfl
    exact h hc

/-- With one point at most, the two parts are counted. -/
lemma placeDigits_eq (hu : trimSign text = u) (hone : '.' ∉ behindPoint u) :
    placeDigits text = (behindPoint u).length := by
  unfold placeDigits
  rw [hu, splitPoints_eq]
  by_cases hpoint : '.' ∈ u
  · rw [if_pos hpoint, splitPoints_eq, beforePoint_of_not_mem hone, if_neg hone]
    rfl
  · rw [if_neg hpoint, behindPoint_of_not_mem hpoint]
    rfl

lemma wholeDigits_eq (hu : trimSign text = u) :
    wholeDigits text = ((beforePoint u).dropWhile (· = '0')).length := by
  unfold wholeDigits
  rw [hu, splitPoints_eq]
  rfl

/-- Zeros in front do not change the number. -/
lemma digitsValue_dropWhile_zero (base : ℕ) (s : List Char) :
    digitsValue base (withoutSeparators (s.dropWhile (· = '0'))) =
      digitsValue base (withoutSeparators s) := by
  induction s with
  | nil => rfl
  | cons c s ih =>
    by_cases hc : c = '0'
    · subst hc
      have hzero : (digitValue '0').getD 0 = 0 := by decide
      have hkeep : withoutSeparators ('0' :: s) = '0' :: withoutSeparators s := by
        unfold withoutSeparators
        rw [filter_cons_of_pos (by decide)]
      rw [dropWhile_cons_of_pos (by decide), ih, hkeep, digitsValue_cons, hzero]
      omega
    · rw [dropWhile_cons_of_neg (by simpa using hc)]

lemma length_withoutSeparators_le (s : List Char) : (withoutSeparators s).length ≤ s.length :=
  length_filter_le _ _

/-- The digits of a mantissa on either side of the point. -/
lemma isDigitOf_of_mem {body part : List Char} (hbody : body.all (inMantissa radix) = true)
    (hpart : part ⊆ body) (hpoint : '.' ∉ part) {c : Char} (hc : c ∈ withoutSeparators part) :
    isDigitOf radix.base c = true := by
  obtain ⟨hmem, hsep⟩ := mem_filter.mp hc
  have hin := all_eq_true.mp hbody c (hpart hmem)
  unfold inMantissa at hin
  simp only [Bool.or_eq_true, beq_iff_eq] at hin
  rcases hin with (hdigit | hsep') | hdot
  · exact hdigit
  · simp [hsep'] at hsep
  · exact absurd (hdot ▸ hmem) hpoint

lemma not_mem_beforePoint (text : List Char) : '.' ∉ beforePoint text := by
  intro hmem
  have htest := mem_takeWhile_imp hmem
  simp at htest

lemma behindPoint_subset (text : List Char) : behindPoint text ⊆ text :=
  fun _ hc => (dropWhile_suffix _).subset (drop_subset 1 _ hc)

/-! ## Spellings that fit -/

section Plain

variable {f : Field} {text : String} {r : Reading}

variable {value : String}

lemma cleanDecimal_eq_ok (h : cleanDecimal f text = .ok value) :
    (∃ r, setString text.toList = some r) ∧ (∀ c ∈ text.toList, c ≠ 'e' ∧ c ≠ 'E') ∧
      (placeDigits text.toList : ℤ) ≤ f.decimalPlaces ∧
      (wholeDigits text.toList : ℤ) ≤ f.maxDigits - f.decimalPlaces := by
  unfold cleanDecimal at h
  split_ifs at h with hinvalid hprecision
  simp only [Bool.or_eq_true, not_or, Option.isNone_iff_eq_none, any_eq_true, not_exists,
    not_and, decide_eq_true_eq] at hinvalid hprecision
  obtain ⟨hread, hmarks⟩ := hinvalid
  refine ⟨Option.ne_none_iff_exists'.mp hread,
    fun c hc => ⟨(hmarks c hc).1.2, (hmarks c hc).2⟩, ?_, ?_⟩
  · omega
  · omega

/-- A text that is read starts with one sign at most. -/
lemma trimSign_eq_unsigned {text : List Char}
    (hbody : (bodyOf text).all (inMantissa (radixOf text)) = true) :
    trimSign text = unsigned text := by
  have hplus : ∀ rest, unsigned text ≠ '+' :: rest := by
    intro rest heq
    rcases unsigned_cases text with ⟨hradix, hbodyEq⟩ | ⟨letter, -, hmarked⟩
    · have hmem : '+' ∈ bodyOf text := by
        rw [← hbodyEq, heq]
        exact mem_cons_self
      have hin := all_eq_true.mp hbody '+' hmem
      rw [hradix] at hin
      exact absurd hin (by decide)
    · rw [heq] at hmarked
      cases hmarked
  have htrim : ∀ u, (∀ rest, u ≠ '+' :: rest) → trimFirst '+' u = u := by
    intro u hu
    rcases u with _ | ⟨c, rest⟩
    · rfl
    · have hc : c ≠ '+' := fun heq => hu rest (heq ▸ rfl)
      rw [trimFirst, if_neg hc]
  unfold trimSign
  rcases text with _ | ⟨c, rest⟩
  · rfl
  by_cases hminus : c = '-'
  · subst hminus
    exact htrim rest hplus
  rw [trimFirst, if_neg hminus]
  by_cases hsign : c = '+'
  · subst hsign
    rfl
  have hsame : unsigned (c :: rest) = c :: rest := by
    unfold unsigned readSign
    split
    · next heq => exact absurd (List.cons.inj heq).1 hminus
    · next heq => exact absurd (List.cons.inj heq).1 hsign
    · rfl
  rw [hsame]
  exact htrim (c :: rest) (hsame ▸ hplus)

/-- The letter of a prefix makes up for what a digit of its base has more than a decimal one. -/
lemma base_pow_le {text : List Char} (h : SafelyCounted text) {n : ℕ}
    (hn : n ≤ (bodyOf text).length) : (radixOf text).base ^ n ≤ 10 ^ (n + 1) := by
  have hten : (radixOf text).base ≤ 10 → (radixOf text).base ^ n ≤ 10 ^ (n + 1) := fun hbase =>
    (Nat.pow_le_pow_left hbase n).trans (Nat.pow_le_pow_right (by decide) (Nat.le_succ n))
  rcases h.2 with hradix | hradix | ⟨-, hradix | ⟨hradix, hlength⟩⟩
  · exact hten (by rw [hradix]; decide)
  · exact hten (by rw [hradix]; decide)
  · exact hten (by rw [hradix]; decide)
  · rw [hradix]
    have hfour : n ≤ 4 := hn.trans hlength
    interval_cases n <;> decide

/-- The places of a number are decimal places. -/
lemma base_pow_places_dvd {text : List Char} (h : SafelyCounted text) {n : ℕ}
    (hn : (withoutSeparators (behindPoint (bodyOf text))).length ≤ n) :
    (radixOf text).base ^ (withoutSeparators (behindPoint (bodyOf text))).length ∣ 10 ^ n := by
  have hten : (radixOf text).base ∣ 10 →
      (radixOf text).base ^ (withoutSeparators (behindPoint (bodyOf text))).length ∣ 10 ^ n :=
    fun hbase => (pow_dvd_pow_of_dvd hbase _).trans (pow_dvd_pow _ hn)
  rcases h.2 with hradix | hradix | ⟨hpoint, -⟩
  · exact hten (by rw [hradix]; decide)
  · exact hten (by rw [hradix]; decide)
  · rw [behindPoint_of_not_mem fun hmem => hpoint ((bodyOf_suffix text).subset hmem)]
    exact one_dvd _

/-- The whole part of a number is below the power of ten that its digits are counted for. -/
lemma wholeValue_lt {text : List Char}
    (hbody : (bodyOf text).all (inMantissa (radixOf text)) = true) (h : SafelyCounted text) :
    digitsValue (radixOf text).base (withoutSeparators (beforePoint (bodyOf text))) <
      10 ^ wholeDigits text := by
  have hdigits : ∀ c ∈ withoutSeparators (beforePoint (bodyOf text)),
      isDigitOf (radixOf text).base c = true := fun c hc =>
    isDigitOf_of_mem hbody (takeWhile_subset _) (not_mem_beforePoint _) hc
  rw [wholeDigits_eq (trimSign_eq_unsigned hbody)]
  rcases unsigned_cases text with ⟨hdecimal, heq⟩ | ⟨letter, hletter, heq⟩
  · -- zeros in front are not counted and say nothing
    rw [heq, hdecimal, ← digitsValue_dropWhile_zero]
    rw [hdecimal] at hdigits
    refine lt_of_lt_of_le (digitsValue_lt fun c hc => ?_)
      (Nat.pow_le_pow_right (by decide) (length_withoutSeparators_le _))
    refine hdigits c ?_
    obtain ⟨hmem, hsep⟩ := mem_filter.mp hc
    exact mem_filter.mpr ⟨(dropWhile_suffix _).subset hmem, hsep⟩
  · have hne : letter ≠ '.' ∧ letter ≠ '0' := by
      constructor <;> rintro rfl <;> exact absurd hletter (by decide)
    have hbefore : beforePoint (unsigned text) = '0' :: letter :: beforePoint (bodyOf text) := by
      rw [heq]
      unfold beforePoint
      rw [takeWhile_cons_of_pos (by decide),
        takeWhile_cons_of_pos (by simpa using hne.1)]
    rw [hbefore, dropWhile_cons_of_pos (by decide),
      dropWhile_cons_of_neg (by simpa using hne.2), length_cons]
    have hlength := length_withoutSeparators_le (beforePoint (bodyOf text))
    calc digitsValue (radixOf text).base (withoutSeparators (beforePoint (bodyOf text)))
        < (radixOf text).base ^ (withoutSeparators (beforePoint (bodyOf text))).length :=
          digitsValue_lt hdigits
      _ ≤ 10 ^ ((withoutSeparators (beforePoint (bodyOf text))).length + 1) :=
          base_pow_le h (hlength.trans (takeWhile_sublist _).length_le)
      _ ≤ 10 ^ ((beforePoint (bodyOf text)).length + 1) :=
          Nat.pow_le_pow_right (by decide) (Nat.succ_le_succ hlength)

/-- The digits behind the point are counted, with or without a prefix. -/
lemma places_le {text : List Char}
    (hbody : (bodyOf text).all (inMantissa (radixOf text)) = true)
    (hone : '.' ∉ behindPoint (bodyOf text)) :
    (withoutSeparators (behindPoint (bodyOf text))).length ≤ placeDigits text := by
  have hbehind : behindPoint (unsigned text) = behindPoint (bodyOf text) := by
    rcases unsigned_cases text with ⟨-, heq⟩ | ⟨letter, hletter, heq⟩
    · rw [heq]
    · have hne : letter ≠ '.' := by
        rintro rfl
        exact absurd hletter (by decide)
      rw [heq]
      unfold behindPoint
      rw [dropWhile_cons_of_pos (by decide),
        dropWhile_cons_of_pos (by simpa using hne)]
  rw [placeDigits_eq (trimSign_eq_unsigned hbody) (hbehind ▸ hone), hbehind]
  exact length_withoutSeparators_le _

/-- **An accepted spelling whose digits may be counted as decimal ones fits.** -/
theorem fits_of_safelyCounted (hplaces : 0 ≤ f.decimalPlaces)
    (hdigits : f.decimalPlaces ≤ f.maxDigits) (h : cleanDecimal f text = .ok value)
    (hread : setString text.toList = some r) (hcounted : SafelyCounted text.toList) :
    Fits f r.value := by
  obtain ⟨-, hmarks, hplace, hwhole⟩ := cleanDecimal_eq_ok h
  have hmark : hasExponentMark (bodyOf text.toList) = false := by
    refine any_eq_false.mpr fun c hc => ?_
    have hmem := (bodyOf_suffix text.toList).subset hc
    have hbinary := any_eq_false.mp hcounted.1 c hmem
    have hdecimal := hmarks c hmem
    simp only [Bool.or_eq_true, decide_eq_true_eq, not_or] at hbinary ⊢
    exact ⟨⟨⟨hdecimal.1, hdecimal.2⟩, hbinary.1⟩, hbinary.2⟩
  obtain ⟨hbody, hone, hr, hk, hm, he⟩ := setString_plain hmark hread
  have hle : r.places ≤ f.decimalPlaces.toNat := by
    have hcount := places_le hbody hone
    omega
  constructor
  · have hlt : r.mantissa < 10 ^ (f.maxDigits - f.decimalPlaces).toNat *
        r.radix.base ^ r.places := by
      have hpart : digitsValue (radixOf text.toList).base
          (withoutSeparators (behindPoint (bodyOf text.toList))) <
          (radixOf text.toList).base ^
            (withoutSeparators (behindPoint (bodyOf text.toList))).length :=
        digitsValue_lt fun c hc =>
          isDigitOf_of_mem hbody (behindPoint_subset _) hone hc
      have hpow : 10 ^ wholeDigits text.toList ≤ 10 ^ (f.maxDigits - f.decimalPlaces).toNat :=
        Nat.pow_le_pow_right (by decide) (by omega)
      rw [hm, hr, hk, digitsValue_append]
      calc _ < digitsValue (radixOf text.toList).base
              (withoutSeparators (beforePoint (bodyOf text.toList))) *
              (radixOf text.toList).base ^
                (withoutSeparators (behindPoint (bodyOf text.toList))).length +
            (radixOf text.toList).base ^
              (withoutSeparators (behindPoint (bodyOf text.toList))).length :=
            Nat.add_lt_add_left hpart _
        _ = (digitsValue (radixOf text.toList).base
              (withoutSeparators (beforePoint (bodyOf text.toList))) + 1) *
              (radixOf text.toList).base ^
                (withoutSeparators (behindPoint (bodyOf text.toList))).length := by ring
        _ ≤ _ := Nat.mul_le_mul_right _ ((wholeValue_lt hbody hcounted).trans_le hpow)
    have habs := abs_value_lt he hlt
    push_cast at habs
    exact habs
  · have hdvd : r.radix.base ^ r.places ∣ 10 ^ f.decimalPlaces.toNat := by
      rw [hr, hk]
      exact base_pow_places_dvd hcounted (hk ▸ hle)
    obtain ⟨z, hz⟩ := value_mul_isInt he hdvd
    push_cast at hz
    exact ⟨z, hz⟩

end Plain

/-! ## Spellings that do not fit -/

def decimalColumn (digits places : ℤ) : Field :=
  { kind := .known .decimal, maxDigits := digits, decimalPlaces := places }

/-- No further checks. -/
def noChecks (_ : Field) (_ : String) : Except FieldError Unit := .ok ()

/-- A power of two that is too large for five digits. -/
lemma not_fits_power {f : Field} (hsize : (f.maxDigits - f.decimalPlaces).toNat = 5) {r : Reading}
    (hr : r.value = 2 ^ 99) : ¬ Fits f r.value := by
  rintro ⟨hlt, -⟩
  rw [hr, hsize] at hlt
  norm_num at hlt

/-- One eighth or one sixteenth, which has more than one decimal place. -/
lemma not_fits_fraction {radix : Radix} (h : radix = .octal ∨ radix = .hexadecimal) :
    ¬ Fits (decimalColumn 3 1) (Reading.value ⟨false, radix, 1, 1, 10, 0⟩) := by
  rintro ⟨-, n, hn⟩
  have hplaces : (decimalColumn 3 1).decimalPlaces.toNat = 1 := rfl
  rw [hplaces, value_of_exponent_eq_zero rfl] at hn
  rcases h with rfl | rfl
  · have heq : (10 : ℚ) = 8 * n := by
      rw [← hn]
      norm_num [Radix.base]
    have hint : (10 : ℤ) = 8 * n := by exact_mod_cast heq
    omega
  · have heq : (10 : ℚ) = 16 * n := by
      rw [← hn]
      norm_num [Radix.base]
    have hint : (10 : ℤ) = 16 * n := by exact_mod_cast heq
    omega

/-- Five digits of base 16 that stand for a number with seven decimal ones. -/
lemma not_fits_hexadecimal :
    ¬ Fits (decimalColumn 6 0) (Reading.value ⟨false, .hexadecimal, 1048575, 0, 10, 0⟩) := by
  rintro ⟨hlt, -⟩
  have hsize : ((decimalColumn 6 0).maxDigits - (decimalColumn 6 0).decimalPlaces).toNat = 6 := rfl
  rw [value_of_exponent_eq_zero rfl, hsize] at hlt
  norm_num [Radix.base] at hlt

/-- Every accepted text of a kind fits: of one base, with or without a binary exponent, and with or
without a point. -/
def AlwaysFits (radix : Radix) (exponent point : Bool) : Prop :=
  ∀ (f : Field) (text : String) (r : Reading), 0 ≤ f.decimalPlaces →
    f.decimalPlaces ≤ f.maxDigits → radixOf text.toList = radix →
    hasBinaryExponent text.toList = exponent → decide ('.' ∈ text.toList) = point →
    f.cleanText noChecks text = .ok text → setString text.toList = some r → Fits f r.value

/-- The kinds of which every accepted text fits. -/
lemma kind_of_alwaysFits {radix : Radix} {exponent point : Bool}
    (h : AlwaysFits radix exponent point) :
    exponent = false ∧
      (radix = .decimal ∨ radix = .binary ∨ (radix = .octal ∧ point = false)) := by
  -- one accepted text that does not fit for each of the other kinds
  have hpower := fun text r => h (decimalColumn 9 4) text r (by decide) (by decide)
  have hvalue : Reading.value ⟨false, radix, 1, 0, 2, 99⟩ = 2 ^ 99 ∧
      Reading.value ⟨false, radix, radix.base, 1, 2, 99⟩ = 2 ^ 99 := by
    unfold Reading.value
    cases radix <;> norm_num [Radix.base]
  cases exponent with
  | true =>
    exfalso
    cases point with
    | false =>
      refine @not_fits_power (decimalColumn 9 4) rfl _ hvalue.1 ?_
      cases radix with
      | decimal => exact hpower "1p99" _ rfl rfl rfl rfl rfl
      | binary => exact hpower "0b1p99" _ rfl rfl rfl rfl rfl
      | octal => exact hpower "0o1p99" _ rfl rfl rfl rfl rfl
      | hexadecimal => exact hpower "0x1p99" _ rfl rfl rfl rfl rfl
    | true =>
      refine @not_fits_power (decimalColumn 9 4) rfl _ hvalue.2 ?_
      cases radix with
      | decimal => exact hpower "1.0p99" _ rfl rfl rfl rfl rfl
      | binary => exact hpower "0b1.0p99" _ rfl rfl rfl rfl rfl
      | octal => exact hpower "0o1.0p99" _ rfl rfl rfl rfl rfl
      | hexadecimal => exact hpower "0x1.0p99" _ rfl rfl rfl rfl rfl
  | false =>
    refine ⟨rfl, ?_⟩
    have hfraction := fun text r => h (decimalColumn 3 1) text r (by decide) (by decide)
    cases radix with
    | decimal => exact .inl rfl
    | binary => exact .inr (.inl rfl)
    | octal =>
      cases point with
      | false => exact .inr (.inr ⟨rfl, rfl⟩)
      | true => exact absurd (hfraction "0o0.1" _ rfl rfl rfl rfl rfl) (not_fits_fraction (.inl rfl))
    | hexadecimal =>
      exfalso
      cases point with
      | false =>
        exact not_fits_hexadecimal
          (h (decimalColumn 6 0) "0xFFFFF" _ (by decide) (by decide) rfl rfl rfl rfl rfl)
      | true => exact not_fits_fraction (.inr rfl) (hfraction "0x0.1" _ rfl rfl rfl rfl rfl)

/-- **An accepted text whose digits may be counted as decimal ones fits its column**, whatever the
checks of choices, bounds and validators are. And no other kind of spelling can be trusted: of the
kinds by base, binary exponent and point, all accepted texts fit only of those that are always
counted safely.
Source: `validation.go` `Field.Clean`, the case `Decimal`. -/
theorem accepted_decimals_fit (later : Field → String → Except FieldError Unit) (f : Field)
    (text value : String) (r : Reading) :
    (f.kind = .known .decimal → 0 ≤ f.decimalPlaces → f.decimalPlaces ≤ f.maxDigits → text ≠ "" →
      SafelyCounted text.toList → f.cleanText later text = .ok value →
      setString text.toList = some r → Fits f r.value) ∧
    ∀ (radix : Radix) (exponent point : Bool), AlwaysFits radix exponent point ↔
      exponent = false ∧
        (radix = .decimal ∨ radix = .binary ∨ (radix = .octal ∧ point = false)) := by
  have hclean : ∀ (later : Field → String → Except FieldError Unit) (f : Field)
      (text value : String), text ≠ "" → f.cleanText later text = .ok value →
      ∃ cleaned, cleanDecimal f text = .ok cleaned := by
    intro later f text value hne h
    unfold Field.cleanText at h
    rw [if_neg hne] at h
    obtain ⟨cleaned, hcleaned, -⟩ := bind_eq_ok.mp h
    exact ⟨cleaned, hcleaned⟩
  refine ⟨?_, fun radix exponent point => ⟨kind_of_alwaysFits, ?_⟩⟩
  · intro _ hplaces hdigits hne hcounted h hread
    obtain ⟨cleaned, hcleaned⟩ := hclean later f text value hne h
    exact fits_of_safelyCounted hplaces hdigits hcleaned hread hcounted
  · rintro ⟨rfl, hradix⟩ f text r hplaces hdigits rfl hexponent rfl h hread
    have hne : text ≠ "" := by
      rintro rfl
      cases hread
    obtain ⟨cleaned, hcleaned⟩ := hclean noChecks f text text hne h
    refine fits_of_safelyCounted hplaces hdigits hcleaned hread ⟨hexponent, ?_⟩
    rcases hradix with hradix | hradix | ⟨hradix, hpoint⟩
    · exact .inl hradix
    · exact .inr (.inl hradix)
    · exact .inr (.inr ⟨of_decide_eq_false hpoint, .inl hradix⟩)

/-- A price fits its column of five digits with two places, and so does an octal number. -/
theorem accepted_price_fits :
    (decimalColumn 5 2).cleanText noChecks "-012.50" = .ok "-012.50" ∧
      Fits (decimalColumn 5 2) (Reading.value ⟨true, .decimal, 1250, 2, 10, 0⟩) ∧
      (decimalColumn 5 2).cleanText noChecks "0o17" = .ok "0o17" ∧
      Fits (decimalColumn 5 2) (Reading.value ⟨false, .octal, 15, 0, 10, 0⟩) := by
  refine ⟨rfl, ?_, rfl, ?_⟩
  · exact (accepted_decimals_fit noChecks (decimalColumn 5 2) "-012.50" "-012.50" _).1 rfl
      (by decide) (by decide) (by decide) ⟨rfl, .inl rfl⟩ rfl rfl
  · exact (accepted_decimals_fit noChecks (decimalColumn 5 2) "0o17" "0o17" _).1 rfl
      (by decide) (by decide) (by decide) ⟨rfl, .inr (.inr ⟨by decide, .inl rfl⟩)⟩ rfl rfl

/-- **A binary exponent is counted as digits**: four of them, for a number with thirty. -/
theorem binary_exponent_overflows :
    (decimalColumn 5 0).cleanText noChecks "1p99" = .ok "1p99" ∧
      setString "1p99".toList = some ⟨false, .decimal, 1, 0, 2, 99⟩ ∧
      ¬ Fits (decimalColumn 5 0) (Reading.value ⟨false, .decimal, 1, 0, 2, 99⟩) := by
  refine ⟨rfl, rfl, not_fits_power rfl ?_⟩
  unfold Reading.value
  norm_num

end Gogo.Models

import Mathlib.Data.List.DropRight
import Gogo.Lib.Bytes

/-!
# Decimal numerals and JSON number tokens

* `IsDigits`, `numeral` — digit strings, and how `numeral` treats zeros at either end
  (`numeral_trimLeft`, `numeral_append_zeros`).
* `eq_of_scaled_eq` — a significand without zeros at its ends and a power of ten are determined
  by the number they stand for.
* `Spelling` — a JSON number token by the parts that the grammar gives it; `Spelling.text` is the
  token and `Spelling.value` the rational number it stands for.
* `Canonical`, `canonicalForm` — the normal form of a token; `canonicalForm_eq_iff` — **it is a
  complete invariant of the value.**
-/

namespace Gogo.Lib

open List

/-! ## Digit strings -/

/-- The byte of a decimal digit. -/
def IsDigit (c : UInt8) : Prop := 48 ≤ c.toNat ∧ c.toNat ≤ 57

instance : DecidablePred IsDigit := fun c =>
  inferInstanceAs (Decidable (48 ≤ c.toNat ∧ c.toNat ≤ 57))

/-- Only digits. -/
def IsDigits (s : Bytes) : Prop := ∀ c ∈ s, IsDigit c

instance : DecidablePred IsDigits := fun s => List.decidableBAll IsDigit s

/-- `k` zeros. -/
def zeros (k : ℕ) : Bytes := List.replicate k 48

/-- Without the zeros in front. -/
def trimLeft (s : Bytes) : Bytes := s.dropWhile (· == 48)

/-- Without the zeros at the end. -/
def trimRight (s : Bytes) : Bytes := s.rdropWhile (· == 48)

variable {s t : Bytes} {e f : ℤ}

lemma IsDigits.append (hs : IsDigits s) (ht : IsDigits t) : IsDigits (s ++ t) := by
  intro c hc
  exact (mem_append.mp hc).elim (hs c) (ht c)

lemma IsDigits.of_subset (h : IsDigits t) (hsub : s ⊆ t) : IsDigits s :=
  fun c hc => h c (hsub hc)

lemma isDigits_zeros (k : ℕ) : IsDigits (zeros k) := by
  intro c hc
  rw [eq_of_mem_replicate hc]
  decide

lemma isDigits_decimal (n : ℕ) : IsDigits (decimal n) := fun _ hc => mem_decimal hc

lemma IsDigits.trimLeft (h : IsDigits s) : IsDigits (trimLeft s) :=
  h.of_subset (dropWhile_suffix _).subset

lemma trimRight_isPrefix (s : Bytes) : trimRight s <+: s := rdropWhile_prefix _ s

lemma IsDigits.trimRight (h : IsDigits s) : IsDigits (trimRight s) :=
  h.of_subset (trimRight_isPrefix s).subset

/-! ## The number of a digit string -/

lemma numeral_append_zeros (s : Bytes) (k : ℕ) : numeral (s ++ zeros k) = numeral s * 10 ^ k := by
  induction k with
  | zero => simp [zeros]
  | succ k ih =>
    have hsplit : s ++ zeros (k + 1) = (s ++ zeros k) ++ [48] := by
      simp [zeros, replicate_succ']
    have hzero : (48 : UInt8).toNat - 48 = 0 := by decide
    rw [hsplit, numeral_append, ih, hzero, pow_succ]
    ring

lemma numeral_cons_zero (s : Bytes) : numeral (48 :: s) = numeral s := by
  simp [numeral]

lemma numeral_zeros_append (k : ℕ) (s : Bytes) : numeral (zeros k ++ s) = numeral s := by
  induction k with
  | zero => rfl
  | succ k ih =>
    rw [zeros, replicate_succ, cons_append, numeral_cons_zero]
    exact ih

lemma numeral_trimLeft (s : Bytes) : numeral (trimLeft s) = numeral s := by
  induction s with
  | nil => rfl
  | cons c s ih =>
    by_cases hc : c = 48
    · rw [hc, numeral_cons_zero, ← ih]
      rfl
    · rw [trimLeft, dropWhile_cons_of_neg (by simpa using hc)]

/-- A digit string is its trimmed form followed by the zeros that were removed. -/
lemma trimRight_append_zeros (s : Bytes) :
    trimRight s ++ zeros (s.length - (trimRight s).length) = s := by
  induction s using List.reverseRecOn with
  | nil => rfl
  | append_singleton s c ih =>
    by_cases hc : c = 48
    · have htrim : trimRight (s ++ [c]) = trimRight s := by
        rw [trimRight, trimRight, rdropWhile_concat_pos _ _ _ (by simpa using hc)]
      have hle : (trimRight s).length ≤ s.length := (trimRight_isPrefix s).length_le
      have hlen : (s ++ [c]).length - (trimRight s).length
          = s.length - (trimRight s).length + 1 := by
        rw [length_append, length_singleton]
        omega
      rw [htrim, hlen, zeros, replicate_succ', ← append_assoc]
      rw [zeros] at ih
      rw [ih, hc]
    · have htrim : trimRight (s ++ [c]) = s ++ [c] := by
        rw [trimRight, rdropWhile_concat_neg _ _ _ (by simpa using hc)]
      simp [htrim, zeros]

lemma numeral_trimRight (s : Bytes) :
    numeral (trimRight s) * 10 ^ (s.length - (trimRight s).length) = numeral s := by
  rw [← numeral_append_zeros, trimRight_append_zeros]

/-! ## Significands -/

/-- A digit string without zeros at its ends. -/
structure Trimmed (s : Bytes) : Prop where
  digits : IsDigits s
  ne_nil : s ≠ []
  head_ne : s.head? ≠ some 48
  last_ne : s.getLast? ≠ some 48

lemma head?_trimLeft (s : Bytes) : (trimLeft s).head? ≠ some 48 := by
  intro h
  have hp := head?_dropWhile_not (· == (48 : UInt8)) s
  rw [trimLeft] at h
  rw [h] at hp
  simp at hp

/-- Trimming a digit string that has another digit than zero. -/
lemma trimmed_of_trimLeft_ne_nil (hs : IsDigits s) (hne : trimLeft s ≠ []) :
    Trimmed (trimRight (trimLeft s)) := by
  have hnil : trimRight (trimLeft s) ≠ [] := by
    intro h
    have hall := rdropWhile_eq_nil_iff.mp h
    obtain ⟨c, t, hct⟩ := exists_cons_of_ne_nil hne
    have hc : c = 48 := by simpa using hall c (by rw [hct]; exact mem_cons_self)
    have := head?_trimLeft s
    rw [hct, hc] at this
    exact this rfl
  refine ⟨hs.trimLeft.trimRight, hnil, ?_, ?_⟩
  · obtain ⟨t, ht⟩ : trimRight (trimLeft s) <+: trimLeft s := rdropWhile_prefix _ _
    intro h
    refine head?_trimLeft s ?_
    rw [← ht, head?_append_of_ne_nil _ hnil]
    exact h
  · intro h
    rw [getLast?_eq_some_getLast hnil] at h
    refine rdropWhile_last_not (· == (48 : UInt8)) (trimLeft s) hnil ?_
    exact beq_iff_eq.mpr (Option.some.inj h)

/-- The digits of the number of a digit string without leading zeros are that string. -/
lemma decimal_numeral (hs : IsDigits s) (hne : s ≠ []) (hhead : s.head? ≠ some 48) :
    decimal (numeral s) = s := by
  -- The list of digit values, least significant first, is what `Nat.digits` speaks of.
  set ds : List ℕ := s.reverse.map fun c => c.toNat - 48 with hds
  have hback : (ds.map fun d => UInt8.ofNat (48 + d)).reverse = s := by
    rw [hds, List.map_map, ← map_reverse, reverse_reverse]
    refine (map_congr_left fun c hc => ?_).trans (map_id s)
    have := hs c hc
    simp only [Function.comp, id]
    rw [Nat.add_sub_cancel' this.1, UInt8.ofNat_toNat]
  have hlt : ∀ d ∈ ds, d < 10 := by
    intro d hd
    obtain ⟨c, hc, rfl⟩ := mem_map.mp hd
    have := hs c (mem_reverse.mp hc)
    have := this.2
    omega
  have hvalue : numeral s = Nat.ofDigits 10 ds := by
    rw [← numeral_digits hlt, hback]
  obtain ⟨c, t, rfl⟩ := exists_cons_of_ne_nil hne
  have hc : c.toNat - 48 ≠ 0 := by
    intro h0
    refine hhead ?_
    have := (hs c mem_cons_self).1
    have h48 : c.toNat = 48 := by omega
    rw [head?_cons, ← @UInt8.ofNat_toNat c, h48]
    rfl
  have hdsne : ds ≠ [] := by simp [hds]
  have hlast : ∀ h : ds ≠ [], ds.getLast h ≠ 0 := by
    intro h
    simpa [hds] using hc
  have hdigits : Nat.digits 10 (numeral (c :: t)) = ds := by
    rw [hvalue]
    exact Nat.digits_ofDigits 10 (by norm_num) ds hlt hlast
  have hpos : numeral (c :: t) ≠ 0 := by
    intro h0
    rw [h0, Nat.digits_zero] at hdigits
    exact hdsne hdigits.symm
  rw [decimal, if_neg hpos, hdigits, hback]

lemma Trimmed.not_ten_dvd (h : Trimmed s) : ¬ 10 ∣ numeral s := by
  obtain ⟨t, c, rfl⟩ : ∃ t c, s = t ++ [c] :=
    ⟨_, _, (dropLast_append_getLast h.ne_nil).symm⟩
  have hc := h.digits c (by simp)
  have hne : c.toNat ≠ 48 := by
    intro h48
    refine h.last_ne ?_
    rw [getLast?_concat, ← @UInt8.ofNat_toNat c, h48]
    rfl
  rw [numeral_append]
  obtain ⟨hlo, hhi⟩ := hc
  omega

lemma Trimmed.numeral_ne_zero (h : Trimmed s) : numeral s ≠ 0 := by
  intro h0
  exact h.not_ten_dvd (h0 ▸ dvd_zero 10)

lemma exponent_le_of_scaled_eq (hs : Trimmed s) (h : (numeral s : ℚ) * 10 ^ e = numeral t * 10 ^ f) :
    f ≤ e := by
  by_contra hlt
  obtain ⟨k, hk⟩ : ∃ k : ℕ, f = e + (k + 1) := ⟨(f - e - 1).toNat, by omega⟩
  have hten : (10 : ℚ) ^ e ≠ 0 := zpow_ne_zero _ (by norm_num)
  have hcancel : (numeral s : ℚ) = numeral t * 10 ^ (k + 1) := by
    rw [hk, zpow_add₀ (by norm_num)] at h
    have h' : (numeral s : ℚ) * 10 ^ e = numeral t * 10 ^ (k + 1) * 10 ^ e := by
      rw [h]
      push_cast [← zpow_natCast]
      ring
    exact mul_right_cancel₀ hten h'
  have hnat : numeral s = numeral t * 10 ^ (k + 1) := by exact_mod_cast hcancel
  refine hs.not_ten_dvd ?_
  rw [hnat, pow_succ, ← mul_assoc]
  exact Dvd.intro_left _ rfl

/-- **Normal forms are unique.** A trimmed significand and a power of ten are determined by the
number they stand for. -/
theorem eq_of_scaled_eq (hs : Trimmed s) (ht : Trimmed t)
    (h : (numeral s : ℚ) * 10 ^ e = numeral t * 10 ^ f) : s = t ∧ e = f := by
  have hexp : e = f :=
    le_antisymm (exponent_le_of_scaled_eq ht h.symm) (exponent_le_of_scaled_eq hs h)
  rw [hexp] at h
  have hten : (10 : ℚ) ^ f ≠ 0 := zpow_ne_zero _ (by norm_num)
  have hnat : numeral s = numeral t := by exact_mod_cast mul_right_cancel₀ hten h
  refine ⟨?_, hexp⟩
  rw [← decimal_numeral hs.digits hs.ne_nil hs.head_ne, hnat,
    decimal_numeral ht.digits ht.ne_nil ht.head_ne]

/-! ## JSON number tokens -/

/-- The exponent part of a token: its letter, an optional sign, and digits. -/
structure ExponentPart where
  /-- `E` and not `e`. -/
  upper : Bool
  /-- Whether a written sign is a minus. -/
  sign : Option Bool
  digits : Bytes
  isDigits : IsDigits digits
  ne_nil : digits ≠ []
deriving DecidableEq

namespace ExponentPart

def value (p : ExponentPart) : ℤ :=
  if p.sign = some true then -(numeral p.digits : ℤ) else numeral p.digits

def signText : Option Bool → Bytes
  | none => []
  | some true => [45]
  | some false => [43]

def text (p : ExponentPart) : Bytes :=
  (if p.upper then 69 else 101) :: (signText p.sign ++ p.digits)

end ExponentPart

/-- A JSON number token, by the parts that the grammar gives it. -/
@[ext]
structure Spelling where
  negative : Bool
  integer : Bytes
  fraction : Option Bytes
  exponent : Option ExponentPart
  integer_digits : IsDigits integer
  integer_ne_nil : integer ≠ []
  /-- A leading zero stands alone. -/
  integer_head : integer.head? = some 48 → integer = [48]
  fraction_digits : ∀ f ∈ fraction, IsDigits f ∧ f ≠ []
deriving DecidableEq

namespace Spelling

/-- The bytes of the fraction part. -/
def fractionText : Option Bytes → Bytes
  | none => []
  | some f => 46 :: f

/-- The bytes of the exponent part. -/
def exponentText : Option ExponentPart → Bytes
  | none => []
  | some p => p.text

def text (n : Spelling) : Bytes :=
  (if n.negative then [45] else []) ++
    (n.integer ++ (fractionText n.fraction ++ exponentText n.exponent))

/-- The digits of the integer and the fraction part. -/
def digits (n : Spelling) : Bytes := n.integer ++ n.fraction.getD []

/-- The written exponent, `0` without one. -/
def power (n : Spelling) : ℤ := (n.exponent.map ExponentPart.value).getD 0

/-- The power of ten of the last digit. -/
def scale (n : Spelling) : ℤ := n.power - (n.fraction.getD []).length

/-- A sign as a factor. -/
def signum (negative : Bool) : ℚ := if negative then -1 else 1

/-- The number that a token stands for. -/
def value (n : Spelling) : ℚ := signum n.negative * (numeral n.digits * 10 ^ n.scale)

lemma isDigits_digits (n : Spelling) : IsDigits n.digits := by
  refine n.integer_digits.append ?_
  cases hf : n.fraction with
  | none => exact fun c hc => absurd hc (not_mem_nil)
  | some f => exact (n.fraction_digits f hf).1

/-! ### Where digits end -/

/-- Nothing, or something that does not start with a digit. -/
def Stops (s : Bytes) : Prop := ∀ c ∈ s.head?, ¬ IsDigit c

variable {s t : Bytes}

lemma append_inj_of_stops {a b : Bytes} (ha : IsDigits a) (hb : IsDigits b) (hs : Stops s)
    (ht : Stops t) (h : a ++ s = b ++ t) : a = b ∧ s = t := by
  induction a generalizing b with
  | nil =>
    cases b with
    | nil => exact ⟨rfl, h⟩
    | cons d b =>
      have hd : s.head? = some d := by rw [show s = d :: (b ++ t) from h]; rfl
      exact absurd (hb d mem_cons_self) (hs d hd)
  | cons c a ih =>
    cases b with
    | nil =>
      have hc : t.head? = some c := by rw [show t = c :: (a ++ s) from h.symm]; rfl
      exact absurd (ha c mem_cons_self) (ht c hc)
    | cons d b =>
      obtain ⟨rfl, htail⟩ := List.cons.inj h
      obtain ⟨rfl, rfl⟩ := ih (ha.of_subset (subset_cons_self _ _))
        (hb.of_subset (subset_cons_self _ _)) htail
      exact ⟨rfl, rfl⟩

lemma stops_nil : Stops [] := by simp [Stops]

lemma stops_cons {c : UInt8} (s : Bytes) (h : ¬ IsDigit c) : Stops (c :: s) := by
  intro d hd
  rw [head?_cons, Option.mem_some_iff] at hd
  exact hd ▸ h

lemma stops_exponentText (p : Option ExponentPart) : Stops (exponentText p) := by
  cases p with
  | none => exact stops_nil
  | some p =>
    refine stops_cons _ ?_
    cases p.upper <;> decide

lemma stops_rest (f : Option Bytes) (p : Option ExponentPart) :
    Stops (fractionText f ++ exponentText p) := by
  cases f with
  | none => exact stops_exponentText p
  | some f => exact stops_cons _ (by decide)

lemma head?_integer_append (n : Spelling) (s : Bytes) : (n.integer ++ s).head? ≠ some 45 := by
  obtain ⟨c, t, hct⟩ := exists_cons_of_ne_nil n.integer_ne_nil
  have hc : IsDigit c := n.integer_digits c (by rw [hct]; exact mem_cons_self)
  rw [hct, cons_append, head?_cons]
  intro h
  rw [Option.some.inj h] at hc
  exact absurd hc (by decide)

end Spelling

/-! ## Normal forms -/

/-- A number in normal form. -/
inductive Canonical
  | zero
  | scientific (negative : Bool) (digits : Bytes) (trimmed : Trimmed digits) (exponent : ℤ)

namespace Canonical

def value : Canonical → ℚ
  | zero => 0
  | scientific negative digits _ exponent =>
    Spelling.signum negative * (numeral digits * 10 ^ exponent)

/-- The exponent part of a power of ten, nothing for `0`. -/
def exponentPart (exponent : ℤ) : Option ExponentPart :=
  if exponent = 0 then none
  else some
    { upper := false
      sign := if exponent < 0 then some true else none
      digits := decimal exponent.natAbs
      isDigits := isDigits_decimal _
      ne_nil := decimal_ne_nil _ }

/-- The token `0`. -/
def zeroToken : Spelling where
  negative := false
  integer := [48]
  fraction := none
  exponent := none
  integer_digits := by decide
  integer_ne_nil := by decide
  integer_head := fun _ => rfl
  fraction_digits := fun _ h => absurd h (by simp)

/-- The digits and the power of ten as a token. -/
def spelling : Canonical → Spelling
  | zero => zeroToken
  | scientific negative digits trimmed exponent =>
    { negative := negative
      integer := digits
      fraction := none
      exponent := exponentPart exponent
      integer_digits := trimmed.digits
      integer_ne_nil := trimmed.ne_nil
      integer_head := fun h => absurd h trimmed.head_ne
      fraction_digits := fun _ h => absurd h (by simp) }

/-- The token in ordinary decimal notation. -/
def plain : Canonical → Spelling
  | zero => zeroToken
  | scientific negative digits trimmed exponent =>
    if 0 ≤ exponent then
      { negative := negative
        integer := digits ++ zeros exponent.toNat
        fraction := none
        exponent := none
        integer_digits := trimmed.digits.append (isDigits_zeros _)
        integer_ne_nil := List.append_ne_nil_of_left_ne_nil trimmed.ne_nil _
        integer_head := fun h => by
          rw [List.head?_append_of_ne_nil _ trimmed.ne_nil] at h
          exact absurd h trimmed.head_ne
        fraction_digits := fun _ h => absurd h (by simp) }
    else
      let point := (digits.length + exponent).toNat
      if hpoint : 0 < point ∧ point < digits.length then
        { negative := negative
          integer := digits.take point
          fraction := some (digits.drop point)
          exponent := none
          integer_digits := trimmed.digits.of_subset (List.take_subset _ _)
          integer_ne_nil := by
            rw [ne_eq, List.take_eq_nil_iff]
            exact fun h => h.elim (fun h => by omega) trimmed.ne_nil
          integer_head := fun h => by
            rw [List.head?_take, if_neg (by omega)] at h
            exact absurd h trimmed.head_ne
          fraction_digits := fun f hf => by
            rw [Option.mem_some_iff] at hf
            subst hf
            refine ⟨trimmed.digits.of_subset (List.drop_subset _ _), ?_⟩
            rw [ne_eq, List.drop_eq_nil_iff]
            omega }
      else
        { negative := negative
          integer := [48]
          fraction := some (zeros (-(digits.length + exponent)).toNat ++ digits)
          exponent := none
          integer_digits := by decide
          integer_ne_nil := by decide
          integer_head := fun _ => rfl
          fraction_digits := fun f hf => by
            rw [Option.mem_some_iff] at hf
            subst hf
            exact ⟨(isDigits_zeros _).append trimmed.digits,
              List.append_ne_nil_of_right_ne_nil _ trimmed.ne_nil⟩ }

end Canonical

/-- The digits of a token without zeros at either end, and the power of ten of the last. -/
def canonicalForm (number : Spelling) : Canonical :=
  if h : trimLeft number.digits = [] then .zero
  else
    let trimmed := trimRight (trimLeft number.digits)
    .scientific number.negative trimmed (trimmed_of_trimLeft_ne_nil number.isDigits_digits h)
      (number.scale + ((trimLeft number.digits).length - trimmed.length : ℕ))

/-! ### Values -/

lemma signum_ne_zero (negative : Bool) : Spelling.signum negative ≠ 0 := by
  cases negative <;> norm_num [Spelling.signum]

lemma ten_zpow_pos (e : ℤ) : (0 : ℚ) < 10 ^ e := zpow_pos (by norm_num) e

lemma value_canonicalForm (number : Spelling) : (canonicalForm number).value = number.value := by
  unfold canonicalForm
  split_ifs with h
  · have hzero : numeral number.digits = 0 := by
      rw [← numeral_trimLeft, h]
      rfl
    simp [Canonical.value, Spelling.value, hzero]
  · have hten : (10 : ℚ) ≠ 0 := by norm_num
    rw [Canonical.value, Spelling.value, ← numeral_trimLeft number.digits,
      ← numeral_trimRight (trimLeft number.digits), zpow_add₀ hten, zpow_natCast]
    push_cast
    ring

namespace Canonical

lemma scientific_value_ne_zero (negative : Bool) {digits : Bytes} (trimmed : Trimmed digits)
    (exponent : ℤ) : (scientific negative digits trimmed exponent).value ≠ 0 := by
  have hnum : (numeral digits : ℚ) ≠ 0 := by exact_mod_cast trimmed.numeral_ne_zero
  exact mul_ne_zero (signum_ne_zero _) (mul_ne_zero hnum (ten_zpow_pos _).ne')

/-- The sign and the magnitude of a number other than zero. -/
lemma sign_of_value_eq {negative negative' : Bool} {a b : ℚ} (ha : 0 < a) (hb : 0 < b)
    (h : Spelling.signum negative * a = Spelling.signum negative' * b) :
    negative = negative' ∧ a = b := by
  cases negative <;> cases negative' <;> simp only [Spelling.signum] at h ⊢ <;>
    norm_num at h ⊢ <;> linarith

/-- **A normal form is determined by its value.** -/
theorem value_injective {c d : Canonical} (h : c.value = d.value) : c = d := by
  cases c with
  | zero =>
    cases d with
    | zero => rfl
    | scientific negative digits trimmed exponent =>
      exact absurd h.symm (scientific_value_ne_zero negative trimmed exponent)
  | scientific negative digits trimmed exponent =>
    cases d with
    | zero => exact absurd h (scientific_value_ne_zero negative trimmed exponent)
    | scientific negative' digits' trimmed' exponent' =>
      have hpos : ∀ {s : Bytes} (e : ℤ), Trimmed s → (0 : ℚ) < numeral s * 10 ^ e :=
        fun {s} e hs => mul_pos (by exact_mod_cast Nat.pos_of_ne_zero hs.numeral_ne_zero)
          (ten_zpow_pos e)
      obtain ⟨rfl, hmag⟩ :=
        sign_of_value_eq (hpos exponent trimmed) (hpos exponent' trimmed') h
      obtain ⟨rfl, rfl⟩ := eq_of_scaled_eq trimmed trimmed' hmag
      rfl

lemma power_exponentPart (exponent : ℤ) :
    ((exponentPart exponent).map ExponentPart.value).getD 0 = exponent := by
  unfold exponentPart
  by_cases h0 : exponent = 0
  · rw [if_pos h0, h0]
    rfl
  · rw [if_neg h0, Option.map_some, Option.getD_some, ExponentPart.value]
    simp only [numeral_decimal]
    by_cases hneg : exponent < 0
    · rw [if_pos hneg, if_pos rfl]
      omega
    · rw [if_neg hneg, if_neg (by simp)]
      omega

lemma value_spelling (c : Canonical) : c.spelling.value = c.value := by
  cases c with
  | zero =>
    have hzero : numeral zeroToken.digits = 0 := by decide
    simp [spelling, Spelling.value, value, hzero]
  | scientific negative digits trimmed exponent =>
    have hpower := power_exponentPart exponent
    simp [spelling, Spelling.value, Spelling.digits, Spelling.scale, Spelling.power, value,
      hpower]

lemma value_plain (c : Canonical) : c.plain.value = c.value := by
  cases c with
  | zero => exact value_spelling .zero
  | scientific negative digits trimmed exponent =>
    simp only [plain]
    by_cases hexp : 0 ≤ exponent
    · -- Zeros at the end multiply by the power of ten.
      have hpow : (10 : ℚ) ^ exponent = 10 ^ exponent.toNat := by
        rw [← zpow_natCast, Int.toNat_of_nonneg hexp]
      rw [if_pos hexp]
      simp [Spelling.value, Spelling.digits, Spelling.scale, Spelling.power, value,
        numeral_append_zeros, hpow]
    · rw [if_neg hexp]
      by_cases hpoint : 0 < (digits.length + exponent).toNat ∧
          (digits.length + exponent).toNat < digits.length
      · -- The point splits the digits.
        have hlen : -((digits.drop (digits.length + exponent).toNat).length : ℤ)
            = exponent := by
          rw [length_drop]
          omega
        simp only [dif_pos hpoint, Spelling.value, Spelling.digits, Spelling.scale,
          Spelling.power, value, Option.map_none, Option.getD_none, Option.getD_some,
          take_append_drop, zero_sub, hlen]
      · -- The digits follow zeros after the point.
        have hlen : -((zeros (-(digits.length + exponent)).toNat ++ digits).length : ℤ)
            = exponent := by
          rw [length_append, zeros, length_replicate]
          omega
        simp only [dif_neg hpoint, Spelling.value, Spelling.digits, Spelling.scale,
          Spelling.power, value, Option.map_none, Option.getD_none, Option.getD_some,
          cons_append, nil_append, numeral_cons_zero, numeral_zeros_append,
          zero_sub, hlen]

end Canonical

/-- **The normal form is a complete invariant of the value.** -/
theorem canonicalForm_eq_iff (n m : Spelling) :
    canonicalForm n = canonicalForm m ↔ n.value = m.value := by
  rw [← value_canonicalForm n, ← value_canonicalForm m]
  exact ⟨congrArg _, Canonical.value_injective⟩

lemma canonicalForm_spelling (c : Canonical) : canonicalForm c.spelling = c := by
  refine Canonical.value_injective ?_
  rw [value_canonicalForm, c.value_spelling]

lemma canonicalForm_plain (c : Canonical) : canonicalForm c.plain = c := by
  refine Canonical.value_injective ?_
  rw [value_canonicalForm, c.value_plain]

lemma spelling_injective {c d : Canonical} (h : c.spelling = d.spelling) : c = d := by
  rw [← canonicalForm_spelling c, h, canonicalForm_spelling]

end Gogo.Lib

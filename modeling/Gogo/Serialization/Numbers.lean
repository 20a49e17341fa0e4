import Gogo.Lib.NumberText

/-!
# Numbers of fixtures

`canonicalNumber` rewrites the text of a JSON number: it drops the zeros at either end of the
digits and writes what is left in one of four layouts, chosen by the number of digits and the
place of the point.

* `choose`, `text_choose` — the token that a layout spells.
* `canonicalNumber_eq_some_iff` — what the function accepts and returns.
* `canonicalNumber_is_canonical` — **the result is a canonical text of the same number.**
-/

namespace Gogo.Serialization

open List Gogo.Lib

/-! ## The source -/

/-- `maxJSONNumberExponent`. -/
def maxJSONNumberExponent : ℤ := 2 ^ 31 + 128

/-- `strconv.FormatInt`. -/
def formatInt (n : ℤ) : Bytes := (if n < 0 then [45] else []) ++ decimal n.natAbs

/-- The text that `canonicalNumber` writes for digits without zeros at either end and the power
of ten of the last one. -/
def layout (s : Bytes) (exponent : ℤ) : Bytes :=
  let point : ℤ := s.length + exponent
  if point > 0 ∧ point ≤ 21 ∧ exponent ≥ 0 then s ++ zeros exponent.toNat
  else if point > 0 ∧ point < s.length then s.take point.toNat ++ 46 :: s.drop point.toNat
  else if point ≤ 0 ∧ point ≥ -5 then [48, 46] ++ zeros (-point).toNat ++ s
  else s.take 1 ++ (if s.length > 1 then 46 :: s.drop 1 else []) ++ 101 :: formatInt (point - 1)

/-- A text under its sign. -/
def signed (negative : Bool) (out : Bytes) : Bytes := if negative then 45 :: out else out

/-- `canonicalNumber` after the text has been taken apart. -/
def canonicalParts (n : Spelling) : Option Bytes :=
  -- An exponent that `ParseInt` refuses is outside these bounds as well.
  if n.power > maxJSONNumberExponent + 256 ∨ n.power < -maxJSONNumberExponent - 256 then none
  else if trimLeft n.digits = [] then some [48]
  else
    let s := trimRight (trimLeft n.digits)
    let exponent := n.scale + ((trimLeft n.digits).length - s.length : ℕ)
    if s.length > 128 then none
    else
      let point : ℤ := s.length + exponent
      if point - 1 > maxJSONNumberExponent ∨ point - 1 < -maxJSONNumberExponent then none
      else some (signed n.negative (layout s exponent))

/-- `canonicalNumber`. -/
def canonicalNumber (raw : Bytes) : Option Bytes :=
  if raw.length > 256 then none else (readNumber raw).bind canonicalParts

/-- The rational number that a text denotes. -/
def denotes (raw : Bytes) : Option ℚ := (readNumber raw).map Spelling.value

/-! ## The layouts as tokens -/

/-- Whether the layout is ordinary decimal notation: one of the first three of the source. -/
def Ordinary (digits : Bytes) (exponent : ℤ) : Prop :=
  let point : ℤ := digits.length + exponent
  (0 < point ∧ point ≤ 21 ∧ 0 ≤ exponent) ∨ (0 < point ∧ point < digits.length) ∨
    (point ≤ 0 ∧ -5 ≤ point)

instance (digits : Bytes) (exponent : ℤ) : Decidable (Ordinary digits exponent) :=
  inferInstanceAs (Decidable (_ ∨ _ ∨ _))

/-- The token that `canonicalNumber` spells. -/
def choose : Canonical → Spelling
  | .zero => Canonical.zeroToken
  | .scientific negative digits trimmed exponent =>
    if Ordinary digits exponent then (Canonical.scientific negative digits trimmed exponent).plain
    else (Canonical.scientific negative digits trimmed exponent).exponential

/-- The size of a normal form that `canonicalNumber` accepts. -/
def Small : Canonical → Prop
  | .zero => True
  | .scientific _ digits _ exponent =>
    digits.length ≤ 128 ∧ digits.length + exponent - 1 ≤ maxJSONNumberExponent ∧
      -maxJSONNumberExponent ≤ digits.length + exponent - 1

/-- An exponent that `canonicalNumber` reads. -/
def InRange (n : Spelling) : Prop :=
  n.power ≤ maxJSONNumberExponent + 256 ∧ -maxJSONNumberExponent - 256 ≤ n.power

lemma canonicalForm_choose (c : Canonical) : canonicalForm (choose c) = c := by
  cases c with
  | zero => exact canonicalForm_spelling .zero
  | scientific negative digits trimmed exponent =>
    rw [choose]
    split_ifs
    · exact canonicalForm_plain _
    · exact canonicalForm_exponential _

/-- The bytes after the sign. -/
def unsigned (n : Spelling) : Bytes :=
  n.integer ++ (Spelling.fractionText n.fraction ++ Spelling.exponentText n.exponent)

lemma text_eq_signed (n : Spelling) : n.text = signed n.negative (unsigned n) := by
  rw [Spelling.text, signed]
  split_ifs <;> rfl

variable {e : ℤ} {out : Bytes} {c : Canonical}

lemma exponentText_exponentPart (h : e ≠ 0) :
    Spelling.exponentText (Canonical.exponentPart e) = 101 :: formatInt e := by
  unfold Canonical.exponentPart formatInt
  rw [if_neg h, Spelling.exponentText, ExponentPart.text]
  by_cases hneg : e < 0
  · simp [if_pos hneg, ExponentPart.signText]
  · simp [if_neg hneg, ExponentPart.signText]

section Layouts

variable (negative : Bool) {digits : Bytes} (trimmed : Trimmed digits) (exponent : ℤ)

lemma unsigned_plain (h : Ordinary digits exponent) :
    unsigned (Canonical.scientific negative digits trimmed exponent).plain =
      layout digits exponent := by
  have hpos := length_pos_of_ne_nil trimmed.ne_nil
  simp only [Ordinary] at h
  simp only [Canonical.plain, layout]
  by_cases hexp : 0 ≤ exponent
  · -- Only the first layout is left for digits that end before the point.
    rw [if_pos hexp, if_pos (by omega)]
    simp [unsigned, Spelling.fractionText, Spelling.exponentText]
  · rw [if_neg hexp, if_neg (by omega)]
    by_cases hpoint : 0 < (digits.length + exponent).toNat ∧
        (digits.length + exponent).toNat < digits.length
    · rw [dif_pos hpoint, if_pos (by omega)]
      simp [unsigned, Spelling.fractionText, Spelling.exponentText]
    · rw [dif_neg hpoint, if_neg (by omega), if_pos (by omega)]
      simp [unsigned, Spelling.fractionText, Spelling.exponentText]

lemma unsigned_exponential (h : ¬ Ordinary digits exponent) :
    unsigned (Canonical.scientific negative digits trimmed exponent).exponential =
      layout digits exponent := by
  have hpos := length_pos_of_ne_nil trimmed.ne_nil
  have hfraction : Spelling.fractionText (fractionOf digits) =
      if digits.length > 1 then 46 :: digits.drop 1 else [] := by
    unfold fractionOf
    by_cases hone : digits.length = 1
    · rw [if_pos hone, if_neg (by omega)]
      rfl
    · rw [if_neg hone, if_pos (by omega)]
      rfl
  simp only [Ordinary] at h
  simp only [layout]
  rw [if_neg (by omega), if_neg (by omega), if_neg (by omega), ← hfraction,
    ← exponentText_exponentPart (by omega), append_assoc]
  rfl

/-- The chosen token is the text of the source. -/
lemma text_choose :
    (choose (.scientific negative digits trimmed exponent)).text =
      signed negative (layout digits exponent) := by
  rw [text_eq_signed, choose]
  split_ifs with h
  · have hsign : (Canonical.scientific negative digits trimmed exponent).plain.negative =
        negative := by
      simp only [Canonical.plain]
      split_ifs <;> rfl
    rw [hsign, unsigned_plain negative trimmed exponent h]
  · rw [unsigned_exponential negative trimmed exponent h]
    rfl

end Layouts

/-! ## What is accepted -/

/-- **The result is the chosen token of the normal form, when that is small.** -/
lemma canonicalParts_eq_some_iff {n : Spelling} :
    canonicalParts n = some out ↔
      InRange n ∧ Small (canonicalForm n) ∧ (choose (canonicalForm n)).text = out := by
  unfold canonicalParts InRange
  by_cases hrange : n.power > maxJSONNumberExponent + 256 ∨ n.power < -maxJSONNumberExponent - 256
  · rw [if_pos hrange]
    refine ⟨fun h => absurd h (by simp), fun h => ?_⟩
    obtain ⟨hhi, hlo⟩ := h.1
    omega
  rw [if_neg hrange]
  have hin : n.power ≤ maxJSONNumberExponent + 256 ∧ -maxJSONNumberExponent - 256 ≤ n.power := by
    omega
  unfold canonicalForm
  by_cases hzero : trimLeft n.digits = []
  · rw [if_pos hzero, dif_pos hzero]
    exact ⟨fun h => ⟨hin, trivial, Option.some.inj h⟩, fun h => congrArg some h.2.2⟩
  rw [if_neg hzero, dif_neg hzero]
  rw [text_choose, Small]
  dsimp only
  split_ifs with hlong hfar
  · exact ⟨fun h => absurd h (by simp), fun h => absurd h.2.1.1 (by omega)⟩
  · refine ⟨fun h => absurd h (by simp), fun h => ?_⟩
    obtain ⟨-, hhi, hlo⟩ := h.2.1
    omega
  · exact ⟨fun h => ⟨hin, by omega, Option.some.inj h⟩, fun h => congrArg some h.2.2⟩

lemma canonicalNumber_eq_some_iff {raw : Bytes} :
    canonicalNumber raw = some out ↔ raw.length ≤ 256 ∧ ∃ n : Spelling, n.text = raw ∧
      InRange n ∧ Small (canonicalForm n) ∧ (choose (canonicalForm n)).text = out := by
  unfold canonicalNumber
  by_cases hlong : raw.length > 256
  · rw [if_pos hlong]
    exact ⟨fun h => absurd h (by simp), fun h => absurd h.1 (by omega)⟩
  · rw [if_neg hlong, Option.bind_eq_some_iff]
    simp only [readNumber_eq_some_iff, canonicalParts_eq_some_iff]
    exact ⟨fun h => ⟨by omega, h⟩, And.right⟩

/-! ## The chosen token is accepted -/

lemma length_formatInt (h : e.natAbs < 10 ^ 10) : (formatInt e).length ≤ 11 := by
  have hdigits : (decimal e.natAbs).length ≤ 10 := by
    unfold decimal
    split_ifs
    · exact Nat.one_le_ofNat
    · rw [length_reverse, length_map]
      exact (Nat.digits_length_le_iff (by norm_num) _).mpr h
  rw [formatInt, length_append]
  split_ifs
  · rw [length_singleton]
    omega
  · rw [length_nil]
    omega

lemma length_layout {digits : Bytes} {exponent : ℤ} (hlen : digits.length ≤ 128)
    (habs : (digits.length + exponent - 1).natAbs < 10 ^ 10) :
    (layout digits exponent).length ≤ 255 := by
  have hformat := length_formatInt habs
  simp only [layout]
  split_ifs <;>
    simp only [length_append, length_cons, length_nil, length_take,
      length_drop, zeros, length_replicate] <;> omega

lemma length_signed (negative : Bool) (out : Bytes) :
    (signed negative out).length ≤ out.length + 1 := by
  rw [signed]
  split_ifs
  · rw [length_cons]
  · exact Nat.le_succ _

lemma power_choose (h : Small c) : InRange (choose c) := by
  have hbound : (0 : ℤ) ≤ maxJSONNumberExponent := by decide
  cases c with
  | zero => exact ⟨by decide, by decide⟩
  | scientific negative digits trimmed exponent =>
    obtain ⟨-, hhi, hlo⟩ := h
    rw [choose, InRange]
    split_ifs
    · -- Ordinary notation has no exponent.
      have hpower : (Canonical.scientific negative digits trimmed exponent).plain.power = 0 := by
        simp only [Canonical.plain]
        split_ifs <;> rfl
      rw [hpower]
      omega
    · have hpower : (Canonical.scientific negative digits trimmed exponent).exponential.power =
          digits.length + exponent - 1 := by
        exact Canonical.power_exponentPart _
      rw [hpower]
      omega

lemma length_choose (h : Small c) : (choose c).text.length ≤ 256 := by
  cases c with
  | zero => decide
  | scientific negative digits trimmed exponent =>
    obtain ⟨hlen, hhi, hlo⟩ := h
    have habs : (digits.length + exponent - 1).natAbs < 10 ^ 10 := by
      unfold maxJSONNumberExponent at hhi hlo
      omega
    rw [text_choose]
    apply (length_signed _ _).trans
    exact Nat.succ_le_succ (length_layout hlen habs)

/-- A chosen token is its own canonical text. -/
lemma canonicalNumber_choose (h : Small c) :
    canonicalNumber (choose c).text = some (choose c).text := by
  apply canonicalNumber_eq_some_iff.mpr
  refine ⟨length_choose h, choose c, rfl, power_choose h, ?_⟩
  rw [canonicalForm_choose]
  exact ⟨h, rfl⟩

lemma denotes_text (n : Spelling) : denotes n.text = some n.value := by
  rw [denotes, readNumber_eq_some_iff.mpr rfl]
  rfl

lemma value_choose (n : Spelling) : (choose (canonicalForm n)).value = n.value := by
  apply (canonicalForm_eq_iff _ _).mp
  exact canonicalForm_choose _

/-- **The result of `canonicalNumber` is a canonical text of the same number**: it denotes what
the accepted text denotes, it is accepted and returned as it is, and two accepted texts have one
result exactly when they denote one number. -/
theorem canonicalNumber_is_canonical {raw raw' out out' : Bytes}
    (h : canonicalNumber raw = some out) (h' : canonicalNumber raw' = some out') :
    (∃ q : ℚ, denotes raw = some q ∧ denotes out = some q) ∧ canonicalNumber out = some out ∧
      (out = out' ↔ denotes raw = denotes raw') := by
  obtain ⟨-, n, rfl, -, hsmall, rfl⟩ := canonicalNumber_eq_some_iff.mp h
  obtain ⟨-, m, rfl, -, -, rfl⟩ := canonicalNumber_eq_some_iff.mp h'
  refine ⟨⟨n.value, denotes_text n, ?_⟩, canonicalNumber_choose hsmall, ?_⟩
  · rw [denotes_text, value_choose]
  · rw [denotes_text, denotes_text, Option.some_inj, ← canonicalForm_eq_iff]
    constructor
    · intro htext
      rw [← canonicalForm_choose (canonicalForm n), Spelling.text_injective htext,
        canonicalForm_choose]
    · intro hform
      rw [hform]

/-- `1500e-1` and `150.0` have the canonical text `150`. -/
theorem one_hundred_fifty :
    canonicalNumber (ascii "1500e-1") = some (ascii "150") ∧
      canonicalNumber (ascii "150.0") = some (ascii "150") ∧
      denotes (ascii "1500e-1") = denotes (ascii "150.0") := by
  have h : canonicalNumber (ascii "1500e-1") = some (ascii "150") := by decide +kernel
  have h' : canonicalNumber (ascii "150.0") = some (ascii "150") := by decide +kernel
  exact ⟨h, h', (canonicalNumber_is_canonical h h').2.2.mp rfl⟩

end Gogo.Serialization

import Gogo.Lib.NumberText
import Gogo.Lib.Document

/-!
# Canonical numbers of receipts

Receipts compare numbers as exact decimals. `canonicalNumber` writes a number as its digits
without zeros at either end and a power of ten; `canonicalKeyNumber` writes the numbers of an
object key in ordinary decimal notation. Both first check the length of the token and the range
of its exponent.

* `canonicalNumber_eq_ok_iff`, `canonicalKeyNumber_eq_ok_iff` — what the two functions accept and
  return.
* `canonicalKeyNumber_of_value_eq` — every accepted spelling of a key number gives that number.
-/

namespace Gogo.Api

open Gogo.Lib

/-- A token that the two functions below look at: neither long nor with an exponent outside
32 bits. -/
def Readable (number : Spelling) : Prop :=
  number.text.length ≤ 1024 ∧ -2 ^ 31 ≤ number.power ∧ number.power < 2 ^ 31

instance (number : Spelling) : Decidable (Readable number) :=
  inferInstanceAs (Decidable (_ ∧ _ ∧ _))

/-- The part of `canonicalNumber` before the result is written. -/
def normalize (number : Spelling) : Except String Canonical :=
  if number.text.length > 1024 then .error "api: operation number too large"
  else if number.power < -2 ^ 31 ∨ 2 ^ 31 ≤ number.power then
    .error "api: operation exponent too large"
  else .ok (canonicalForm number)

/-- `canonicalNumber`. -/
def canonicalNumber (number : Spelling) : Except String Spelling :=
  (normalize number).map Canonical.spelling

/-- The part of `canonicalKeyNumber` after `canonicalNumber`. -/
def expandKey : Canonical → Except String Spelling
  | .zero => .ok Canonical.zeroToken
  | .scientific negative digits trimmed exponent =>
    let form := Canonical.scientific negative digits trimmed exponent
    -- Without the letter `e` the number is returned as it is.
    if exponent = 0 then .ok form.spelling
    else if exponent > 1024 ∨ exponent < -1024 ∨ digits.length + exponent > 1024 then
      .error "api: operation identity number too large"
    else if form.plain.text.length > 1024 then
      .error "api: operation identity number too large"
    else .ok form.plain

/-- `canonicalKeyNumber`. -/
def canonicalKeyNumber (number : Spelling) : Except String Spelling :=
  (normalize number).bind expandKey

/-! ## The two functions -/

lemma normalize_eq_ok_iff (number : Spelling) (c : Canonical) :
    normalize number = .ok c ↔ Readable number ∧ canonicalForm number = c := by
  unfold normalize Readable
  by_cases hlen : number.text.length > 1024
  · rw [if_pos hlen]
    simp [Nat.not_le.mpr hlen]
  · rw [if_neg hlen]
    by_cases hexp : number.power < -2 ^ 31 ∨ 2 ^ 31 ≤ number.power
    · rw [if_pos hexp]
      constructor
      · intro h
        cases h
      · rintro ⟨⟨-, hlo, hhi⟩, -⟩
        omega
    · rw [if_neg hexp]
      have hrange : -2 ^ 31 ≤ number.power ∧ number.power < 2 ^ 31 := by omega
      simp only [Except.ok.injEq, Nat.not_lt.mp hlen, hrange, and_self, true_and]

/-- What `canonicalNumber` accepts and returns. -/
theorem canonicalNumber_eq_ok_iff (number m : Spelling) :
    canonicalNumber number = .ok m ↔ Readable number ∧ (canonicalForm number).spelling = m := by
  rw [canonicalNumber, map_eq_ok]
  simp only [normalize_eq_ok_iff]
  constructor
  · rintro ⟨c, ⟨hread, rfl⟩, hm⟩
    exact ⟨hread, hm⟩
  · rintro ⟨hread, hm⟩
    exact ⟨_, ⟨hread, rfl⟩, hm⟩

/-- What `canonicalKeyNumber` accepts and returns. -/
theorem canonicalKeyNumber_eq_ok_iff (number m : Spelling) :
    canonicalKeyNumber number = .ok m ↔
      Readable number ∧ expandKey (canonicalForm number) = .ok m := by
  rw [canonicalKeyNumber]
  cases h : normalize number with
  | error e =>
    have hnot : ¬ Readable number := fun hread => by
      rw [(normalize_eq_ok_iff number _).mpr ⟨hread, rfl⟩] at h
      cases h
    simp [Except.bind, hnot]
  | ok c =>
    obtain ⟨hread, rfl⟩ := (normalize_eq_ok_iff number c).mp h
    simp [Except.bind, hread]

/-- The numbers of a key keep their value. -/
lemma canonicalForm_of_expandKey {c : Canonical} {m : Spelling} (h : expandKey c = .ok m) :
    canonicalForm m = c := by
  cases c with
  | zero =>
    cases h
    exact canonicalForm_spelling .zero
  | scientific negative digits trimmed exponent =>
    simp only [expandKey] at h
    by_cases hzero : exponent = 0
    · rw [if_pos hzero] at h
      cases h
      exact canonicalForm_spelling _
    · rw [if_neg hzero] at h
      split_ifs at h
      cases h
      exact canonicalForm_plain _

/-- **A key number is what every accepted spelling of it gives.** -/
theorem canonicalKeyNumber_of_value_eq {n m n' : Spelling} (h : canonicalKeyNumber n = .ok m)
    (hvalue : n'.value = m.value) (hread : Readable n') : canonicalKeyNumber n' = .ok m := by
  obtain ⟨-, hexpand⟩ := (canonicalKeyNumber_eq_ok_iff n m).mp h
  have hform : canonicalForm n' = canonicalForm n := by
    rw [(canonicalForm_eq_iff n' m).mpr hvalue, canonicalForm_of_expandKey hexpand]
  exact (canonicalKeyNumber_eq_ok_iff n' m).mpr ⟨hread, hform ▸ hexpand⟩

end Gogo.Api

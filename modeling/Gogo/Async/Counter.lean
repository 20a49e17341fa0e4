import Gogo.Lib.Decimal

/-!
# Counters of the Redis store

Fences and revisions are decimal texts: a script adds one to them digit by digit, and a document is
read back only if its counters are written as `FormatUint` writes them.

* `incrementCounter`, `unmarshalDocument` — the source.
* `lt_iff_numeral_lt` — **digit texts of one length are ordered like their numbers.**
* `CarrySpec`, `carryDigits_spec` — what the loop over the digits keeps.
* `incrementCounter_eq_some_iff` — **the script takes the text of a number to that of the next one
  and refuses everything else.**
-/

namespace Gogo.Async

open Gogo.Lib

/-! ## The source -/

/-- A Lua value, as far as the script looks at it. -/
inductive LuaValue
  | string (s : Bytes)
  | other

/-- The loop of `incrementCounter` from the last digit on: the result and the carry. -/
def carryDigits : Bytes → Bytes × ℕ
  | [] => ([], 1)
  | c :: rest =>
    let digit := (c.toNat - 48) + (carryDigits rest).2
    if digit = 10 then (decimal 0 ++ (carryDigits rest).1, 1)
    else (decimal digit ++ (carryDigits rest).1, 0)

/-- Source: `codec.go` `incrementCounterLua`; `none` is the error `GOGO_COUNTER_EXHAUSTED`. -/
def incrementCounter : LuaValue → Option Bytes
  | .other => none
  | .string value =>
    if ¬ (value ≠ [] ∧ IsDigits value) ∨ (1 < value.length ∧ value.head? = some 48) ∨
        20 < value.length ∨
        (value.length = 20 ∧ ¬ value < ascii "18446744073709551615") then none
    else
      let (result, carry) := carryDigits value
      some (if carry = 1 then 49 :: result else result)

/-- `strconv.ParseUint(s, 10, 64)`. -/
def parseUint (s : Bytes) : Option ℕ :=
  if s ≠ [] ∧ IsDigits s ∧ numeral s < 2 ^ 64 then some (numeral s) else none

/-- The fields of `opaqueDocument` that `unmarshalDocument` looks at. -/
structure OpaqueDocument where
  format : ℤ
  payload : Bytes
  revision : Bytes
  fence : Bytes

/-- Source: `codec.go` `unmarshalDocument`, after `json.Unmarshal`. -/
def unmarshalDocument (decoded : Option OpaqueDocument) : Option OpaqueDocument :=
  decoded.filter fun document =>
    document.format = 1 ∧ document.payload ≠ [] ∧
      ∀ counter ∈ [document.fence, document.revision],
        (parseUint counter).map decimal = some counter

/-! ## Digit texts -/

variable {s t : Bytes} {c : UInt8} {n : ℕ}

lemma numeral_cons (c : UInt8) (s : Bytes) :
    numeral (c :: s) = (c.toNat - 48) * 10 ^ s.length + numeral s := by
  induction s using List.reverseRecOn with
  | nil => simp [numeral]
  | append_singleton s d ih =>
    rw [← List.cons_append, numeral_append, numeral_append, ih, List.length_append,
      List.length_singleton, pow_succ]
    ring

lemma numeral_lt (h : IsDigits s) : numeral s < 10 ^ s.length := by
  induction s with
  | nil => exact Nat.one_pos
  | cons c s ih =>
    have hc : IsDigit c := h c List.mem_cons_self
    have hlt := ih fun d hd => h d (List.mem_cons_of_mem c hd)
    have hdigit : c.toNat - 48 ≤ 9 := by rw [IsDigit] at hc; omega
    have hle := Nat.mul_le_mul_right (10 ^ s.length) hdigit
    rw [numeral_cons, List.length_cons, pow_succ]
    omega

/-- **Digit texts of one length are ordered like their numbers.** -/
lemma lt_iff_numeral_lt (hs : IsDigits s) (ht : IsDigits t) (hlen : s.length = t.length) :
    s < t ↔ numeral s < numeral t := by
  induction s generalizing t with
  | nil =>
    rw [List.length_eq_zero_iff.mp hlen.symm]
    simp
  | cons c s ih =>
    obtain ⟨d, t, rfl⟩ := List.exists_cons_of_length_eq_add_one hlen.symm
    rw [IsDigits, List.forall_mem_cons] at hs ht
    have hlen' : s.length = t.length := Nat.succ.inj hlen
    have hslt := numeral_lt hs.2
    have htlt := numeral_lt ht.2
    rw [List.cons_lt_cons_iff, ih hs.2 ht.2 hlen', numeral_cons, numeral_cons, hlen'] at *
    rw [UInt8.lt_iff_toNat_lt, ← UInt8.toNat_inj]
    obtain ⟨⟨hc, -⟩, -⟩ := hs
    obtain ⟨⟨hd, -⟩, -⟩ := ht
    rcases Nat.lt_trichotomy c.toNat d.toNat with h | h | h
    · have hle : (c.toNat - 48 + 1) * 10 ^ t.length ≤ (d.toNat - 48) * 10 ^ t.length :=
        Nat.mul_le_mul_right _ (by omega)
      rw [Nat.succ_mul] at hle
      exact iff_of_true (.inl h) (by omega)
    · rw [h]
      simp
    · have hle : (d.toNat - 48 + 1) * 10 ^ t.length ≤ (c.toNat - 48) * 10 ^ t.length :=
        Nat.mul_le_mul_right _ (by omega)
      rw [Nat.succ_mul] at hle
      exact iff_of_false (by omega) (by omega)

/-- A digit text that has a zero in front only if it is `0`. -/
structure Plain (s : Bytes) : Prop where
  ne_nil : s ≠ []
  digits : IsDigits s
  head : ¬ (1 < s.length ∧ s.head? = some 48)

lemma Plain.decimal_numeral (h : Plain s) : decimal (numeral s) = s := by
  by_cases hzero : s.head? = some 48
  · obtain ⟨rest, rfl⟩ := List.head?_eq_some_iff.mp hzero
    obtain rfl : rest = [] := by
      apply List.length_eq_zero_iff.mp
      simpa using h.head
    rfl
  · exact Lib.decimal_numeral h.digits h.ne_nil hzero

lemma plain_decimal (n : ℕ) : Plain (decimal n) := by
  refine ⟨decimal_ne_nil n, isDigits_decimal n, ?_⟩
  unfold decimal
  split_ifs with hzero
  · simp
  · have hne : Nat.digits 10 n ≠ [] := Nat.digits_ne_nil_iff_ne_zero.mpr hzero
    rintro ⟨-, hhead⟩
    rw [List.head?_reverse, List.getLast?_map, List.getLast?_eq_getLast_of_ne_nil hne] at hhead
    apply Nat.getLast_digit_ne_zero 10 hzero
    have hdigit := congrArg UInt8.toNat (Option.some.inj hhead)
    rw [toNat_digit (Nat.digits_lt_base (by norm_num) (List.getLast_mem hne))] at hdigit
    simpa using hdigit

lemma pow_le_numeral (h : IsDigits (c :: s)) (hhead : c ≠ 48) :
    10 ^ s.length ≤ numeral (c :: s) := by
  have hc : 48 ≤ c.toNat := (h c List.mem_cons_self).1
  have hne : c.toNat ≠ 48 := fun h => hhead (UInt8.toNat_inj.mp h)
  have hle : 1 * 10 ^ s.length ≤ (c.toNat - 48) * 10 ^ s.length :=
    Nat.mul_le_mul_right _ (by omega)
  rw [numeral_cons]
  omega

/-! ## The loop -/

lemma decimal_digit {d : ℕ} (h : d < 10) : decimal d = [UInt8.ofNat (48 + d)] := by
  unfold decimal
  split_ifs with hzero
  · rw [hzero]
    rfl
  · rw [Nat.digits_of_lt 10 d hzero h]
    rfl

/-- What the digits behind a position have become: together with the carry they stand for one
more. -/
structure CarrySpec (s result : Bytes) (carry : ℕ) : Prop where
  digits : IsDigits result
  length : result.length = s.length
  carry_le : carry ≤ 1
  numeral : numeral result + carry * 10 ^ s.length = numeral s + 1

lemma CarrySpec.step {result : Bytes} {carry d k : ℕ} (h : CarrySpec s result carry) (hd : d < 10)
    (hk : k ≤ 1) (hsum : c.toNat - 48 + carry = d + 10 * k) :
    CarrySpec (c :: s) (decimal d ++ result) k := by
  rw [decimal_digit hd]
  refine ⟨?_, congrArg (· + 1) h.length, hk, ?_⟩
  · apply IsDigits.append _ h.digits
    rw [← decimal_digit hd]
    exact isDigits_decimal d
  · have hnumeral := h.numeral
    rw [List.singleton_append, numeral_cons, numeral_cons, toNat_digit hd, h.length,
      List.length_cons, pow_succ, Nat.add_sub_cancel_left]
    calc d * 10 ^ s.length + Lib.numeral result + k * (10 ^ s.length * 10)
        = (d + 10 * k) * 10 ^ s.length + Lib.numeral result := by ring
      _ = (c.toNat - 48) * 10 ^ s.length +
            (Lib.numeral result + carry * 10 ^ s.length) := by rw [← hsum]; ring
      _ = _ := by rw [hnumeral]; ring

/-- **The loop adds one.** -/
lemma carryDigits_spec (h : IsDigits s) : CarrySpec s (carryDigits s).1 (carryDigits s).2 := by
  induction s with
  | nil => exact ⟨h, rfl, le_rfl, rfl⟩
  | cons c s ih =>
    rw [IsDigits, List.forall_mem_cons] at h
    have hrest := ih h.2
    have hcarry := hrest.carry_le
    have hc := h.1.2
    unfold carryDigits
    dsimp only
    split_ifs with hten
    · exact hrest.step (by norm_num) le_rfl hten
    · exact hrest.step (by omega) (Nat.zero_le 1) rfl

/-- The text of the next number. -/
lemma CarrySpec.result_eq {result : Bytes} {carry : ℕ} (h : CarrySpec s result carry)
    (hs : Plain s) :
    (if carry = 1 then 49 :: result else result) = decimal (Lib.numeral s + 1) := by
  have hlength := h.length
  have hnumeral := h.numeral
  split_ifs with hcarry
  · have hvalue : Lib.numeral (49 :: result) = Lib.numeral s + 1 := by
      rw [← hnumeral, hcarry, ← hlength, add_comm]
      exact numeral_cons 49 result
    rw [← hvalue]
    refine (Lib.decimal_numeral ?_ (List.cons_ne_nil _ _) (by simp)).symm
    rw [IsDigits, List.forall_mem_cons]
    exact ⟨by decide, h.digits⟩
  · obtain rfl : carry = 0 := by
      have := h.carry_le
      omega
    rw [← hnumeral, Nat.zero_mul, Nat.add_zero]
    refine (Plain.decimal_numeral ⟨?_, h.digits, ?_⟩).symm
    · apply List.ne_nil_of_length_pos
      rw [hlength]
      exact List.length_pos_of_ne_nil hs.ne_nil
    -- A zero in front would make the sum smaller than the number was.
    · rintro ⟨hlong, hzero⟩
      obtain ⟨rest, rfl⟩ := List.head?_eq_some_iff.mp hzero
      obtain ⟨c, s, rfl⟩ := List.exists_cons_of_ne_nil hs.ne_nil
      have hle := pow_le_numeral hs.digits fun hc => hs.head ⟨hlength ▸ hlong, by rw [hc]; rfl⟩
      have hlt := numeral_lt fun d hd => h.digits d (List.mem_cons_of_mem 48 hd)
      rw [numeral_cons_zero] at hnumeral
      rw [Nat.succ.inj hlength] at hlt
      omega

/-! ## The counters -/

lemma numeral_ascii_max : numeral (ascii "18446744073709551615") = 2 ^ 64 - 1 := by rfl

/-- The bound of the script on its texts. -/
lemma Plain.within_iff (hs : Plain s) :
    ¬ (20 < s.length ∨ (s.length = 20 ∧ ¬ s < ascii "18446744073709551615")) ↔
      numeral s < 2 ^ 64 - 1 := by
  have hlt := numeral_lt hs.digits
  rcases Nat.lt_trichotomy s.length 20 with h | h | h
  · have hpow : 10 ^ s.length ≤ 10 ^ 19 := Nat.pow_le_pow_right (by norm_num) (by omega)
    exact iff_of_true (by omega) (by omega)
  · rw [@lt_iff_numeral_lt s (ascii "18446744073709551615") hs.digits (by decide) h, numeral_ascii_max]
    simp [h]
  · obtain ⟨c, s, rfl⟩ := List.exists_cons_of_ne_nil hs.ne_nil
    have hle := pow_le_numeral hs.digits fun hc => hs.head ⟨by omega, by rw [hc]; rfl⟩
    have hpow : 10 ^ 20 ≤ 10 ^ s.length :=
      Nat.pow_le_pow_right (by norm_num) (Nat.le_of_lt_succ h)
    exact iff_of_false (by omega) (by omega)

/-- **The script takes the text of a number to that of the next one and refuses everything
else.** -/
theorem incrementCounter_eq_some_iff {value : LuaValue} :
    incrementCounter value = some t ↔
      ∃ n < 2 ^ 64 - 1, value = .string (decimal n) ∧ t = decimal (n + 1) := by
  cases value with
  | other => simp [incrementCounter]
  | string s =>
    constructor
    · intro h
      rw [incrementCounter] at h
      split_ifs at h with hbad
      simp only [not_or, not_not] at hbad
      obtain ⟨⟨hne, hdigits⟩, hhead, hwithin⟩ := hbad
      have hs : Plain s := ⟨hne, hdigits, hhead⟩
      refine ⟨numeral s, hs.within_iff.mp (not_or.mpr hwithin), by rw [hs.decimal_numeral], ?_⟩
      rw [← (carryDigits_spec hdigits).result_eq hs]
      exact (Option.some.inj h).symm
    · rintro ⟨n, hn, hvalue, rfl⟩
      obtain rfl := LuaValue.string.inj hvalue
      have hs := plain_decimal n
      have hwithin := hs.within_iff
      rw [numeral_decimal] at hwithin
      rw [incrementCounter, if_neg]
      · refine congrArg some (((carryDigits_spec hs.digits).result_eq hs).trans ?_)
        rw [numeral_decimal]
      · simp only [not_or, not_not]
        exact ⟨⟨hs.ne_nil, hs.digits⟩, hs.head, not_or.mp (hwithin.mpr hn)⟩

lemma parseUint_decimal (h : n < 2 ^ 64) : parseUint (decimal n) = some n := by
  rw [parseUint, numeral_decimal, if_pos ⟨decimal_ne_nil n, isDigits_decimal n, h⟩]

lemma parseUint_canonical_iff :
    (parseUint s).map decimal = some s ↔ ∃ n < 2 ^ 64, s = decimal n := by
  rw [Option.map_eq_some_iff]
  constructor
  · rintro ⟨n, hn, rfl⟩
    unfold parseUint at hn
    split_ifs at hn with h
    rw [numeral_decimal] at h
    exact ⟨n, h.2.2, rfl⟩
  · rintro ⟨n, hn, rfl⟩
    exact ⟨n, parseUint_decimal hn, rfl⟩

/-- So many increments, one after the other. -/
def incrementTimes : ℕ → Bytes → Option Bytes
  | 0, s => some s
  | k + 1, s => (incrementTimes k s).bind fun t => incrementCounter (.string t)

lemma incrementTimes_decimal {k : ℕ} (h : incrementTimes k (decimal n) = some t) :
    t = decimal (n + k) := by
  induction k generalizing t with
  | zero => exact (Option.some.inj h).symm
  | succ k ih =>
    obtain ⟨u, hu, h⟩ := Option.bind_eq_some_iff.mp h
    obtain ⟨m, -, hm, rfl⟩ := incrementCounter_eq_some_iff.mp h
    have heq : decimal m = decimal (n + k) := (LuaValue.string.inj hm).symm.trans (ih hu)
    have hnumeral := congrArg numeral heq
    rw [numeral_decimal, numeral_decimal] at hnumeral
    rw [hnumeral, add_assoc]

/-- **Counters count.** The script adds one below the largest number of 64 bits and refuses every
other value; the texts it makes are read back as their numbers, and a document is read if its
counters are such texts; no sequence of increments comes back to a number. -/
theorem counters_count :
    (∀ value t, incrementCounter value = some t ↔
      ∃ n < 2 ^ 64 - 1, value = .string (decimal n) ∧ t = decimal (n + 1)) ∧
    (∀ n < 2 ^ 64, parseUint (decimal n) = some n) ∧
    (∀ document, unmarshalDocument (some document) = some document ↔
      document.format = 1 ∧ document.payload ≠ [] ∧
        ∀ counter ∈ [document.fence, document.revision], ∃ n < 2 ^ 64, counter = decimal n) ∧
    ∀ n k t, incrementTimes k (decimal n) = some t → numeral t = n + k := by
  refine ⟨fun _ _ => incrementCounter_eq_some_iff, fun n => parseUint_decimal, ?_, ?_⟩
  · intro document
    simp only [unmarshalDocument, Option.filter_eq_some_iff, parseUint_canonical_iff,
      decide_eq_true_eq, true_and]
  · intro n k t h
    rw [incrementTimes_decimal h, numeral_decimal]

end Gogo.Async

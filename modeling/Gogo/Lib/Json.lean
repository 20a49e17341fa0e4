import Mathlib.Tactic

/-!
# JSON values and binary64 numbers

A JSON text is kept as its value tree. A number token is kept by what wrote it: an integer
literal, or the shortest decimal literal that reads back as a given binary64 number. Reading a
number token into a binary64 number rounds an integer literal to nearest, ties to even, and is
exact on the other kind.

* `Float64` — a binary64 number by its bit pattern, with the comparison `eq` of the arithmetic
  (`NaN` is unequal to itself, the two zeros are equal).
* `Json` — null, Booleans, numbers, strings, arrays, and objects as key–value lists.
* `Json.field` — the value of an object under a key, the last one written.
* `Json.toString?`, `Json.toList?`, ... — reading a value into a typed variable, with null as the
  zero value; `Json.read` — reading a member of an object, with absence as the zero value.
-/

namespace Gogo.Lib

/-! ## Binary64 numbers -/

/-- A binary64 number, by its bit pattern. -/
structure Float64 where
  /-- Sign, biased exponent and fraction, from the most significant bit down. -/
  bits : BitVec 64
deriving DecidableEq

namespace Float64

/-- The biased exponent field. -/
def exponent (f : Float64) : Nat := f.bits.toNat / 2 ^ 52 % 2 ^ 11

def fraction (f : Float64) : Nat := f.bits.toNat % 2 ^ 52

/-- Neither infinite nor a `NaN`. -/
def isFinite (f : Float64) : Bool := f.exponent != 2047

/-- All exponent bits set and a non-zero fraction. -/
def isNaN (f : Float64) : Bool := f.exponent == 2047 && f.fraction != 0

/-- One of the two zeros. -/
def isZero (f : Float64) : Bool := f.bits.toNat % 2 ^ 63 == 0

/-- Equality of the arithmetic. -/
def eq (a b : Float64) : Bool :=
  !a.isNaN && !b.isNaN && (a.bits == b.bits || (a.isZero && b.isZero))

/-- A natural number rounded to nearest, ties to even. A carry out of the rounded significand
runs into the exponent field, which is what the encoding is made for. -/
def ofNat (n : Nat) : Float64 :=
  if n = 0 then ⟨0⟩
  else
    let e := Nat.log2 n
    let significand :=
      if e ≤ 52 then n * 2 ^ (52 - e)
      else
        let q := n / 2 ^ (e - 52)
        let r := n % 2 ^ (e - 52)
        let half := 2 ^ (e - 53)
        if half < r ∨ (r = half ∧ q % 2 = 1) then q + 1 else q
    ⟨BitVec.ofNat 64 ((e + 1023) * 2 ^ 52 + (significand - 2 ^ 52))⟩

/-- An integer rounded to nearest, ties to even. -/
def ofInt (n : Int) : Float64 :=
  if n < 0 then ⟨(ofNat n.natAbs).bits ||| BitVec.ofNat 64 (2 ^ 63)⟩ else ofNat n.natAbs

variable {f a b : Float64}

lemma eq_symm (h : a.eq b = true) : b.eq a = true := by
  simp only [eq, Bool.and_eq_true, Bool.or_eq_true, beq_iff_eq, Bool.not_eq_true'] at h ⊢
  obtain ⟨⟨ha, hb⟩, h | ⟨ha', hb'⟩⟩ := h
  · exact ⟨⟨hb, ha⟩, .inl h.symm⟩
  · exact ⟨⟨hb, ha⟩, .inr ⟨hb', ha'⟩⟩

lemma eq_trans {c : Float64} (h : a.eq b = true) (h' : b.eq c = true) : a.eq c = true := by
  simp only [eq, Bool.and_eq_true, Bool.or_eq_true, beq_iff_eq, Bool.not_eq_true'] at h h' ⊢
  obtain ⟨⟨ha, _⟩, h⟩ := h
  obtain ⟨⟨_, hc⟩, h'⟩ := h'
  refine ⟨⟨ha, hc⟩, ?_⟩
  rcases h with h | ⟨ha', hb'⟩
  · rcases h' with h' | ⟨hb', hc'⟩
    · exact .inl (h.trans h')
    · refine .inr ⟨?_, hc'⟩
      simpa only [isZero, h] using hb'
  · rcases h' with h' | ⟨_, hc'⟩
    · refine .inr ⟨ha', ?_⟩
      simpa only [isZero, h'] using hb'
    · exact .inr ⟨ha', hc'⟩

example : (ofInt 5).bits = 0x4014000000000000#64 := by decide

-- The first integer that is not a binary64 number ties to the even neighbour below.
example : ofInt (2 ^ 53 + 1) = ofInt (2 ^ 53) := by decide

end Float64

/-! ## JSON -/

/-- A number token. -/
inductive JsonNumber
  /-- An integer literal. -/
  | int (n : Int)
  /-- The shortest decimal literal that reads back as `f`. -/
  | float (f : Float64)
deriving DecidableEq

/-- The binary64 number that a token is read as. -/
def JsonNumber.toFloat64 : JsonNumber → Float64
  | .int n => Float64.ofInt n
  | .float f => f

/-- A JSON value. -/
inductive Json
  | null
  | bool (b : Bool)
  | num (n : JsonNumber)
  | str (s : String)
  | arr (items : List Json)
  | obj (entries : List (String × Json))

namespace Json

/-- The value under `key` among the entries of an object; of several, the last one. -/
def lookupLast (key : String) : List (String × Json) → Option Json
  | [] => none
  | (k, v) :: rest =>
    match lookupLast key rest with
    | some w => some w
    | none => if k = key then some v else none

/-- The value of an object under a key. -/
def field (key : String) : Json → Option Json
  | .obj entries => lookupLast key entries
  | _ => none

variable {key : String} {v : Json}

lemma sizeOf_lookupLast {entries : List (String × Json)} (h : lookupLast key entries = some v) :
    sizeOf v < sizeOf entries := by
  induction entries with
  | nil => cases h
  | cons e rest ih =>
    obtain ⟨k, w⟩ := e
    unfold lookupLast at h
    rcases hrest : lookupLast key rest with _ | u
    · rw [hrest] at h
      split_ifs at h
      obtain rfl := Option.some.inj h
      simp
      omega
    · rw [hrest] at h
      obtain rfl := Option.some.inj h
      have := ih hrest
      simp
      omega

/-- A member of an object is smaller than the object. -/
lemma sizeOf_field {j : Json} (h : j.field key = some v) : sizeOf v < sizeOf j := by
  rcases j with _ | _ | _ | _ | _ | entries <;> try cases h
  have := sizeOf_lookupLast h
  simp
  omega

/-- A member that is left out when it is empty, in front of other members. -/
def optionalMember (key : String) (value : Option Json) (rest : List (String × Json)) :
    List (String × Json) :=
  match value with
  | some v => (key, v) :: rest
  | none => rest

lemma lookupLast_optionalMember (key k : String) (value : Option Json)
    (rest : List (String × Json)) :
    lookupLast key (optionalMember k value rest) =
      (lookupLast key rest).or (if k = key then value else none) := by
  rcases value with _ | v
  · rw [ite_self, Option.or_none]
    rfl
  · unfold optionalMember
    rw [lookupLast]
    rcases lookupLast key rest with _ | w <;> rfl

/-! ### Typed readers -/

/-- Read into a string. -/
def toString? : Json → Option String
  | .null => some ""
  | .str s => some s
  | _ => none

/-- Read into a Boolean. -/
def toBool? : Json → Option Bool
  | .null => some false
  | .bool b => some b
  | _ => none

/-- Read into an integer. -/
def toInt? : Json → Option Int
  | .null => some 0
  | .num (.int n) => some n
  | _ => none

/-- Read into a slice, whose elements are read by `read`. -/
def toList? {α : Type} (read : Json → Option α) : Json → Option (List α)
  | .null => some []
  | .arr items => items.mapM read
  | _ => none

/-- Read into a pointer. -/
def toPointer? {α : Type} (read : Json → Option α) : Json → Option (Option α)
  | .null => some none
  | j => (read j).map some

/-- Read a member of an object; a member that is absent keeps its zero value. -/
def read {α : Type} (j : Json) (key : String) (zero : α) (reader : Json → Option α) : Option α :=
  match j.field key with
  | some v => reader v
  | none => some zero

variable {α : Type} {k : String} {value : Option Json} {rest : List (String × Json)} {zero : α}
  {reader : Json → Option α}

lemma read_optionalMember_of_ne (h : k ≠ key) :
    (obj (optionalMember k value rest)).read key zero reader = (obj rest).read key zero reader := by
  simp only [read, field, lookupLast_optionalMember, if_neg h, Option.or_none]

/-- An optional member that no other member overwrites. -/
lemma read_optionalMember_self (h : lookupLast key rest = none) :
    (obj (optionalMember key value rest)).read key zero reader = value.elim (some zero) reader := by
  simp only [read, field, lookupLast_optionalMember, if_true, h, Option.none_or]
  cases value <;> rfl

end Json

end Gogo.Lib

import Gogo.Lib.Json

/-!
# Metadata values of type `any`

A field descriptor holds defaults, bounds and choice values at the static type `any`. A `Value`
is such a dynamic value: its dynamic type is visible, because `reflect.DeepEqual` never
identifies values of two types (an `int` five and a `float64` five are different metadata).

* `Value.deepEqual` — `reflect.DeepEqual`. It is symmetric and transitive; it is not reflexive,
  since `NaN` is unequal to itself.
* `Value.marshal`, `Value.unmarshal` — `json.Marshal`, and `json.Unmarshal` into an `any`.
  Decoding knows six shapes only: `nil`, `bool`, `float64`, `string`, `[]any`, `map[string]any`.
-/

namespace Gogo.Models

open Gogo.Lib

/-- The integer types of the language. -/
inductive IntType
  | int | int8 | int16 | int32 | int64 | uint | uint8 | uint16 | uint32 | uint64
deriving DecidableEq

/-- A value of type `any`. -/
inductive Value
  /-- The nil interface. -/
  | nil
  | bool (b : Bool)
  | int (type : IntType) (n : Int)
  | float64 (f : Float64)
  | string (s : String)
  /-- A non-nil `[]any`. -/
  | slice (items : List Value)
  /-- A non-nil `map[string]any`, its entries listed in key order. -/
  | map (entries : List (String × Value))
  /-- A value of any other dynamic type: the type, a text that identifies the value within its
  type, and what `json.Marshal` writes for it (`none` when it fails). -/
  | other (type content : String) (encoded : Option Json)

instance : Inhabited Value := ⟨.nil⟩

namespace Value

/-! ## `reflect.DeepEqual` -/

mutual

/-- Source: `reflect.DeepEqual` on two values of type `any`. -/
def deepEqual : Value → Value → Bool
  | .nil, .nil => true
  | .bool a, .bool b => a == b
  | .int s m, .int t n => s == t && m == n
  | .float64 f, .float64 g => f.eq g
  | .string a, .string b => a == b
  | .slice l, .slice l' => deepEqualList l l'
  | .map l, .map l' => deepEqualEntries l l'
  | .other s a _, .other t b _ => s == t && a == b
  | _, _ => false

/-- Elementwise comparison of two `[]any`. -/
def deepEqualList : List Value → List Value → Bool
  | [], [] => true
  | a :: l, b :: l' => deepEqual a b && deepEqualList l l'
  | _, _ => false

/-- Comparison of two `map[string]any` in key order. -/
def deepEqualEntries : List (String × Value) → List (String × Value) → Bool
  | [], [] => true
  | (k, a) :: l, (k', b) :: l' => k == k' && deepEqual a b && deepEqualEntries l l'
  | _, _ => false

end

mutual

theorem deepEqual_symm : (a b : Value) → deepEqual a b = true → deepEqual b a = true
  | .nil, b, h => by cases b <;> simp_all [deepEqual]
  | .bool _, b, h => by cases b <;> simp_all [deepEqual]
  | .int _ _, b, h => by cases b <;> simp_all [deepEqual]
  | .float64 f, b, h => by
    cases b with
    | float64 g => exact Float64.eq_symm h
    | _ => simp [deepEqual] at h
  | .string _, b, h => by cases b <;> simp_all [deepEqual]
  | .slice l, b, h => by
    cases b with
    | slice l' =>
      simp only [deepEqual] at h ⊢
      exact deepEqualList_symm l l' h
    | _ => simp [deepEqual] at h
  | .map l, b, h => by
    cases b with
    | map l' =>
      simp only [deepEqual] at h ⊢
      exact deepEqualEntries_symm l l' h
    | _ => simp [deepEqual] at h
  | .other _ _ _, b, h => by cases b <;> simp_all [deepEqual]

theorem deepEqualList_symm : (l l' : List Value) → deepEqualList l l' = true →
    deepEqualList l' l = true
  | [], l', h => by cases l' <;> simp_all [deepEqualList]
  | a :: l, l', h => by
    cases l' with
    | nil => simp [deepEqualList] at h
    | cons b l' =>
      simp only [deepEqualList, Bool.and_eq_true] at h ⊢
      exact ⟨deepEqual_symm a b h.1, deepEqualList_symm l l' h.2⟩

theorem deepEqualEntries_symm : (l l' : List (String × Value)) →
    deepEqualEntries l l' = true → deepEqualEntries l' l = true
  | [], l', h => by cases l' <;> simp_all [deepEqualEntries]
  | (k, a) :: l, l', h => by
    cases l' with
    | nil => simp [deepEqualEntries] at h
    | cons e l' =>
      obtain ⟨k', b⟩ := e
      simp only [deepEqualEntries, Bool.and_eq_true, beq_iff_eq] at h ⊢
      exact ⟨⟨h.1.1.symm, deepEqual_symm a b h.1.2⟩, deepEqualEntries_symm l l' h.2⟩

end

mutual

theorem deepEqual_trans : (a b c : Value) → deepEqual a b = true → deepEqual b c = true →
    deepEqual a c = true
  | .nil, b, c, h, h' => by cases b <;> cases c <;> simp_all [deepEqual]
  | .bool _, b, c, h, h' => by cases b <;> cases c <;> simp_all [deepEqual]
  | .int _ _, b, c, h, h' => by cases b <;> cases c <;> simp_all [deepEqual]
  | .float64 f, b, c, h, h' => by
    cases b with
    | float64 g =>
      cases c with
      | float64 k => exact Float64.eq_trans h h'
      | _ => simp [deepEqual] at h'
    | _ => simp [deepEqual] at h
  | .string _, b, c, h, h' => by cases b <;> cases c <;> simp_all [deepEqual]
  | .slice l, b, c, h, h' => by
    cases b with
    | slice l' =>
      cases c with
      | slice l'' =>
        simp only [deepEqual] at h h' ⊢
        exact deepEqualList_trans l l' l'' h h'
      | _ => simp [deepEqual] at h'
    | _ => simp [deepEqual] at h
  | .map l, b, c, h, h' => by
    cases b with
    | map l' =>
      cases c with
      | map l'' =>
        simp only [deepEqual] at h h' ⊢
        exact deepEqualEntries_trans l l' l'' h h'
      | _ => simp [deepEqual] at h'
    | _ => simp [deepEqual] at h
  | .other _ _ _, b, c, h, h' => by cases b <;> cases c <;> simp_all [deepEqual]

theorem deepEqualList_trans : (l l' l'' : List Value) → deepEqualList l l' = true →
    deepEqualList l' l'' = true → deepEqualList l l'' = true
  | [], l', l'', h, h' => by cases l' <;> cases l'' <;> simp_all [deepEqualList]
  | a :: l, l', l'', h, h' => by
    cases l' with
    | nil => simp [deepEqualList] at h
    | cons b l' =>
      cases l'' with
      | nil => simp [deepEqualList] at h'
      | cons c l'' =>
        simp only [deepEqualList, Bool.and_eq_true] at h h' ⊢
        exact ⟨deepEqual_trans a b c h.1 h'.1, deepEqualList_trans l l' l'' h.2 h'.2⟩

theorem deepEqualEntries_trans : (l l' l'' : List (String × Value)) →
    deepEqualEntries l l' = true → deepEqualEntries l' l'' = true →
    deepEqualEntries l l'' = true
  | [], l', l'', h, h' => by cases l' <;> cases l'' <;> simp_all [deepEqualEntries]
  | (k, a) :: l, l', l'', h, h' => by
    cases l' with
    | nil => simp [deepEqualEntries] at h
    | cons e l' =>
      cases l'' with
      | nil => simp [deepEqualEntries] at h'
      | cons e' l'' =>
        obtain ⟨k', b⟩ := e
        obtain ⟨k'', c⟩ := e'
        simp only [deepEqualEntries, Bool.and_eq_true, beq_iff_eq] at h h' ⊢
        exact ⟨⟨h.1.1.trans h'.1.1, deepEqual_trans a b c h.1.2 h'.1.2⟩,
          deepEqualEntries_trans l l' l'' h.2 h'.2⟩

end

/-! ## JSON -/

mutual

/-- Source: `json.Marshal` of an `any`; `none` where it returns an error (an infinite or `NaN`
float, or a type without an encoding). -/
def marshal : Value → Option Json
  | .nil => some .null
  | .bool b => some (.bool b)
  | .int _ n => some (.num (.int n))
  | .float64 f => if f.isFinite then some (.num (.float f)) else none
  | .string s => some (.str s)
  | .slice items => (marshalList items).map .arr
  | .map entries => (marshalEntries entries).map .obj
  | .other _ _ encoded => encoded

/-- The elements of an encoded `[]any`. -/
def marshalList : List Value → Option (List Json)
  | [] => some []
  | v :: l => (marshal v).bind fun j => (marshalList l).map (j :: ·)

/-- The entries of an encoded `map[string]any`. -/
def marshalEntries : List (String × Value) → Option (List (String × Json))
  | [] => some []
  | (k, v) :: l => (marshal v).bind fun j => (marshalEntries l).map ((k, j) :: ·)

end

mutual

/-- Source: `json.Unmarshal` into an `any`. -/
def unmarshal : Json → Value
  | .null => .nil
  | .bool b => .bool b
  | .num n => .float64 n.toFloat64
  | .str s => .string s
  | .arr items => .slice (unmarshalList items)
  | .obj entries => .map (unmarshalEntries entries)

/-- The elements of a decoded array. -/
def unmarshalList : List Json → List Value
  | [] => []
  | j :: l => unmarshal j :: unmarshalList l

/-- The entries of a decoded object. -/
def unmarshalEntries : List (String × Json) → List (String × Value)
  | [] => []
  | (k, j) :: l => (k, unmarshal j) :: unmarshalEntries l

end

end Value

end Gogo.Models

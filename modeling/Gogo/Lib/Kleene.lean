import Mathlib.Data.List.Basic

/-!
# Three-valued logic

The truth values of SQL: a comparison with `NULL` is neither true nor false.

* `Truth`, `Truth.neg`, `Truth.and`, `Truth.or`, `Truth.ne` — the connectives.
* `conj`, `disj` — the conjunction and the disjunction of a list.
* `conj_eq_true`, `disj_eq_false` — a conjunction is true when all its parts are; a disjunction is
  false when all its parts are. Nothing of the kind holds of the other two values.
-/

namespace Gogo.Lib

inductive Truth
  | true
  | false
  | unknown
deriving DecidableEq

namespace Truth

/-- Negation. -/
def neg : Truth → Truth
  | true => false
  | false => true
  | unknown => unknown

/-- Conjunction: one false part decides it. -/
def and : Truth → Truth → Truth
  | false, _ => false
  | _, false => false
  | true, true => true
  | _, _ => unknown

/-- Disjunction: one true part decides it. -/
def or : Truth → Truth → Truth
  | true, _ => true
  | _, true => true
  | false, false => false
  | _, _ => unknown

/-- The comparison of two truth values for inequality. -/
def ne : Truth → Truth → Truth
  | unknown, _ => unknown
  | _, unknown => unknown
  | a, b => if a = b then false else true

variable {a b : Truth} {l : List Truth}

@[simp] lemma neg_eq_true : a.neg = true ↔ a = false := by cases a <;> simp [neg]

@[simp] lemma neg_eq_false : a.neg = false ↔ a = true := by cases a <;> simp [neg]

@[simp] lemma and_eq_true : a.and b = true ↔ a = true ∧ b = true := by
  cases a <;> cases b <;> simp [and]

@[simp] lemma or_eq_false : a.or b = false ↔ a = false ∧ b = false := by
  cases a <;> cases b <;> simp [or]

def conj (l : List Truth) : Truth := l.foldr and true

def disj (l : List Truth) : Truth := l.foldr or false

lemma conj_eq_true : conj l = true ↔ ∀ t ∈ l, t = true := by
  induction l with
  | nil => simp [conj]
  | cons t rest ih =>
    have ih : rest.foldr and true = true ↔ ∀ t ∈ rest, t = true := ih
    simp [conj, ih]

lemma disj_eq_false : disj l = false ↔ ∀ t ∈ l, t = false := by
  induction l with
  | nil => simp [disj]
  | cons t rest ih =>
    have ih : rest.foldr or false = false ↔ ∀ t ∈ rest, t = false := ih
    simp [disj, ih]

end Truth

end Gogo.Lib

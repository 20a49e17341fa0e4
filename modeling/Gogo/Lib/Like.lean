import Mathlib.Data.List.Basic
import Mathlib.Data.List.Infix

/-!
# Patterns with wildcards and an escape

The matching of SQL `LIKE … ESCAPE`: two characters are wildcards, one for any text and one for any
single character, and a third takes the meaning from the character behind it.

* `Wildcards` — the three characters; `parts` reads a pattern, `like` matches it.
* `escapeText` — a text with an escape in front of every character that has a meaning.
* `parts_escapeText` — **an escaped text reads as itself, whatever stands behind it.**
* `like_infix`, `like_isPrefix`, `like_isSuffix` — **between wildcards, an escaped text is looked
  for anywhere, at the front or at the end.**
* `map_escapeText` — a change of characters goes through the escape when it takes the three
  characters to themselves and no other character to one of them.
-/

namespace Gogo.Lib

open List

/-- The characters with a meaning in a pattern. -/
structure Wildcards (α : Type) where
  /-- Stands for any text. -/
  many : α
  /-- Stands for any one character. -/
  one : α
  escape : α
  many_ne_one : many ≠ one
  many_ne_escape : many ≠ escape
  one_ne_escape : one ≠ escape

/-- A piece of a pattern that has been read. -/
inductive PatternPart (α : Type)
  | lit (c : α)
  | one
  | many
deriving DecidableEq

section Like

variable {α : Type} [DecidableEq α] (w : Wildcards α)

/-- The character has a meaning in a pattern. -/
def Wildcards.special (c : α) : Bool := c = w.many ∨ c = w.one ∨ c = w.escape

/-- What a character means that is not behind an escape. -/
def Wildcards.meaning (c : α) : PatternPart α :=
  if c = w.many then .many else if c = w.one then .one else .lit c

/-- Read a pattern; one that ends with an escape is not a pattern. -/
def parts : List α → Option (List (PatternPart α))
  | [] => some []
  | [c] => if c = w.escape then none else some [w.meaning c]
  | c :: d :: rest =>
    if c = w.escape then (parts rest).map (.lit d :: ·)
    else (parts (d :: rest)).map (w.meaning c :: ·)

/-- Match a pattern against a text. -/
def matchesParts : List (PatternPart α) → List α → Bool
  | [], text => text.isEmpty
  | .lit _ :: _, [] => false
  | .lit c :: pattern, d :: rest => d = c && matchesParts pattern rest
  | .one :: _, [] => false
  | .one :: pattern, _ :: rest => matchesParts pattern rest
  | .many :: pattern, text => text.tails.any fun rest => matchesParts pattern rest

/-- `text LIKE pattern ESCAPE …`. -/
def like (pattern text : List α) : Bool :=
  match parts w pattern with
  | none => false
  | some pattern => matchesParts pattern text

/-- One character of an escaped text. -/
def escapeChar (c : α) : List α := if w.special c then [w.escape, c] else [c]

/-- A text with an escape in front of every character that has a meaning. -/
def escapeText (text : List α) : List α := text.flatMap (escapeChar w)

variable {w} {text s : List α} {pattern : List (PatternPart α)}

/-! ## Reading -/

lemma parts_cons {c : α} (h : c ≠ w.escape) (rest : List α) :
    parts w (c :: rest) = (parts w rest).map (w.meaning c :: ·) := by
  rcases rest with _ | ⟨d, rest⟩
  · unfold parts
    rw [if_neg h]
    rfl
  · rw [parts, if_neg h]

lemma parts_many (rest : List α) : parts w (w.many :: rest) = (parts w rest).map (.many :: ·) := by
  rw [parts_cons w.many_ne_escape]
  unfold Wildcards.meaning
  rw [if_pos rfl]

lemma parts_escapeChar (c : α) (rest : List α) :
    parts w (escapeChar w c ++ rest) = (parts w rest).map (.lit c :: ·) := by
  unfold escapeChar
  by_cases hspecial : w.special c = true
  · rw [if_pos hspecial, cons_append, cons_append, nil_append, parts, if_pos rfl]
  · rw [if_neg hspecial, cons_append, nil_append]
    unfold Wildcards.special at hspecial
    rw [decide_eq_true_iff, not_or, not_or] at hspecial
    obtain ⟨hmany, hone, hescape⟩ := hspecial
    rw [parts_cons hescape]
    unfold Wildcards.meaning
    rw [if_neg hmany, if_neg hone]

/-- **An escaped text reads as itself.** -/
theorem parts_escapeText (text rest : List α) :
    parts w (escapeText w text ++ rest) = (parts w rest).map (text.map .lit ++ ·) := by
  induction text with
  | nil =>
    show parts w rest = _
    rcases parts w rest with _ | read <;> rfl
  | cons c text ih =>
    have hcons : escapeText w (c :: text) ++ rest =
        escapeChar w c ++ (escapeText w text ++ rest) := by
      unfold escapeText
      rw [flatMap_cons, append_assoc]
    rw [hcons, parts_escapeChar, ih, Option.map_map]
    rfl

/-! ## Matching -/

lemma matchesParts_lits :
    matchesParts (text.map .lit ++ pattern) s = true ↔
      ∃ rest, s = text ++ rest ∧ matchesParts pattern rest = true := by
  induction text generalizing s with
  | nil => exact ⟨fun h => ⟨s, rfl, h⟩, fun ⟨rest, heq, h⟩ => heq ▸ h⟩
  | cons c text ih =>
    rw [map_cons, cons_append]
    rcases s with _ | ⟨d, s⟩
    · refine iff_of_false (fun h => by cases h) ?_
      rintro ⟨rest, heq, -⟩
      cases heq
    · rw [matchesParts, Bool.and_eq_true, decide_eq_true_iff, ih]
      constructor
      · rintro ⟨rfl, rest, rfl, h⟩
        exact ⟨rest, rfl, h⟩
      · rintro ⟨rest, heq, h⟩
        obtain ⟨rfl, rfl⟩ := List.cons.inj heq
        exact ⟨rfl, rest, rfl, h⟩

lemma matchesParts_many :
    matchesParts (.many :: pattern) s = true ↔
      ∃ front rest, s = front ++ rest ∧ matchesParts pattern rest = true := by
  rw [matchesParts, any_eq_true]
  constructor
  · rintro ⟨rest, hrest, h⟩
    obtain ⟨front, rfl⟩ := (mem_tails rest s).mp hrest
    exact ⟨front, rest, rfl, h⟩
  · rintro ⟨front, rest, rfl, h⟩
    exact ⟨rest, (mem_tails _ _).mpr (suffix_append front rest), h⟩

lemma matchesParts_nil : matchesParts [] s = true ↔ s = [] := List.isEmpty_iff

/-- A last wildcard matches every text. -/
lemma matchesParts_only_many : matchesParts [.many] s = true :=
  matchesParts_many.mpr ⟨s, [], (append_nil s).symm, rfl⟩

/-! ## Looking for a text -/

/-- **Between two wildcards a text is looked for anywhere.** -/
theorem like_infix :
    like w (w.many :: escapeText w text ++ [w.many]) s = true ↔ text <:+: s := by
  have hread : parts w (w.many :: escapeText w text ++ [w.many]) =
      some (.many :: (text.map .lit ++ [.many])) := by
    rw [cons_append, parts_many, parts_escapeText, parts_many]
    rfl
  unfold like
  rw [hread]
  show matchesParts (.many :: (text.map .lit ++ [.many])) s = true ↔ _
  rw [matchesParts_many]
  constructor
  · rintro ⟨front, rest, rfl, h⟩
    obtain ⟨back, rfl, -⟩ := matchesParts_lits.mp h
    exact ⟨front, back, append_assoc _ _ _⟩
  · rintro ⟨front, back, rfl⟩
    refine ⟨front, text ++ back, append_assoc _ _ _, ?_⟩
    exact matchesParts_lits.mpr ⟨back, rfl, matchesParts_only_many⟩

/-- **In front of a wildcard a text is looked for at the front.** -/
theorem like_isPrefix : like w (escapeText w text ++ [w.many]) s = true ↔ text <+: s := by
  have hread : parts w (escapeText w text ++ [w.many]) = some (text.map .lit ++ [.many]) := by
    rw [parts_escapeText, parts_many]
    rfl
  unfold like
  rw [hread]
  show matchesParts (text.map .lit ++ [.many]) s = true ↔ _
  rw [matchesParts_lits]
  constructor
  · rintro ⟨rest, rfl, -⟩
    exact prefix_append _ _
  · rintro ⟨rest, rfl⟩
    exact ⟨rest, rfl, matchesParts_only_many⟩

/-- **Behind a wildcard a text is looked for at the end.** -/
theorem like_isSuffix : like w (w.many :: escapeText w text) s = true ↔ text <:+ s := by
  have hread : parts w (w.many :: escapeText w text) = some (.many :: text.map .lit) := by
    have hnil : parts w (escapeText w text ++ []) = some (text.map .lit ++ []) :=
      parts_escapeText text []
    rw [append_nil, append_nil] at hnil
    rw [parts_many, hnil]
    rfl
  unfold like
  rw [hread]
  show matchesParts (.many :: text.map .lit) s = true ↔ _
  rw [matchesParts_many, ← append_nil (text.map PatternPart.lit)]
  constructor
  · rintro ⟨front, rest, rfl, h⟩
    obtain ⟨back, rfl, hback⟩ := matchesParts_lits.mp h
    obtain rfl := matchesParts_nil.mp hback
    rw [append_nil]
    exact suffix_append _ _
  · rintro ⟨front, rfl⟩
    exact ⟨front, text, rfl, matchesParts_lits.mpr ⟨[], (append_nil text).symm, rfl⟩⟩

/-! ## Changing characters -/

/-- **A change of characters goes through the escape** when it keeps the meaning of each. -/
theorem map_escapeText {f : α → α} (hescape : f w.escape = w.escape)
    (hspecial : ∀ c, w.special (f c) = w.special c) (text : List α) :
    (escapeText w text).map f = escapeText w (text.map f) := by
  unfold escapeText
  rw [map_flatMap, flatMap_map]
  refine flatMap_congr fun c _ => ?_
  unfold escapeChar
  rw [hspecial c]
  split_ifs
  · rw [map_cons, hescape]
    rfl
  · rfl

end Like

end Gogo.Lib

import Gogo.Lib.Bytes

/-!
# UTF-8

* `runes` — the code points of a byte sequence, with `none` for a byte that belongs to no
  well-formed sequence.
* `valid` — every byte belongs to a well-formed sequence.
* `mem_runes_of_ascii` — an ASCII byte is a code point of its own.
* `isControl`, `hasControl` — control characters, by their code points and by their bytes;
  `any_isControl_runes` — the two agree.
-/

namespace Gogo.Lib.Utf8

open List

/-- A byte that continues a sequence. -/
def continues (b : UInt8) : Bool := 0x80 ≤ b.toNat && b.toNat ≤ 0xbf

/-- A sequence of two bytes. -/
def two (a b : UInt8) : Bool := 0xc2 ≤ a.toNat && a.toNat ≤ 0xdf && continues b

/-- A sequence of three bytes: not overlong, and no surrogate. -/
def three (a b c : UInt8) : Bool :=
  0xe0 ≤ a.toNat && a.toNat ≤ 0xef && continues b && continues c &&
    (a.toNat != 0xe0 || 0xa0 ≤ b.toNat) && (a.toNat != 0xed || b.toNat ≤ 0x9f)

/-- A sequence of four bytes: not overlong, and not beyond the last code point. -/
def four (a b c d : UInt8) : Bool :=
  0xf0 ≤ a.toNat && a.toNat ≤ 0xf4 && continues b && continues c && continues d &&
    (a.toNat != 0xf0 || 0x90 ≤ b.toNat) && (a.toNat != 0xf4 || b.toNat ≤ 0x8f)

/-- The code point of two bytes. -/
def rune₂ (a b : UInt8) : ℕ := a.toNat % 32 * 64 + b.toNat % 64

/-- The code point of three bytes. -/
def rune₃ (a b c : UInt8) : ℕ := a.toNat % 16 * 4096 + b.toNat % 64 * 64 + c.toNat % 64

/-- The code point of four bytes. -/
def rune₄ (a b c d : UInt8) : ℕ :=
  a.toNat % 8 * 262144 + b.toNat % 64 * 4096 + c.toNat % 64 * 64 + d.toNat % 64

/-- The code point that starts with a byte, and how many of the bytes after it belong to it. -/
def decodeRune (a : UInt8) (rest : Bytes) : Option ℕ × ℕ :=
  if a.toNat < 0x80 then (some a.toNat, 0)
  else
    match rest with
    | [] => (none, 0)
    | b :: rest₁ =>
      if two a b then (some (rune₂ a b), 1)
      else
        match rest₁ with
        | [] => (none, 0)
        | c :: rest₂ =>
          if three a b c then (some (rune₃ a b c), 2)
          else
            match rest₂ with
            | [] => (none, 0)
            | d :: _ =>
              if four a b c d then (some (rune₄ a b c d), 3) else (none, 0)

/-- The code points after the bytes that belong to the last one. -/
def runesFrom : ℕ → Bytes → List (Option ℕ)
  | _, [] => []
  | k + 1, _ :: rest => runesFrom k rest
  | 0, a :: rest => (decodeRune a rest).1 :: runesFrom (decodeRune a rest).2 rest

/-- The code points of a byte sequence. -/
def runes (s : Bytes) : List (Option ℕ) := runesFrom 0 s

/-- Every byte belongs to a well-formed sequence. -/
def valid (s : Bytes) : Bool := (runes s).all Option.isSome

def isControl (r : ℕ) : Bool := r < 0x20 || (0x7f ≤ r && r ≤ 0x9f)

/-- Whether a byte sequence goes on with a byte that makes `0xc2` a control character. -/
def startsControl : Bytes → Bool
  | b :: _ => 0x80 ≤ b.toNat && b.toNat ≤ 0x9f
  | [] => false

/-- Control characters by their bytes. -/
def hasControl : Bytes → Bool
  | [] => false
  | a :: rest =>
    a.toNat < 0x20 || a.toNat == 0x7f || (a.toNat == 0xc2 && startsControl rest) ||
      hasControl rest

variable {a b c : UInt8} {r : ℕ}

/-- The first byte of a sequence of three or more is no control character. -/
lemma hasControl_cons (h : 0x80 ≤ a.toNat) (hne : a.toNat ≠ 0xc2) (rest : Bytes) :
    hasControl (a :: rest) = hasControl rest := by
  have h1 : ¬ a.toNat < 0x20 := by omega
  have h2 : a.toNat ≠ 0x7f := by omega
  simp [hasControl, h1, h2, hne]

lemma continues_iff : continues b = true ↔ 0x80 ≤ b.toNat ∧ b.toNat ≤ 0xbf := by
  simp [continues]

lemma hasControl_of_continues (h : continues b = true) (rest : Bytes) :
    hasControl (b :: rest) = hasControl rest := by
  rw [continues_iff] at h
  exact hasControl_cons h.1 (by omega) rest

/-- A lead byte without its continuation is no control character. -/
lemma hasControl_of_not_two (h : 0x80 ≤ a.toNat) (hne : two a b = false) (rest : Bytes) :
    hasControl (a :: b :: rest) = hasControl (b :: rest) := by
  by_cases hc2 : a.toNat = 0xc2
  · have hb : ¬ (0x80 ≤ b.toNat ∧ b.toNat ≤ 0xbf) := by
      rw [← continues_iff]
      intro hb
      simp [two, hc2, hb] at hne
    have hstart : startsControl (b :: rest) = false := by
      simp only [startsControl, Bool.and_eq_false_iff, decide_eq_false_iff_not]
      omega
    rw [hasControl]
    simp [hc2, hstart]
  · exact hasControl_cons h hc2 _

lemma isControl_iff : isControl r = true ↔ r < 0x20 ∨ (0x7f ≤ r ∧ r ≤ 0x9f) := by
  simp [isControl]

lemma isControl_of_lt (h : 0x9f < r) : isControl r = false := by
  rw [Bool.eq_false_iff, ne_eq, isControl_iff]
  omega

lemma isControl_rune₂ (h : two a b = true) (rest : Bytes) :
    isControl (rune₂ a b) = (a.toNat == 0xc2 && startsControl (b :: rest)) := by
  simp only [two, Bool.and_eq_true, decide_eq_true_eq, continues_iff] at h
  rw [Bool.eq_iff_iff, isControl_iff]
  simp only [startsControl, Bool.and_eq_true, decide_eq_true_eq, beq_iff_eq]
  unfold rune₂
  omega

lemma isControl_rune₃ (h : three a b c = true) : isControl (rune₃ a b c) = false := by
  simp only [three, Bool.and_eq_true, decide_eq_true_eq, Bool.or_eq_true, bne_iff_ne,
    continues_iff] at h
  apply isControl_of_lt
  unfold rune₃
  omega

lemma isControl_rune₄ {d : UInt8} (h : four a b c d = true) : isControl (rune₄ a b c d) = false := by
  simp only [four, Bool.and_eq_true, decide_eq_true_eq, Bool.or_eq_true, bne_iff_ne,
    continues_iff] at h
  apply isControl_of_lt
  unfold rune₄
  omega

lemma runesFrom_eq (k : ℕ) (s : Bytes) : runesFrom k s = runes (s.drop k) := by
  induction s generalizing k with
  | nil => simp [runesFrom, runes]
  | cons a rest ih =>
    cases k with
    | zero => rfl
    | succ k => rw [runesFrom, ih, drop_succ_cons]

lemma decodeRune_of_lt (h : a.toNat < 0x80) (rest : Bytes) :
    decodeRune a rest = (some a.toNat, 0) := if_pos h

/-- What a byte that is not ASCII starts: a sequence of two, three or four bytes, or none. -/
lemma decodeRune_cases (h : ¬ a.toNat < 0x80) (rest : Bytes) :
    (∃ b r, rest = b :: r ∧ two a b = true ∧ decodeRune a rest = (some (rune₂ a b), 1)) ∨
    (∀ b r, rest = b :: r → two a b = false) ∧
      (decodeRune a rest = (none, 0) ∨
       (∃ b c r, rest = b :: c :: r ∧ three a b c = true ∧
          decodeRune a rest = (some (rune₃ a b c), 2)) ∨
       ∃ b c d r, rest = b :: c :: d :: r ∧ four a b c d = true ∧
          decodeRune a rest = (some (rune₄ a b c d), 3)) := by
  unfold decodeRune
  rw [if_neg h]
  cases rest with
  | nil => exact .inr ⟨by simp, .inl rfl⟩
  | cons b rest₁ =>
    by_cases htwo : two a b = true
    · exact .inl ⟨b, rest₁, rfl, htwo, if_pos htwo⟩
    · refine .inr ⟨?_, ?_⟩
      · intro b' r heq
        obtain ⟨rfl, rfl⟩ := List.cons.inj heq
        exact Bool.eq_false_iff.mpr htwo
      · simp only [if_neg htwo]
        cases rest₁ with
        | nil => exact .inl rfl
        | cons c rest₂ =>
          by_cases hthree : three a b c = true
          · exact .inr (.inl ⟨b, c, rest₂, rfl, hthree, if_pos hthree⟩)
          · simp only [if_neg hthree]
            cases rest₂ with
            | nil => exact .inl rfl
            | cons d rest₃ =>
              by_cases hfour : four a b c d = true
              · exact .inr (.inr ⟨b, c, d, rest₃, rfl, hfour, if_pos hfour⟩)
              · exact .inl (if_neg hfour)

/-- The code point in front is a control character, or there is one behind it. -/
lemma any_isControl_decodeRune (a : UInt8) (rest : Bytes) :
    ((decodeRune a rest).1.any isControl || hasControl (rest.drop (decodeRune a rest).2)) =
      hasControl (a :: rest) := by
  by_cases hlt : a.toNat < 0x80
  · have hc2 : a.toNat ≠ 0xc2 := by omega
    have h9f : (decide (0x7f ≤ a.toNat) && decide (a.toNat ≤ 0x9f)) = (a.toNat == 0x7f) := by
      by_cases h7f : a.toNat = 0x7f
      · simp [h7f]
      · simp only [beq_eq_false_iff_ne.mpr h7f, Bool.and_eq_false_iff, decide_eq_false_iff_not]
        omega
    simp only [decodeRune_of_lt hlt, Option.any_some, drop_zero, isControl, hasControl, h9f,
      beq_eq_false_iff_ne.mpr hc2, Bool.false_and, Bool.or_false]
  have h1 : ¬ a.toNat < 0x20 := by omega
  have h2 : a.toNat ≠ 0x7f := by omega
  rcases decodeRune_cases hlt rest with ⟨b, r, rfl, htwo, hrune⟩ | ⟨hnot, hcases⟩
  · have hb : continues b = true := by
      rw [two, Bool.and_eq_true] at htwo
      exact htwo.2
    rw [hrune, drop_one, tail_cons, Option.any_some, isControl_rune₂ htwo r, hasControl,
      hasControl_of_continues hb, decide_eq_false h1, beq_eq_false_iff_ne.mpr h2, Bool.false_or,
      Bool.false_or]
  · have hlead : hasControl (a :: rest) = hasControl rest := by
      cases rest with
      | nil => simp [hasControl, startsControl, h1, h2]
      | cons b r => exact hasControl_of_not_two (by omega) (hnot b r rfl) r
    rw [hlead]
    rcases hcases with hrune | ⟨b, c, r, rfl, hthree, hrune⟩ | ⟨b, c, d, r, rfl, hfour, hrune⟩
    · rw [hrune, Option.any_none, Bool.false_or, drop_zero]
    · rw [hrune, Option.any_some, isControl_rune₃ hthree, Bool.false_or]
      simp only [three, Bool.and_eq_true] at hthree
      rw [hasControl_of_continues hthree.1.1.1.2, hasControl_of_continues hthree.1.1.2]
      rfl
    · rw [hrune, Option.any_some, isControl_rune₄ hfour, Bool.false_or]
      simp only [four, Bool.and_eq_true] at hfour
      rw [hasControl_of_continues hfour.1.1.1.1.2, hasControl_of_continues hfour.1.1.1.2,
        hasControl_of_continues hfour.1.1.2]
      rfl

/-- **Control characters are told by their bytes.** -/
theorem any_isControl_runes (s : Bytes) :
    (runes s).any (fun r => r.any isControl) = hasControl s := by
  -- Induction on the length, since one code point may take several bytes.
  induction hn : s.length using Nat.strong_induction_on generalizing s with
  | _ n ih =>
    cases s with
    | nil => rfl
    | cons a rest =>
      have hshort : (rest.drop (decodeRune a rest).2).length < n := by
        rw [length_drop, ← hn, length_cons]
        omega
      rw [runes, runesFrom, any_cons, runesFrom_eq, ih _ hshort _ rfl]
      exact any_isControl_decodeRune a rest

/-- The bytes of a control character. -/
lemma hasControl_iff {s : Bytes} : hasControl s = true ↔
    (∃ c ∈ s, c.toNat < 0x20 ∨ c.toNat = 0x7f) ∨
      ∃ front rest b, s = front ++ 0xc2 :: b :: rest ∧ 0x80 ≤ b.toNat ∧ b.toNat ≤ 0x9f := by
  induction s with
  | nil => simp [hasControl]
  | cons a rest ih =>
    simp only [hasControl, Bool.or_eq_true, Bool.and_eq_true, decide_eq_true_eq, beq_iff_eq, ih]
    constructor
    · rintro (((h | h) | ⟨ha, hstart⟩) | ⟨c, hc, h⟩ | ⟨front, rest', b, rfl, h⟩)
      · exact .inl ⟨a, mem_cons_self, .inl h⟩
      · exact .inl ⟨a, mem_cons_self, .inr h⟩
      · obtain rfl : a = 0xc2 := UInt8.toNat_inj.mp ha
        cases rest with
        | nil => cases hstart
        | cons b rest => exact .inr ⟨[], rest, b, rfl, by simpa [startsControl] using hstart⟩
      · exact .inl ⟨c, mem_cons_of_mem _ hc, h⟩
      · exact .inr ⟨a :: front, rest', b, rfl, h⟩
    · rintro (⟨c, hc, h⟩ | ⟨front, rest', b, heq, h⟩)
      · rcases mem_cons.mp hc with rfl | hc
        · exact .inl (.inl h)
        · exact .inr (.inl ⟨c, hc, h⟩)
      · cases front with
        | nil =>
          obtain ⟨rfl, rfl⟩ := cons.inj heq
          exact .inl (.inr ⟨rfl, by simpa [startsControl] using h⟩)
        | cons d front =>
          obtain ⟨rfl, rfl⟩ := cons.inj heq
          exact .inr (.inr ⟨front, rest', b, rfl, h⟩)

/-- The bytes that belong to a code point in front are not ASCII. -/
lemma mem_drop_decodeRune {rest : Bytes} (hb : b.toNat < 0x80) (hmem : b ∈ rest) :
    b ∈ rest.drop (decodeRune a rest).2 := by
  have hne : ∀ {c : UInt8}, continues c = true → b ≠ c := by
    rintro c hc rfl
    have := continues_iff.mp hc
    omega
  by_cases hlt : a.toNat < 0x80
  · rw [decodeRune_of_lt hlt]
    exact hmem
  rcases decodeRune_cases hlt rest with ⟨x, r, rfl, htwo, hrune⟩ | ⟨-, hcases⟩
  · rw [two, Bool.and_eq_true] at htwo
    rw [hrune]
    exact (mem_cons.mp hmem).resolve_left (hne htwo.2)
  rcases hcases with hrune | ⟨x, y, r, rfl, hthree, hrune⟩ | ⟨x, y, z, r, rfl, hfour, hrune⟩
  · rw [hrune]
    exact hmem
  · simp only [three, Bool.and_eq_true] at hthree
    rw [hrune]
    exact (mem_cons.mp ((mem_cons.mp hmem).resolve_left
      (hne hthree.1.1.1.2))).resolve_left (hne hthree.1.1.2)
  · simp only [four, Bool.and_eq_true] at hfour
    rw [hrune]
    exact (mem_cons.mp ((mem_cons.mp ((mem_cons.mp hmem).resolve_left
      (hne hfour.1.1.1.1.2))).resolve_left (hne hfour.1.1.1.2))).resolve_left (hne hfour.1.1.2)

/-- An ASCII byte is a code point of its own. -/
lemma mem_runes_of_ascii {b : UInt8} {s : Bytes} (hb : b.toNat < 0x80) (hmem : b ∈ s) :
    some b.toNat ∈ runes s := by
  induction hn : s.length using Nat.strong_induction_on generalizing s with
  | _ n ih =>
    cases s with
    | nil => cases hmem
    | cons a rest =>
      rw [runes, runesFrom, runesFrom_eq]
      rcases mem_cons.mp hmem with rfl | hmem
      · rw [decodeRune_of_lt hb]
        exact mem_cons_self
      · refine mem_cons_of_mem _ (ih _ ?_ (mem_drop_decodeRune hb hmem) rfl)
        rw [← hn, length_drop, length_cons]
        omega

end Gogo.Lib.Utf8

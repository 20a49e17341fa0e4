import Mathlib.Data.List.Basic
import Mathlib.Tactic

/-!
# Percent-encoding

* `unescape` — the bytes that an encoded text stands for, if its escapes are well formed.
* `relaxed`, `escapes` — decoding that leaves malformed escapes as they are, and the bytes of the
  escapes that it decodes.
* `Spells` — a piece of a text spells a byte through any number of escapes of escapes; `Reads` — a
  text is made of pieces that spell the bytes of another one.
* `reads_iterate` — every decoding of a text is something that it reads as.
* `Spells.iterate_append` — an inert byte that a piece spells is decoded in its place;
  `Spells.iterate_eq` — decoded often enough, the piece is the byte.
-/

namespace Gogo.Lib.Percent

open List

/-- The byte `%`. -/
def percent : UInt8 := 37

/-- The digit of a number below sixteen. -/
def upperhex (n : ℕ) : UInt8 := if n < 10 then UInt8.ofNat (48 + n) else UInt8.ofNat (55 + n)

/-- The number of a hexadecimal digit. -/
def unhex (c : UInt8) : Option ℕ :=
  if 48 ≤ c.toNat ∧ c.toNat ≤ 57 then some (c.toNat - 48)
  else if 97 ≤ c.toNat ∧ c.toNat ≤ 102 then some (c.toNat - 87)
  else if 65 ≤ c.toNat ∧ c.toNat ≤ 70 then some (c.toNat - 55)
  else none

/-- The text that an encoded text stands for. -/
def unescape : List UInt8 → Option (List UInt8)
  | [] => some []
  | c :: rest =>
    if c = percent then
      match rest with
      | high :: low :: rest => do
        let h ← unhex high
        let l ← unhex low
        let text ← unescape rest
        pure (UInt8.ofNat (16 * h + l) :: text)
      | _ => none
    else do
      let text ← unescape rest
      pure (c :: text)

/-! ## Decoding that leaves malformed escapes -/

/-- The byte that two hexadecimal digits in front stand for. -/
def digitsByte : List UInt8 → Option UInt8
  | high :: low :: _ =>
    match unhex high, unhex low with
    | some h, some l => some (UInt8.ofNat (16 * h + l))
    | _, _ => none
  | _ => none

/-- The text after one decoding, without the digits that belong to the last escape. -/
def relaxedFrom : ℕ → List UInt8 → List UInt8
  | _, [] => []
  | k + 1, _ :: rest => relaxedFrom k rest
  | 0, c :: rest =>
    match (if c = percent then digitsByte rest else none) with
    | some b => b :: relaxedFrom 2 rest
    | none => c :: relaxedFrom 0 rest

/-- The text after one decoding; a malformed escape is left as it is. -/
def relaxed (s : List UInt8) : List UInt8 := relaxedFrom 0 s

/-- The bytes of the escapes in a text. -/
def escapes : List UInt8 → List UInt8
  | [] => []
  | c :: rest => if c = percent then (digitsByte rest).toList ++ escapes rest else escapes rest

section Relaxed

variable {high low : UInt8} {h l : ℕ}

variable {c : UInt8} {rest s : List UInt8}

lemma ne_percent_of_unhex (hc : unhex c = some h) : c ≠ percent := by
  rintro rfl
  exact absurd hc (by simp [unhex, percent])

lemma digitsByte_digits (hh : unhex high = some h) (hl : unhex low = some l) (rest : List UInt8) :
    digitsByte (high :: low :: rest) = some (UInt8.ofNat (16 * h + l)) := by
  simp only [digitsByte, hh, hl]

lemma relaxed_escape (hh : unhex high = some h) (hl : unhex low = some l) (rest : List UInt8) :
    relaxed (percent :: high :: low :: rest) = UInt8.ofNat (16 * h + l) :: relaxed rest := by
  simp only [relaxed, relaxedFrom, if_true, digitsByte_digits hh hl]

lemma relaxed_other (hc : c = percent → digitsByte rest = none) :
    relaxed (c :: rest) = c :: relaxed rest := by
  have hnone : (if c = percent then digitsByte rest else none) = none := by
    split_ifs with hp
    · exact hc hp
    · rfl
  simp only [relaxed, relaxedFrom, hnone]

lemma escapes_escape (hh : unhex high = some h) (hl : unhex low = some l) (rest : List UInt8) :
    escapes (percent :: high :: low :: rest) = UInt8.ofNat (16 * h + l) :: escapes rest := by
  rw [escapes, if_pos rfl, digitsByte_digits hh hl, escapes, if_neg (ne_percent_of_unhex hh),
    escapes, if_neg (ne_percent_of_unhex hl)]
  rfl

lemma escapes_other (hc : c = percent → digitsByte rest = none) :
    escapes (c :: rest) = escapes rest := by
  by_cases hp : c = percent
  · rw [escapes, if_pos hp, hc hp]
    rfl
  · rw [escapes, if_neg hp]

/-- Induction along one decoding: an escape, or a byte that is kept. -/
theorem relaxed_induction {P : List UInt8 → Prop} (nil : P [])
    (escape : ∀ high low h l rest, unhex high = some h → unhex low = some l → P rest →
      P (percent :: high :: low :: rest))
    (other : ∀ c rest, (c = percent → digitsByte rest = none) → P rest → P (c :: rest)) :
    ∀ s, P s
  | [] => nil
  | c :: rest => by
    by_cases hc : c = percent → digitsByte rest = none
    · exact other c rest hc (relaxed_induction nil escape other rest)
    · rw [Classical.not_imp] at hc
      obtain ⟨rfl, hsome⟩ := hc
      match rest, hsome with
      | [], hsome => exact absurd rfl hsome
      | [_], hsome => exact absurd rfl hsome
      | high :: low :: rest, hsome =>
        simp only [digitsByte] at hsome
        split at hsome
        · rename_i h l hh hl
          exact escape high low h l rest hh hl (relaxed_induction nil escape other rest)
        · exact absurd rfl hsome

lemma length_relaxed (s : List UInt8) :
    (relaxed s).length + 2 * (escapes s).length = s.length := by
  induction s using relaxed_induction with
  | nil => rfl
  | escape high low h l rest hh hl ih =>
    rw [relaxed_escape hh hl, escapes_escape hh hl]
    simp only [length_cons]
    omega
  | other d rest hd ih =>
    rw [relaxed_other hd, escapes_other hd]
    simp only [length_cons]
    omega

/-- Two digits are still two digits when more text follows, unless what follows is the second. -/
lemma digitsByte_append (hc : unhex c = none) (a b : List UInt8) :
    digitsByte (a ++ c :: b) = digitsByte a := by
  match a with
  | [] =>
    cases b with
    | nil => rfl
    | cons d b => simp [digitsByte, hc]
  | [high] =>
    simp only [cons_append, nil_append, digitsByte, hc]
    split <;> simp_all
  | high :: low :: a => rfl

/-- **Decoding works on both sides of a byte that is no digit.** -/
theorem relaxed_append (hc : unhex c = none) (a b : List UInt8) :
    relaxed (a ++ c :: b) = relaxed a ++ relaxed (c :: b) := by
  induction a using relaxed_induction with
  | nil => rfl
  | escape high low h l rest hh hl ih =>
    rw [cons_append, cons_append, cons_append, relaxed_escape hh hl, relaxed_escape hh hl, ih,
      cons_append]
  | other d rest hd ih =>
    have hd' : d = percent → digitsByte (rest ++ c :: b) = none := by
      intro hp
      rw [digitsByte_append hc]
      exact hd hp
    rw [cons_append, relaxed_other hd', relaxed_other hd, ih, cons_append]

/-- Decoding works on both sides of a byte that is no part of an escape. -/
lemma relaxed_append_cons (hhex : unhex c = none) (hc : c ≠ percent) (a b : List UInt8) :
    relaxed (a ++ c :: b) = relaxed a ++ c :: relaxed b := by
  rw [relaxed_append hhex, relaxed_other fun h => absurd h hc]

end Relaxed

/-! ## Bytes that pieces of a text spell -/

/-- A piece of a text spells a byte: it is the byte, or pieces that spell a percent sign and two
hexadecimal digits follow each other in it. -/
inductive Spells : List UInt8 → UInt8 → Prop
  | byte (x : UInt8) : Spells [x] x
  | escape {p q r : List UInt8} {high low : UInt8} {h l : ℕ} (hp : Spells p percent)
      (hq : Spells q high) (hr : Spells r low) (hh : unhex high = some h) (hl : unhex low = some l) :
      Spells (p ++ (q ++ r)) (UInt8.ofNat (16 * h + l))

/-- A text reads as another one: it is made of pieces that spell its bytes. -/
inductive Reads : List UInt8 → List UInt8 → Prop
  | nil : Reads [] []
  | cons {p s t : List UInt8} {x : UInt8} (hp : Spells p x) (hs : Reads s t) :
      Reads (p ++ s) (x :: t)

/-- A byte that no escape is made of. -/
def Inert (x : UInt8) : Prop := unhex x = none ∧ x ≠ percent

/-- The shape of a piece that is more than one byte: it starts with a percent sign, ends with two
digits, and has nothing else in it. -/
structure Framed (p : List UInt8) : Prop where
  start : ∃ t, p = percent :: t
  stop : ∃ t high low, p = t ++ [high, low] ∧ high ≠ percent ∧ low ≠ percent
  notInert : ∀ x ∈ p, ¬ Inert x

section Spelling

variable {p s t a b : List UInt8} {x : UInt8}

lemma not_inert_percent : ¬ Inert percent := fun h => h.2 rfl

lemma not_inert_of_unhex {h : ℕ} (hx : unhex x = some h) : ¬ Inert x := by
  intro hinert
  rw [hinert.1] at hx
  cases hx

/-- A piece is the byte that it spells, or framed. -/
lemma Spells.shape (h : Spells p x) : p = [x] ∨ Framed p := by
  induction h with
  | byte x => exact .inl rfl
  | @escape p q r high low h l hp hq hr hh hl ihp ihq ihr =>
    refine .inr ⟨?_, ?_, ?_⟩
    · rcases ihp with rfl | ihp
      · exact ⟨_, rfl⟩
      · obtain ⟨t, rfl⟩ := ihp.start
        exact ⟨_, rfl⟩
    · rcases ihr with rfl | ihr
      · -- the last digit is a byte, and the piece before it ends with one too
        rcases ihq with rfl | ihq
        · exact ⟨p, high, low, rfl, ne_percent_of_unhex hh, ne_percent_of_unhex hl⟩
        · obtain ⟨t, y, z, rfl, hy, hz⟩ := ihq.stop
          exact ⟨p ++ (t ++ [y]), z, low, by simp, hz, ne_percent_of_unhex hl⟩
      · obtain ⟨t, y, z, rfl, hy, hz⟩ := ihr.stop
        exact ⟨p ++ (q ++ t), y, z, by simp, hy, hz⟩
    · intro y hy
      rw [mem_append, mem_append] at hy
      rcases hy with hy | hy | hy
      · rcases ihp with rfl | ihp
        · rw [mem_singleton.mp hy]
          exact not_inert_percent
        · exact ihp.notInert y hy
      · rcases ihq with rfl | ihq
        · rw [mem_singleton.mp hy]
          exact not_inert_of_unhex hh
        · exact ihq.notInert y hy
      · rcases ihr with rfl | ihr
        · rw [mem_singleton.mp hy]
          exact not_inert_of_unhex hl
        · exact ihr.notInert y hy

lemma Spells.length (h : Spells p x) : p = [x] ∨ 3 ≤ p.length := by
  refine h.shape.imp id fun hframed => ?_
  obtain ⟨⟨t, rfl⟩, ⟨t', y, z, heq, hy, -⟩, -⟩ := hframed
  rcases t' with _ | ⟨w, t'⟩
  · exact absurd (cons.inj heq).1.symm hy
  · rw [heq]
    simp

lemma Spells.length_pos (h : Spells p x) : 0 < p.length := by
  rcases h.length with rfl | hp
  · simp
  · omega

/-- The escapes of a part are escapes of the whole. -/
lemma escapes_subset (h : p <:+: s) : escapes p ⊆ escapes s := by
  obtain ⟨a, b, rfl⟩ := h
  intro x hx
  have hfront : x ∈ escapes (p ++ b) := by
    induction p with
    | nil => cases hx
    | cons c p ih =>
      rw [cons_append, escapes] at *
      split_ifs at hx ⊢ with hc
      · refine mem_append.mpr ((mem_append.mp hx).imp (fun hdigits => ?_) ih)
        match p, hdigits with
        | _ :: _ :: _, hdigits => exact hdigits
      · exact ih hx
  induction a with
  | nil => exact hfront
  | cons c a ih =>
    rw [cons_append, cons_append, escapes]
    split_ifs
    · exact mem_append_right _ ih
    · exact ih

/-- A short piece is a byte or one escape. -/
lemma Spells.mem_escapes (h : Spells p x) (hshort : p.length ≤ 3) (hs : p <:+: s) :
    p = [x] ∨ x ∈ escapes s := by
  cases h with
  | byte x => exact .inl rfl
  | @escape p q r high low h l hp hq hr hh hl =>
    have hpos := hp.length_pos
    have hpos' := hq.length_pos
    have hpos'' := hr.length_pos
    simp only [length_append] at hshort
    obtain rfl := hp.length.resolve_right (by omega)
    obtain rfl := hq.length.resolve_right (by omega)
    obtain rfl := hr.length.resolve_right (by omega)
    refine .inr (escapes_subset hs ?_)
    change _ ∈ escapes [percent, high, low]
    rw [escapes_escape hh hl]
    exact mem_cons_self

/-! ### Decoding around pieces -/

/-- Decoding works on both sides of the end of a piece: no escape goes on behind it. -/
lemma relaxed_append_of_stop (hs : ∀ t, t <:+ s → t.length ≤ 2 → percent ∉ t) (b : List UInt8) :
    relaxed (s ++ b) = relaxed s ++ relaxed b := by
  induction s using relaxed_induction with
  | nil => rfl
  | escape high low h l rest hh hl ih =>
    rw [cons_append, cons_append, cons_append, relaxed_escape hh hl, relaxed_escape hh hl, ih,
      cons_append]
    exact fun t ht => hs t (ht.trans (suffix_append [percent, high, low] rest))
  | other d rest hd ih =>
    have hd' : d = percent → digitsByte (rest ++ b) = none := by
      intro hp
      have hnone := hd hp
      match rest, hnone with
      | [], _ => exact absurd (hp ▸ mem_cons_self) (hs [d] (suffix_refl _) (by simp))
      | [y], _ => exact absurd (hp ▸ mem_cons_self) (hs [d, y] (suffix_refl _) (by simp))
      | y :: z :: rest, hnone => exact hnone
    rw [cons_append, relaxed_other hd', relaxed_other hd, ih, cons_append]
    exact fun t ht => hs t (ht.trans (suffix_cons d rest))

lemma Framed.relaxed_append_right (h : Framed p) (b : List UInt8) :
    relaxed (p ++ b) = relaxed p ++ relaxed b := by
  refine relaxed_append_of_stop (fun t ht hlen hmem => ?_) b
  obtain ⟨front, high, low, rfl, hhigh, hlow⟩ := h.stop
  have hsub : t <:+ [high, low] :=
    suffix_of_suffix_length_le ht (suffix_append front _) (by simpa using hlen)
  have := hsub.subset hmem
  simp only [mem_cons, not_mem_nil, or_false] at this
  rcases this with heq | heq
  · exact hhigh heq.symm
  · exact hlow heq.symm

lemma relaxed_singleton (x : UInt8) : relaxed [x] = [x] := relaxed_other fun _ => rfl

lemma length_relaxed_le (s : List UInt8) : (relaxed s).length ≤ s.length := by
  have := length_relaxed s
  omega

/-- **A decoding takes a piece to a shorter one that spells the same byte.** -/
theorem Spells.relaxed (h : Spells p x) :
    Spells (relaxed p) x ∧ (p ≠ [x] → (Percent.relaxed p).length < p.length) := by
  induction h with
  | byte x => exact ⟨(relaxed_singleton x).symm ▸ .byte x, fun hne => absurd rfl hne⟩
  | @escape p q r high low h l hp hq hr hh hl ihp ihq ihr =>
    rcases hq.shape with rfl | hq'
    · rcases hp.shape with rfl | hp'
      · rcases hr.shape with rfl | hr'
        · -- one escape
          rw [cons_append, nil_append, cons_append, nil_append, relaxed_escape hh hl]
          exact ⟨.byte _, fun _ => by simp [Percent.relaxed, relaxedFrom]⟩
        · -- the percent sign and the first digit are not followed by a digit yet
          have hdigits : digitsByte ([high] ++ r) = none := by
            obtain ⟨t, rfl⟩ := hr'.start
            cases t <;> simp [digitsByte, show unhex percent = none from rfl]
          have hrelaxed : Percent.relaxed ([percent] ++ ([high] ++ r)) =
              [percent] ++ ([high] ++ Percent.relaxed r) := by
            rw [cons_append, nil_append, relaxed_other fun _ => hdigits, cons_append, nil_append,
              relaxed_other fun hp => absurd hp (ne_percent_of_unhex hh)]
            rfl
          have hne : r ≠ [low] := by
            rintro rfl
            obtain ⟨t, ht⟩ := hr'.start
            exact ne_percent_of_unhex hl (cons.inj ht).1
          rw [hrelaxed]
          refine ⟨.escape (.byte _) (.byte _) ihr.1 hh hl, fun _ => ?_⟩
          have := ihr.2 hne
          simp only [length_append, length_singleton]
          omega
      · have hrelaxed : Percent.relaxed (p ++ ([high] ++ r)) =
            Percent.relaxed p ++ ([high] ++ Percent.relaxed r) := by
          rw [hp'.relaxed_append_right, cons_append, nil_append,
            relaxed_other fun hp => absurd hp (ne_percent_of_unhex hh)]
          rfl
        have hne : p ≠ [percent] := by
          rintro rfl
          obtain ⟨t, y, z, heq, -⟩ := hp'.stop
          simpa using congrArg List.length heq
        rw [hrelaxed]
        refine ⟨.escape ihp.1 (.byte _) ihr.1 hh hl, fun _ => ?_⟩
        have := ihp.2 hne
        have := length_relaxed_le r
        simp only [length_append, length_singleton]
        omega
    · have hrelaxed : Percent.relaxed (p ++ (q ++ r)) =
          Percent.relaxed p ++ (Percent.relaxed q ++ Percent.relaxed r) := by
        obtain ⟨t, rfl⟩ := hq'.start
        rw [cons_append, relaxed_append (by decide), ← cons_append, hq'.relaxed_append_right]
      have hne : q ≠ [high] := by
        rintro rfl
        obtain ⟨t, ht⟩ := hq'.start
        exact ne_percent_of_unhex hh (cons.inj ht).1
      rw [hrelaxed]
      refine ⟨.escape ihp.1 ihq.1 ihr.1 hh hl, fun _ => ?_⟩
      have := ihq.2 hne
      have := length_relaxed_le p
      have := length_relaxed_le r
      simp only [length_append]
      omega

/-- Without escapes only a byte spells a byte. -/
lemma Spells.eq_of_escapes (h : Spells p x) (hp : p <:+: s) (hs : escapes s = []) : p = [x] := by
  by_contra hne
  have hlt := h.relaxed.2 hne
  have hnil : escapes p = [] := subset_nil.mp (hs ▸ escapes_subset hp)
  have hlength := length_relaxed p
  rw [hnil, length_nil] at hlength
  omega

lemma Spells.iterate (h : Spells p x) (k : ℕ) : Spells (Percent.relaxed^[k] p) x := by
  induction k with
  | zero => exact h
  | succ k ih =>
    rw [Function.iterate_succ_apply']
    exact ih.relaxed.1

/-- **Decoded often enough, a piece is the byte that it spells.** -/
theorem Spells.iterate_eq (h : Spells p x) {k : ℕ} (hk : p.length ≤ k) :
    Percent.relaxed^[k] p = [x] := by
  induction k generalizing p with
  | zero =>
    have hnil : p = [] := by simpa using hk
    rcases h.shape with rfl | h'
    · cases hnil
    · obtain ⟨t, rfl⟩ := h'.start
      cases hnil
  | succ k ih =>
    rw [Function.iterate_succ_apply]
    by_cases hp : p = [x]
    · subst hp
      rw [relaxed_singleton]
      exact Function.iterate_fixed (relaxed_singleton x) k
    · exact ih h.relaxed.1 (by have := h.relaxed.2 hp; omega)

lemma Spells.relaxed_append (h : Spells p x) (hx : Inert x) (a b : List UInt8) :
    Percent.relaxed (a ++ (p ++ b)) =
      Percent.relaxed a ++ (Percent.relaxed p ++ Percent.relaxed b) := by
  rcases h.shape with rfl | h'
  · rw [cons_append, nil_append, Percent.relaxed_append hx.1, relaxed_singleton,
      relaxed_other fun hp => absurd hp hx.2]
    rfl
  · obtain ⟨t, rfl⟩ := h'.start
    rw [cons_append, Percent.relaxed_append (by decide), ← cons_append, h'.relaxed_append_right]

/-- **An inert byte that a piece spells is decoded in its place.** -/
theorem Spells.iterate_append (h : Spells p x) (hx : Inert x) (a b : List UInt8) (k : ℕ) :
    Percent.relaxed^[k] (a ++ (p ++ b)) =
      Percent.relaxed^[k] a ++ (Percent.relaxed^[k] p ++ Percent.relaxed^[k] b) := by
  induction k with
  | zero => rfl
  | succ k ih =>
    rw [Function.iterate_succ_apply', ih, (h.iterate k).relaxed_append hx]
    simp only [Function.iterate_succ_apply']

/-! ### What a decoding reads -/

lemma Reads.refl (s : List UInt8) : Reads s s := by
  induction s with
  | nil => exact .nil
  | cons c rest ih => exact .cons (.byte c) ih

/-- What reads as two texts has a part for each. -/
lemma Reads.split (h : Reads s (a ++ b)) : ∃ s₁ s₂, s = s₁ ++ s₂ ∧ Reads s₁ a ∧ Reads s₂ b := by
  induction a generalizing s with
  | nil => exact ⟨[], s, rfl, .nil, h⟩
  | cons x a ih =>
    cases h with
    | cons hp hs =>
      obtain ⟨s₁, s₂, rfl, h₁, h₂⟩ := ih hs
      exact ⟨_ ++ s₁, s₂, (append_assoc _ _ _).symm, .cons hp h₁, h₂⟩

lemma Reads.spells (h : Reads s [x]) : Spells s x := by
  cases h with
  | cons hp hs =>
    cases hs
    rwa [append_nil]

/-- What reads as a piece spells its byte. -/
lemma Spells.of_reads (h : Spells p x) (hs : Reads s p) : Spells s x := by
  induction h generalizing s with
  | byte x => exact hs.spells
  | escape _ _ _ hh hl ihp ihq ihr =>
    obtain ⟨s₁, s₂, rfl, h₁, h₂⟩ := hs.split
    obtain ⟨s₂, s₃, rfl, h₂, h₃⟩ := h₂.split
    exact .escape (ihp h₁) (ihq h₂) (ihr h₃) hh hl

lemma Reads.trans (h : Reads s t) (h' : Reads t a) : Reads s a := by
  induction h' generalizing s with
  | nil => exact h
  | cons hp _ ih =>
    obtain ⟨s₁, s₂, rfl, h₁, h₂⟩ := h.split
    exact .cons (hp.of_reads h₁) (ih h₂)

lemma reads_relaxed (s : List UInt8) : Reads s (Percent.relaxed s) := by
  induction s using relaxed_induction with
  | nil => exact .nil
  | escape high low h l rest hh hl ih =>
    rw [relaxed_escape hh hl]
    exact .cons (.escape (.byte percent) (.byte high) (.byte low) hh hl) ih
  | other d rest hd ih =>
    rw [relaxed_other hd]
    exact .cons (.byte d) ih

/-- **Every decoding of a text is something that it reads as.** -/
theorem reads_iterate (s : List UInt8) (k : ℕ) : Reads s (Percent.relaxed^[k] s) := by
  induction k with
  | zero => exact .refl s
  | succ k ih =>
    rw [Function.iterate_succ_apply']
    exact ih.trans (reads_relaxed _)

lemma Reads.mem (h : Reads s t) (hx : x ∈ t) : ∃ p, p <:+: s ∧ Spells p x := by
  obtain ⟨t₁, t₂, rfl⟩ := append_of_mem hx
  obtain ⟨s₁, s₂, rfl, -, h₂⟩ := h.split
  cases h₂ with
  | @cons p s t x hp hs => exact ⟨p, ⟨s₁, s, by simp⟩, hp⟩

/-- An inert byte is still there. -/
lemma Reads.count_le (h : Reads s t) (hx : Inert x) : s.count x ≤ t.count x := by
  induction h with
  | nil => exact le_rfl
  | @cons p s t y hp _ ih =>
    rw [count_append]
    rcases hp.shape with rfl | hp'
    · rw [← count_append, cons_append, nil_append, count_cons, count_cons]
      omega
    · rw [count_eq_zero.mpr fun hmem => hp'.notInert x hmem hx, count_cons]
      omega

/-- A byte that only itself spells does not occur more often than before. -/
lemma Reads.count_ge (h : Reads s t) (hx : ∀ p, p <:+: s → Spells p x → p = [x]) :
    t.count x ≤ s.count x := by
  induction h with
  | nil => exact le_rfl
  | @cons p s t y hp _ ih =>
    have hs := ih fun q hq => hx q (hq.trans (suffix_append p s).isInfix)
    rw [count_append, count_cons]
    by_cases hy : y = x
    · subst hy
      rw [hx p (prefix_append p s).isInfix hp, beq_self_eq_true, if_pos rfl, count_singleton_self]
      omega
    · rw [beq_eq_false_iff_ne.mpr hy, if_neg Bool.false_ne_true]
      omega

end Spelling

end Gogo.Lib.Percent

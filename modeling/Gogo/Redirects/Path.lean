import Gogo.Lib.Percent
import Gogo.Lib.Utf8

/-!
# Paths of redirects

`uriComponent` accepts a path only if its decoding has no structure that the raw text hides. It
also looks at the escapes that are left after one decoding, so that another decoder finds no
structure either. Escapes can still be put together from pieces: `%25%2532F` decodes to `%%32F`,
then to `%2F`, then to `/`.

* `uriComponent` — as in the source, on bytes.
* `Flat` — a text has the slashes of a first one, no dot segment, no backslash, no control
  character, and no question mark or hash that the first one does not have.
* `Unspelled` — no piece of a text that is longer than one escape spells structure, and no two
  pieces spell a control character beyond ASCII.
* `flat_under_decoding_iff` — **an accepted path stays flat under every number of decodings exactly
  when its first decoding is `Unspelled`.**
* `composed_slash` — an accepted path with a slash after three decodings.
-/

namespace Gogo.Redirects

open List Gogo.Lib
open Gogo.Lib.Percent (percent unhex relaxed escapes Spells Reads Inert)

/-- The byte `/`. -/
def slash : UInt8 := 47

/-- The byte `\`. -/
def backslash : UInt8 := 92

/-- `MaxURIBytes`. -/
def maxURIBytes : ℕ := 2048

/-- `unreserved`. -/
def unreserved (b : UInt8) : Bool :=
  (97 ≤ b.toNat && b.toNat ≤ 122) || (65 ≤ b.toNat && b.toNat ≤ 90) ||
    (48 ≤ b.toNat && b.toNat ≤ 57) || (ascii "-._~").contains b

/-- `isHex`. -/
def isHex (b : UInt8) : Bool :=
  (48 ≤ b.toNat && b.toNat ≤ 57) || (97 ≤ b.toNat && b.toNat ≤ 102) ||
    (65 ≤ b.toNat && b.toNat ≤ 70)

/-- The digit of `hexByte`. -/
def hexDigit (b : UInt8) : UInt8 :=
  if 48 ≤ b.toNat ∧ b.toNat ≤ 57 then b - 48 else (b ||| 32) - 97 + 10

/-- `hexByte`. -/
def hexByte (a b : UInt8) : UInt8 := (hexDigit a <<< 4) ||| hexDigit b

/-- A percent sign with two bytes behind it, at every position of a text. -/
def percents : Bytes → List (UInt8 × UInt8)
  | [] => []
  | c :: rest =>
    match rest with
    | a :: b :: _ => if c = percent then (a, b) :: percents rest else percents rest
    | _ => percents rest

/-- The escapes that `uriComponent` refuses after one decoding. -/
def refused (b : UInt8) : Bool :=
  b.toNat ≤ 32 || b.toNat == 127 || (ascii "/\\.%?#").contains b

/-- The checks of `uriComponent` that only a path has to pass. -/
def pathAllowed (raw decoded : Bytes) : Bool :=
  !(decoded.splitOn slash).contains (ascii ".") && !(decoded.splitOn slash).contains (ascii "..") &&
    (percents raw).all (fun (a, b) => hexByte a b != slash && hexByte a b != backslash) &&
    (percents decoded).all fun (a, b) => !(isHex a && isHex b && refused (hexByte a b))

/-- One byte of the output. -/
def outputByte (path : Bool) (b : UInt8) : Option Bytes :=
  if 128 ≤ b.toNat then
    some [percent, Percent.upperhex (b.toNat / 16), Percent.upperhex (b.toNat % 16)]
  else if unreserved b || (ascii ":@!$&'()*+,;=/%").contains b || (!path && b == 63) then some [b]
  else none

/-- `uriComponent`. -/
def uriComponent (raw : Bytes) (path : Bool) : Option Bytes :=
  match Percent.unescape raw with
  | none => none
  | some decoded =>
    if Utf8.valid decoded = false ∨
        (Utf8.runes decoded).any (fun r => r == some 92 || r.any Utf8.isControl) = true then none
    else if path = true ∧ pathAllowed raw decoded = false then none
    else
      match raw.mapM (outputByte path) with
      | none => none
      | some output =>
        if output.flatten.length > maxURIBytes then none else some output.flatten

/-- What a text may not gain over a first one. -/
structure Flat (first text : Bytes) : Prop where
  slashes : text.count slash = first.count slash
  dot : ascii "." ∉ text.splitOn slash
  dots : ascii ".." ∉ text.splitOn slash
  backslash : backslash ∉ text
  control : (Utf8.runes text).any (fun r => r.any Utf8.isControl) = false
  question : text.count 63 ≤ first.count 63
  hash : text.count 35 ≤ first.count 35

/-- What a path may not gain, wherever it stands. -/
def Structural (x : UInt8) : Prop :=
  x.toNat < 32 ∨ x.toNat = 127 ∨ x = slash ∨ x = backslash ∨ x = 63 ∨ x = 35

instance (x : UInt8) : Decidable (Structural x) := by
  unfold Structural
  infer_instance

/-- Nothing in a text that is longer than one escape spells structure or a dot segment, and nothing
spells U+0080 to U+009F. -/
structure Unspelled (text : Bytes) : Prop where
  byte : ∀ p x, p <:+: text → Spells p x → 3 < p.length → ¬ Structural x
  dot : ∀ p ∈ text.splitOn slash, 3 < p.length → ¬ Spells p 46
  dots : ∀ p q, p ++ q ∈ text.splitOn slash → (3 < p.length ∨ 3 < q.length) → Spells p 46 →
    ¬ Spells q 46
  control : ∀ p q x, p ++ q <:+: text → Spells p 0xc2 → Spells q x →
    ¬ (0x80 ≤ x.toNat ∧ x.toNat ≤ 0x9f)

/-! ## Hexadecimal digits -/

variable {a : UInt8} {h : ℕ} {s seg first text raw : Bytes}

lemma hexDigit_eq (ha : unhex a = some h) : hexDigit a = UInt8.ofNat h ∧ h < 16 := by
  have hself : a = UInt8.ofNat a.toNat := by simp
  unfold unhex at ha
  rw [hself]
  generalize hn : a.toNat = n at *
  split_ifs at ha with h1 h2 h3
  · cases ha
    obtain ⟨hlo, hhi⟩ := h1
    interval_cases n <;> decide
  · cases ha
    obtain ⟨hlo, hhi⟩ := h2
    interval_cases n <;> decide
  · cases ha
    obtain ⟨hlo, hhi⟩ := h3
    interval_cases n <;> decide

lemma hexByte_eq {b : UInt8} {l : ℕ} (ha : unhex a = some h) (hb : unhex b = some l) :
    hexByte a b = UInt8.ofNat (16 * h + l) := by
  obtain ⟨hha, hlt⟩ := hexDigit_eq ha
  obtain ⟨hhb, hlt'⟩ := hexDigit_eq hb
  rw [hexByte, hha, hhb]
  interval_cases h <;> interval_cases l <;> decide

lemma isHex_eq (b : UInt8) : isHex b = (unhex b).isSome := by
  unfold isHex unhex
  split_ifs with h1 h2 h3
  · simp [h1]
  · simp [h2]
  · simp [h3]
  · simp only [Option.isSome_none, Bool.or_eq_false_iff, Bool.and_eq_false_iff,
      decide_eq_false_iff_not]
    omega

/-- The escapes that the source finds at all positions are the ones that a decoder decodes. -/
lemma mem_escapes_iff {x : UInt8} :
    x ∈ escapes s ↔
      ∃ a b, (a, b) ∈ percents s ∧ isHex a = true ∧ isHex b = true ∧ hexByte a b = x := by
  induction s with
  | nil => simp [escapes, percents]
  | cons c rest ih =>
    rw [escapes, percents.eq_def]
    rcases rest with _ | ⟨a, _ | ⟨b, rest⟩⟩
    · simp_all [Percent.digitsByte, escapes, percents]
    · simp_all [Percent.digitsByte]
    · simp only
      by_cases hc : c = percent
      · rw [if_pos hc, if_pos hc, mem_append, ih]
        have hhead : x ∈ (Percent.digitsByte (a :: b :: rest)).toList ↔
            isHex a = true ∧ isHex b = true ∧ hexByte a b = x := by
          rw [isHex_eq, isHex_eq, Percent.digitsByte]
          cases ha : unhex a with
          | none => simp
          | some h =>
            cases hb : unhex b with
            | none => simp
            | some l => simp [hexByte_eq ha hb, eq_comm]
        rw [hhead]
        constructor
        · rintro (h | ⟨a', b', hmem, h⟩)
          · exact ⟨a, b, mem_cons_self, h⟩
          · exact ⟨a', b', mem_cons_of_mem _ hmem, h⟩
        · rintro ⟨a', b', hmem, h⟩
          rcases mem_cons.mp hmem with heq | hmem
          · obtain ⟨rfl, rfl⟩ := Prod.mk.inj heq
            exact .inl h
          · exact .inr ⟨a', b', hmem, h⟩
      · rw [if_neg hc, if_neg hc, ih]

/-! ## Segments -/

lemma unhex_slash : unhex slash = none := by decide

lemma slash_ne_percent : slash ≠ percent := by decide

/-- Induction from one slash to the next. -/
lemma slash_induction {P : Bytes → Prop} (last : ∀ s, slash ∉ s → P s)
    (next : ∀ a b, slash ∉ a → P b → P (a ++ slash :: b)) (s : Bytes) : P s := by
  induction hn : s.length using Nat.strong_induction_on generalizing s with
  | _ n ih =>
    by_cases hs : slash ∈ s
    · obtain ⟨a, b, rfl, ha⟩ := eq_append_cons_of_mem hs
      refine next a b ha (ih b.length ?_ b rfl)
      rw [← hn, length_append, length_cons]
      omega
    · exact last s hs

lemma slash_notMem_of_mem_splitOn (h : seg ∈ s.splitOn slash) : slash ∉ seg := by
  induction s using slash_induction with
  | last s hs =>
    rw [splitOn_eq_singleton hs, mem_singleton] at h
    exact h ▸ hs
  | next a b ha ih =>
    rw [splitOn_append_cons_self_of_not_mem ha, mem_cons] at h
    rcases h with rfl | h
    · exact ha
    · exact ih h

lemma infix_of_mem_splitOn (h : seg ∈ s.splitOn slash) : seg <:+: s := by
  induction s using slash_induction with
  | last s hs =>
    rw [splitOn_eq_singleton hs, mem_singleton] at h
    exact h ▸ infix_refl s
  | next a b ha ih =>
    rw [splitOn_append_cons_self_of_not_mem ha, mem_cons] at h
    rcases h with rfl | h
    · exact (prefix_append _ _).isInfix
    · exact (ih h).trans ⟨a ++ [slash], [], by simp⟩

/-- The segments are decoded one by one. -/
lemma splitOn_relaxed (s : Bytes) : (relaxed s).splitOn slash =
    (s.splitOn slash).flatMap fun seg => (relaxed seg).splitOn slash := by
  induction s using slash_induction with
  | last s hs => rw [splitOn_eq_singleton hs, flatMap_singleton]
  | next a b ha ih =>
    rw [Percent.relaxed_append_cons unhex_slash slash_ne_percent, splitOn_append_cons_self,
      splitOn_append_cons_self_of_not_mem ha, flatMap_cons, ih]

/-- What becomes of a segment is among the segments of what becomes of the text. -/
lemma splitOn_iterate_subset (h : seg ∈ s.splitOn slash) (k : ℕ) :
    (relaxed^[k] seg).splitOn slash ⊆ (relaxed^[k] s).splitOn slash := by
  induction k with
  | zero =>
    intro u hu
    rw [Function.iterate_zero_apply, splitOn_eq_singleton (slash_notMem_of_mem_splitOn h),
      mem_singleton] at hu
    exact hu ▸ h
  | succ k ih =>
    rw [Function.iterate_succ_apply', Function.iterate_succ_apply', splitOn_relaxed,
      splitOn_relaxed (relaxed^[k] s)]
    intro u hu
    obtain ⟨v, hv, hu⟩ := mem_flatMap.mp hu
    exact mem_flatMap.mpr ⟨v, ih hv, hu⟩

/-! ## What is spelled -/

lemma inert_slash : Inert slash := ⟨unhex_slash, slash_ne_percent⟩

lemma Structural.inert {x : UInt8} (h : Structural x) : Inert x := by
  rcases h with h | h | rfl | rfl | rfl | rfl
  · refine ⟨?_, ?_⟩
    · unfold unhex
      split_ifs <;> first | omega | rfl
    · rintro rfl
      simp [percent] at h
  · obtain rfl : x = 127 := UInt8.toNat_inj.mp h
    exact ⟨by decide, by decide⟩
  all_goals exact ⟨by decide, by decide⟩

lemma inert_of_le {x : UInt8} (h : 0x80 ≤ x.toNat) : Inert x := by
  refine ⟨?_, ?_⟩
  · unfold unhex
    split_ifs <;> first | omega | rfl
  · rintro rfl
    simp [percent] at h

/-- An inert byte that is spelled by more than itself is gained. -/
lemma count_lt_of_spells {p d : Bytes} {x : UInt8} (hp : p <:+: d) (h : Spells p x) (hx : Inert x)
    (hne : p ≠ [x]) : d.count x < (relaxed^[p.length] d).count x := by
  obtain ⟨a, b, rfl⟩ := hp
  have hzero : p.count x = 0 :=
    count_eq_zero.mpr fun hmem => (h.shape.resolve_left hne).notInert x hmem hx
  have ha := (Percent.reads_iterate a p.length).count_le hx
  have hb := (Percent.reads_iterate b p.length).count_le hx
  rw [append_assoc, h.iterate_append hx, h.iterate_eq le_rfl]
  simp only [count_append, hzero, count_singleton_self]
  omega

/-- Two inert bytes that are spelled side by side come to stand side by side. -/
lemma iterate_pair {p q : Bytes} {x y : UInt8} (hp : Spells p x) (hq : Spells q y) (hx : Inert x)
    (hy : Inert y) (a b : Bytes) :
    relaxed^[p.length + q.length] (a ++ (p ++ (q ++ b))) =
      relaxed^[p.length + q.length] a ++ x :: y :: relaxed^[p.length + q.length] b := by
  have hback := hq.iterate_append hy [] b (p.length + q.length)
  rw [nil_append] at hback
  rw [hp.iterate_append hx, hback, hp.iterate_eq (by omega), hq.iterate_eq (by omega)]
  have hnil : relaxed^[p.length + q.length] [] = [] := Function.iterate_fixed rfl _
  rw [hnil]
  rfl

/-- What is read between slashes is read from a segment, if only slashes spell slashes. -/
lemma Reads.segment (h : Reads s text) (hslash : ∀ p, p <:+: s → Spells p slash → p = [slash])
    (hseg : seg ∈ text.splitOn slash) : ∃ u ∈ s.splitOn slash, Reads u seg := by
  have hnone : ∀ {s t : Bytes}, Reads s t → slash ∉ t → slash ∉ s := by
    intro s t h ht hs
    have hle := h.count_le inert_slash
    rw [count_eq_zero.mpr ht] at hle
    exact (count_pos_iff.mpr hs).not_ge hle
  induction text using slash_induction generalizing s with
  | last t ht =>
    rw [splitOn_eq_singleton ht, mem_singleton] at hseg
    subst hseg
    rw [splitOn_eq_singleton (hnone h ht)]
    exact ⟨s, mem_singleton_self s, h⟩
  | next a b ha ih =>
    obtain ⟨s₁, s₂, rfl, h₁, h₂⟩ := h.split
    cases h₂ with
    | @cons p s₂ _ _ hp hs₂ =>
      obtain rfl := hslash p ⟨s₁, s₂, by simp⟩ hp
      rw [splitOn_append_cons_self_of_not_mem ha, mem_cons] at hseg
      rw [cons_append, nil_append, splitOn_append_cons_self_of_not_mem (hnone h₁ ha)]
      rcases hseg with rfl | hseg
      · exact ⟨s₁, mem_cons_self, h₁⟩
      · obtain ⟨u, hu, hread⟩ := ih hs₂
          (fun p hp' => hslash p (hp'.trans ⟨s₁ ++ [slash], [], by simp⟩)) hseg
        exact ⟨u, mem_cons_of_mem _ hu, hread⟩

lemma Flat.not_hasControl (h : Flat first text) : ¬ Utf8.hasControl text = true := by
  rw [← Utf8.any_isControl_runes, h.control]
  exact Bool.false_ne_true

/-! ## Accepted paths -/

/-- What an accepted path says of its decoding. -/
structure Accepted (raw decoded : Bytes) : Prop where
  decodes : Percent.unescape raw = some decoded
  noBackslash : backslash ∉ decoded
  noControl : Utf8.hasControl decoded = false
  noDot : ascii "." ∉ decoded.splitOn slash
  noDots : ascii ".." ∉ decoded.splitOn slash
  nested : ∀ x ∈ escapes decoded, refused x = false

lemma Accepted.of_uriComponent {out : Bytes} (h : uriComponent raw true = some out) :
    ∃ decoded, Accepted raw decoded := by
  unfold uriComponent at h
  cases hd : Percent.unescape raw with
  | none =>
    rw [hd] at h
    cases h
  | some decoded =>
    rw [hd] at h
    simp only [true_and] at h
    split_ifs at h with hbad hpath
    rw [not_or] at hbad
    simp only [Bool.not_eq_false, pathAllowed, Bool.and_eq_true, Bool.not_eq_true',
      contains_eq_mem, decide_eq_false_iff_not] at hpath
    obtain ⟨⟨⟨hdot, hdots⟩, -⟩, hnested⟩ := hpath
    have hnone : ∀ r ∈ Utf8.runes decoded, ¬ (r == some 92 || r.any Utf8.isControl) = true := by
      intro r hr hyes
      exact hbad.2 (any_eq_true.mpr ⟨r, hr, hyes⟩)
    refine ⟨decoded, hd, ?_, ?_, hdot, hdots, ?_⟩
    · intro hmem
      have hrune := @Utf8.mem_runes_of_ascii backslash decoded (by decide) hmem
      exact hnone _ hrune (by decide)
    · rw [← Utf8.any_isControl_runes, any_eq_false]
      intro r hr hyes
      exact hnone r hr (by rw [hyes, Bool.or_true])
    · intro x hx
      obtain ⟨a, b, hmem, ha, hb, rfl⟩ := mem_escapes_iff.mp hx
      have hall := all_eq_true.mp hnested (a, b) hmem
      simpa [ha, hb] using hall

section Accepted

variable {decoded : Bytes} (hacc : Accepted raw decoded)
include hacc

/-- A short piece spells nothing that is refused but itself. -/
lemma Accepted.eq_of_short {p : Bytes} {x : UInt8} (hp : p <:+: decoded) (hx : Spells p x)
    (hshort : p.length ≤ 3) (hrefused : refused x = true) : p = [x] := by
  refine (hx.mem_escapes hshort hp).resolve_right fun hmem => ?_
  rw [hacc.nested x hmem] at hrefused
  cases hrefused

variable (hun : Unspelled decoded)
include hun

/-- In an accepted path without composed structure, only structure spells structure. -/
lemma Accepted.eq_of_structural {p : Bytes} {x : UInt8} (hp : p <:+: decoded) (hx : Spells p x)
    (hstructural : Structural x) : p = [x] := by
  rcases Nat.lt_or_ge 3 p.length with hlong | hshort
  · exact absurd hstructural (hun.byte p x hp hx hlong)
  · refine hacc.eq_of_short hp hx hshort ?_
    rcases hstructural with hlt | heq | rfl | rfl | rfl | rfl
    · simp [refused, hlt.le]
    · simp [refused, heq]
    all_goals decide

/-- **What an accepted path without composed structure reads as is flat.** -/
theorem Accepted.flat (hread : Reads decoded text) : Flat decoded text := by
  have honly : ∀ x, Structural x → ∀ p, p <:+: decoded → Spells p x → p = [x] :=
    fun x hx p hp hspells => hacc.eq_of_structural hun hp hspells hx
  have hcount : ∀ x, Structural x → text.count x ≤ decoded.count x :=
    fun x hx => hread.count_ge (honly x hx)
  have hslash : Structural slash := .inr (.inr (.inl rfl))
  have hdot : ∀ p, p <:+: decoded → Spells p 46 → ¬ 3 < p.length → p = ascii "." :=
    fun p hp hspells hlong => hacc.eq_of_short hp hspells (by omega) (by decide)
  refine ⟨(hcount slash hslash).antisymm (hread.count_le inert_slash), ?_, ?_, ?_, ?_,
    hcount 63 (by decide), hcount 35 (by decide)⟩
  · intro hmem
    obtain ⟨u, hu, hseg⟩ := Reads.segment hread (honly slash hslash) hmem
    have hspells : Spells u 46 := hseg.spells
    by_cases hlong : 3 < u.length
    · exact hun.dot u hu hlong hspells
    · exact hacc.noDot (hdot u (infix_of_mem_splitOn hu) hspells hlong ▸ hu)
  · intro hmem
    obtain ⟨u, hu, hseg⟩ := Reads.segment hread (honly slash hslash) hmem
    obtain ⟨p, q, rfl, hp, hq⟩ := Percent.Reads.split (a := [46]) (b := [46]) hseg
    have hinfix := infix_of_mem_splitOn hu
    by_cases hlong : 3 < p.length ∨ 3 < q.length
    · exact hun.dots p q hu hlong hp.spells hq.spells
    · rw [not_or] at hlong
      rw [hdot p ((prefix_append p q).isInfix.trans hinfix) hp.spells hlong.1,
        hdot q ((suffix_append p q).isInfix.trans hinfix) hq.spells hlong.2] at hu
      exact hacc.noDots hu
  · intro hmem
    have hle := hcount backslash (by decide)
    rw [count_eq_zero.mpr hacc.noBackslash] at hle
    exact (count_pos_iff.mpr hmem).not_ge hle
  · rw [Utf8.any_isControl_runes, ← Bool.not_eq_true, Utf8.hasControl_iff]
    rintro (⟨c, hc, hcontrol⟩ | ⟨front, rest, b, rfl, hb⟩)
    · -- the control character is in the first decoding already
      have hstructural : Structural c := hcontrol.imp_right .inl
      obtain ⟨p, hp, hspells⟩ := hread.mem hc
      rw [hacc.eq_of_structural hun hp hspells hstructural] at hp
      have hyes : Utf8.hasControl decoded = true :=
        Utf8.hasControl_iff.mpr (.inl ⟨c, hp.subset mem_cons_self, hcontrol⟩)
      rw [hacc.noControl] at hyes
      cases hyes
    · obtain ⟨s₁, s₂, rfl, -, h₂⟩ := hread.split
      cases h₂ with
      | @cons p s₂ _ _ hp h₃ =>
        cases h₃ with
        | @cons q s₃ _ _ hq _ => exact hun.control p q b ⟨s₁, s₃, by simp⟩ hp hq hb

end Accepted

/-- **A text that stays flat has no composed structure.** -/
lemma unspelled_of_flat {decoded : Bytes}
    (hall : ∀ k, 1 ≤ k → Flat decoded (relaxed^[k] decoded)) : Unspelled decoded where
  byte p x hp hx hlong hstructural := by
    have hflat := hall p.length (by omega)
    have hne : p ≠ [x] := by
      rintro rfl
      simp at hlong
    have hlt := count_lt_of_spells hp hx hstructural.inert hne
    have hmem : x ∈ relaxed^[p.length] decoded := count_pos_iff.mp (by omega)
    rcases hstructural with hcontrol | hcontrol | rfl | rfl | rfl | rfl
    · exact hflat.not_hasControl (Utf8.hasControl_iff.mpr (.inl ⟨x, hmem, .inl hcontrol⟩))
    · exact hflat.not_hasControl (Utf8.hasControl_iff.mpr (.inl ⟨x, hmem, .inr hcontrol⟩))
    · exact hlt.ne' hflat.slashes
    · exact hflat.backslash hmem
    · exact hlt.not_ge hflat.question
    · exact hlt.not_ge hflat.hash
  dot p hp hlong hx := by
    refine (hall p.length (by omega)).dot (splitOn_iterate_subset hp p.length ?_)
    rw [hx.iterate_eq le_rfl]
    decide
  dots p q hpq hlong hp hq := by
    have hpair := iterate_pair hp hq ⟨by decide, by decide⟩ ⟨by decide, by decide⟩ [] []
    have hnil : relaxed^[p.length + q.length] [] = [] := Function.iterate_fixed rfl _
    rw [append_nil, nil_append, hnil] at hpair
    refine (hall (p.length + q.length) (by omega)).dots (splitOn_iterate_subset hpq _ ?_)
    rw [hpair]
    decide
  control p q x hpq hp hq hx := by
    obtain ⟨a, b, rfl⟩ := hpq
    have hflat := hall (p.length + q.length) (by have := hp.length_pos; omega)
    rw [append_assoc, append_assoc, iterate_pair hp hq (inert_of_le (by decide))
      (inert_of_le hx.1)] at hflat
    exact hflat.not_hasControl (Utf8.hasControl_iff.mpr (.inr ⟨_, _, x, rfl, hx⟩))

/-- **Repeated decoding of an accepted path.** It stays flat under every number of decodings exactly
when no piece of its first decoding that is longer than one escape spells a slash, a backslash, a
question mark, a hash or a control character, no segment that is longer spells a dot segment, and no
two pieces spell a control character beyond ASCII. Source: `path.go` `uriComponent`. -/
theorem flat_under_decoding_iff {raw out decoded : Bytes} (h : uriComponent raw true = some out)
    (hd : Percent.unescape raw = some decoded) :
    (∀ k, 1 ≤ k → Flat decoded (relaxed^[k] decoded)) ↔ Unspelled decoded := by
  obtain ⟨d, haccepted⟩ := Accepted.of_uriComponent h
  obtain rfl := Option.some.inj (hd.symm.trans haccepted.decodes)
  exact ⟨unspelled_of_flat, fun hun k _ => haccepted.flat hun (Percent.reads_iterate decoded k)⟩

/-- `/%25C2%2580` is accepted, and one more decoding has the control character U+0080. -/
example : (uriComponent (ascii "/%25C2%2580") true).isSome ∧
    Percent.unescape (ascii "/%25C2%2580") = some (ascii "/%C2%80") ∧
    Utf8.runes (relaxed (ascii "/%C2%80")) = [some 47, some 0x80] := by
  decide +kernel

/-- Percent signs that start no escape spell nothing. -/
lemma unspelled_of_escapes {d : Bytes} (hcontrol : Utf8.hasControl d = false)
    (hd : escapes d = []) : Unspelled d where
  byte p x hp hx hlong := by
    rw [hx.eq_of_escapes hp hd] at hlong
    simp at hlong
  dot p hp hlong hx := by
    rw [hx.eq_of_escapes (infix_of_mem_splitOn hp) hd] at hlong
    simp at hlong
  dots p q hpq hlong hp hq := by
    have hinfix := infix_of_mem_splitOn hpq
    rw [hp.eq_of_escapes ((prefix_append p q).isInfix.trans hinfix) hd,
      hq.eq_of_escapes ((suffix_append p q).isInfix.trans hinfix) hd] at hlong
    simp at hlong
  control p q x hpq hp hq hx := by
    obtain rfl := hp.eq_of_escapes ((prefix_append p q).isInfix.trans hpq) hd
    obtain rfl := hq.eq_of_escapes ((suffix_append [0xc2] q).isInfix.trans hpq) hd
    obtain ⟨a, b, rfl⟩ := hpq
    have hyes : Utf8.hasControl (a ++ ([0xc2] ++ [x]) ++ b) = true :=
      Utf8.hasControl_iff.mpr (.inr ⟨a, b, x, by simp, hx⟩)
    rw [hcontrol] at hyes
    cases hyes

/-- A percent sign and a digit spell nothing. -/
theorem loose_percent_stays_flat :
    uriComponent (ascii "/a%25b") true = some (ascii "/a%25b") ∧
      ∀ k, 1 ≤ k → Flat (ascii "/a%b") (relaxed^[k] (ascii "/a%b")) := by
  refine ⟨by decide +kernel, ?_⟩
  refine (@flat_under_decoding_iff (ascii "/a%25b") (ascii "/a%25b") (ascii "/a%b")
    (by decide +kernel) (by decide +kernel)).mpr ?_
  exact unspelled_of_escapes (by decide +kernel) (by decide +kernel)

/-- `/a%25%2532Fb` is accepted, and its decoding has a second slash after two more decodings. -/
theorem composed_slash : ∃ raw out decoded,
    uriComponent raw true = some out ∧ Percent.unescape raw = some decoded ∧
      ¬ ∀ k, 1 ≤ k → Flat decoded (relaxed^[k] decoded) := by
  refine ⟨ascii "/a%25%2532Fb", ascii "/a%25%2532Fb", ascii "/a%%32Fb", by decide +kernel,
    by decide +kernel, fun hall => ?_⟩
  have hslashes := (hall 2 (by decide)).slashes
  exact absurd hslashes (by decide +kernel)

end Gogo.Redirects

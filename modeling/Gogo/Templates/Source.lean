import Gogo.Lib.Bytes

/-!
# The intermediate template source

The renderer writes an intermediate source for the standard template engine: literal text, in
which every `{{` is replaced by an action that prints it, and one action per value. The engine
splits that source at its actions.

* `writeText`, `emitValue`, `source` — what is written for a sequence of calls.
* `split` — how the engine splits a source.
* `items` — what the calls stand for.
* `split_source_iff` — **the source splits into what was written exactly when no text that ends
  in an unpaired `{` is followed by something that begins with `{`.**
-/

namespace Gogo.Templates

open List Gogo.Lib

/-- The byte `{`. -/
def brace : UInt8 := 123

/-- The byte `}`. -/
def unbrace : UInt8 := 125

/-- The byte `"`. -/
def quote : UInt8 := 34

/-- The byte `\`. -/
def backslash : UInt8 := 92

/-! ## Writing -/

/-- The content of the action for an escaped `{{`: the string literal. -/
def braces : Bytes := [quote, brace, brace, quote]

/-- The content of the action for a value. -/
def reference (n : ℕ) : Bytes := ascii "index . " ++ quote :: ascii "v" ++ decimal n ++ [quote]

def action (content : Bytes) : Bytes := brace :: brace :: content ++ [unbrace, unbrace]

/-- Source: `writeText`, with `strings.ReplaceAll`. -/
def writeText : Bytes → Bytes
  | [] => []
  | [c] => [c]
  | c :: d :: rest =>
    if c = brace ∧ d = brace then action braces ++ writeText rest
    else c :: writeText (d :: rest)

/-- Source: what `emit` writes for the value with a number. -/
def emitValue (n : ℕ) : Bytes := action (reference n)

/-- A call that writes to the source. -/
inductive Call
  | text (s : Bytes)
  | emit

/-- The source that a sequence of calls writes, with the number of the next value. -/
def source : ℕ → List Call → Bytes
  | _, [] => []
  | n, .text s :: calls => writeText s ++ source n calls
  | n, .emit :: calls => emitValue n ++ source (n + 1) calls

/-! ## Splitting -/

/-- A byte of literal text or an action. -/
inductive Item
  | char (c : UInt8)
  | action (content : Bytes)
deriving DecidableEq

/-- Where the engine is: in literal text, in an action, in a quoted constant of it (a string or a
character) or in a raw string. -/
inductive Mode
  | text
  | action (content : Bytes)
  | quoted (close : UInt8) (content : Bytes)
  | raw (content : Bytes)

/-- How the engine splits a source: an action runs from the leftmost `{{` to the first `}}`
outside its constants; an unclosed action is an error. -/
def split : Mode → Bytes → Option (List Item)
  | .text, [] => some []
  | .text, [c] => some [.char c]
  | .text, c :: d :: rest =>
    if c = brace ∧ d = brace then split (.action []) rest
    else (split .text (d :: rest)).map (.char c :: ·)
  | .action _, [] => none
  | .action _, [_] => none
  | .action content, c :: d :: rest =>
    if c = unbrace ∧ d = unbrace then (split .text rest).map (.action content :: ·)
    else if c = quote ∨ c = 39 then split (.quoted c (content ++ [c])) (d :: rest)
    else if c = 96 then split (.raw (content ++ [c])) (d :: rest)
    else split (.action (content ++ [c])) (d :: rest)
  | .quoted _ _, [] => none
  | .quoted close content, [c] => if c = close then split (.action (content ++ [c])) [] else none
  | .quoted close content, c :: d :: rest =>
    if c = close then split (.action (content ++ [c])) (d :: rest)
    else if c = 10 then none
    else if c = backslash then
      if d = 10 then none else split (.quoted close (content ++ [c, d])) rest
    else split (.quoted close (content ++ [c])) (d :: rest)
  | .raw _, [] => none
  | .raw content, c :: rest =>
    if c = 96 then split (.action (content ++ [c])) rest
    else split (.raw (content ++ [c])) rest

/-! ## What the calls stand for -/

/-- The items of a text: one action for each replaced `{{`. -/
def textItems : Bytes → List Item
  | [] => []
  | [c] => [.char c]
  | c :: d :: rest =>
    if c = brace ∧ d = brace then .action braces :: textItems rest
    else .char c :: textItems (d :: rest)

/-- The items of a sequence of calls: those of the texts, and one action for each value. -/
def items : ℕ → List Call → List Item
  | _, [] => []
  | n, .text s :: calls => textItems s ++ items n calls
  | n, .emit :: calls => .action (reference n) :: items (n + 1) calls

/-- The text that an item prints when it is literal text or the action for `{{`. -/
def Item.literal : Item → Bytes
  | .char c => [c]
  | .action content => if content = braces then [brace, brace] else []

/-- A text ends in a `{` that is not part of a replaced pair. -/
def endsOpen : Bytes → Bool
  | [] => false
  | [c] => c = brace
  | c :: d :: rest => if c = brace ∧ d = brace then endsOpen rest else endsOpen (d :: rest)

/-- What is written begins with `{`. -/
def startsOpen : List Call → Bool
  | [] => false
  | .text [] :: calls => startsOpen calls
  | .text (c :: _) :: _ => c = brace
  | .emit :: _ => true

/-- No text that ends in an unpaired `{` is followed by something that begins with `{`. -/
def Apart : List Call → Prop
  | [] => True
  | .text s :: calls => (endsOpen s = true → startsOpen calls = false) ∧ Apart calls
  | .emit :: calls => Apart calls

/-! ## Actions are read back -/

/-- A byte with no meaning of its own in an action. -/
def plain (c : UInt8) : Bool := c ≠ unbrace && c ≠ quote && c ≠ 39 && c ≠ 96

/-- A byte with no meaning of its own in a string. -/
def quotable (c : UInt8) : Bool := c ≠ quote && c ≠ 10 && c ≠ backslash

/-- Bytes that only go to the content are read one after the other. -/
lemma split_content {mode : Bytes → Mode} {p : UInt8 → Bool}
    (hstep : ∀ content b d later, p b = true →
      split (mode content) (b :: d :: later) = split (mode (content ++ [b])) (d :: later))
    {l : Bytes} (hl : l.all p = true) (content tail : Bytes) (c : UInt8) :
    split (mode content) (l ++ c :: tail) = split (mode (content ++ l)) (c :: tail) := by
  induction l generalizing content with
  | nil => simp
  | cons b l ih =>
    rw [all_cons, Bool.and_eq_true] at hl
    obtain ⟨d, later, hlater⟩ : ∃ d later, l ++ c :: tail = d :: later := by
      cases l with
      | nil => exact ⟨c, tail, rfl⟩
      | cons d l => exact ⟨d, l ++ c :: tail, rfl⟩
    have hnext := ih hl.2 (content ++ [b])
    rw [append_assoc, singleton_append] at hnext
    rw [cons_append, ← hnext, hlater, hstep content b d later hl.1]

lemma split_plain {l : Bytes} (hl : l.all plain = true) (content tail : Bytes) (c : UInt8) :
    split (.action content) (l ++ c :: tail) = split (.action (content ++ l)) (c :: tail) :=
  split_content (fun _ b _ _ hb => by simp_all [plain, split]) hl content tail c

lemma split_quotable {l : Bytes} (hl : l.all quotable = true) (content tail : Bytes) (c : UInt8) :
    split (.quoted quote content) (l ++ c :: tail) =
      split (.quoted quote (content ++ l)) (c :: tail) :=
  split_content (fun _ b _ _ hb => by simp_all [quotable, split]) hl content tail c

/-- An action that ends with a string is read back as it was written. -/
lemma split_action (before inside : Bytes) (hbefore : before.all plain = true)
    (hinside : inside.all quotable = true) (rest : Bytes) :
    split .text (action (before ++ quote :: inside ++ [quote]) ++ rest) =
      (split .text rest).map (.action (before ++ quote :: inside ++ [quote]) :: ·) := by
  have hwritten : action (before ++ quote :: inside ++ [quote]) ++ rest = brace :: brace ::
      (before ++ quote :: (inside ++ quote :: unbrace :: unbrace :: rest)) := by
    simp [action]
  have hopen : ∀ content : Bytes, ∀ d later,
      split (.action content) (quote :: d :: later) =
        split (.quoted quote (content ++ [quote])) (d :: later) := by
    intro content d later
    simp [split, quote, unbrace]
  obtain ⟨d, later, hlater⟩ : ∃ d later,
      inside ++ quote :: unbrace :: unbrace :: rest = d :: later := by
    cases inside with
    | nil => exact ⟨quote, _, rfl⟩
    | cons d l => exact ⟨d, _, rfl⟩
  rw [hwritten, split, if_pos ⟨rfl, rfl⟩, split_plain hbefore, hlater, hopen, ← hlater,
    split_quotable hinside, nil_append, split, if_pos rfl, split, if_pos ⟨rfl, rfl⟩]
  simp

lemma split_braces (rest : Bytes) :
    split .text (action braces ++ rest) = (split .text rest).map (.action braces :: ·) :=
  split_action [] [brace, brace] (by decide) (by decide) rest

lemma split_emitValue (n : ℕ) (rest : Bytes) :
    split .text (emitValue n ++ rest) =
      (split .text rest).map (.action (reference n) :: ·) := by
  have hinside : (ascii "v" ++ decimal n).all quotable = true := by
    rw [all_eq_true]
    intro c hc
    rcases mem_append.mp hc with hv | hdigit
    · rw [mem_singleton.mp (show c ∈ [118] from hv)]
      decide
    · have hrange := mem_decimal hdigit
      have hne : ∀ b : UInt8, (b.toNat < 48 ∨ 57 < b.toNat) → c ≠ b := by
        rintro b hb rfl
        omega
      simp [quotable, hne quote (by decide), hne 10 (by decide), hne backslash (by decide)]
  have hsplit := split_action (ascii "index . ") _ (by decide) hinside rest
  simpa [emitValue, reference] using hsplit

/-! ## Texts are read back unless they end open -/

lemma head?_writeText (s : Bytes) : (writeText s).head? = s.head? := by
  cases s with
  | nil => rfl
  | cons c s =>
    cases s with
    | nil => rfl
    | cons d s =>
      rw [writeText]
      split_ifs with h
      · simp [action, h.1]
      · rfl

lemma head?_source (n : ℕ) (calls : List Call) :
    (source n calls).head? = some brace ↔ startsOpen calls = true := by
  induction calls generalizing n with
  | nil => simp [source, startsOpen]
  | cons call calls ih =>
    cases call with
    | emit => simp [source, startsOpen, emitValue, action]
    | text s =>
      cases s with
      | nil =>
        rw [startsOpen, ← ih n]
        rfl
      | cons c s =>
        have hhead := head?_writeText (c :: s)
        rw [head?_cons] at hhead
        simp [source, startsOpen, head?_append, hhead]

/-- An action that was begun is the next item. -/
lemma split_of_ne_text {mode : Mode} {text : Bytes} (hmode : mode ≠ .text) {found : List Item}
    (h : split mode text = some found) : ∃ content rest, found = .action content :: rest := by
  fun_induction split mode text with
  | case1 | case2 | case3 | case4 => exact absurd rfl hmode
  | case7 content c d rest hclose =>
    obtain ⟨rest', -, rfl⟩ := Option.map_eq_some_iff.mp h
    exact ⟨content, rest', rfl⟩
  | _ => first | cases h | rename_i ih; exact ih (by simp) h

/-- One byte of text is read back unless it opens an action with what follows. -/
lemma split_cons_iff {c : UInt8} {tail : Bytes} {rest : List Item} :
    split .text (c :: tail) = some (.char c :: rest) ↔
      ¬ (c = brace ∧ tail.head? = some brace) ∧ split .text tail = some rest := by
  cases tail with
  | nil => simp [split, eq_comm]
  | cons d tail =>
    rw [split]
    by_cases hopen : c = brace ∧ d = brace
    · -- an action begins here, so the first item is no byte
      rw [if_pos hopen]
      constructor
      · intro h
        obtain ⟨content, rest', heq⟩ := split_of_ne_text (by simp) h
        cases heq
      · rintro ⟨hnot, -⟩
        exact absurd ⟨hopen.1, by rw [head?_cons, hopen.2]⟩ hnot
    · rw [if_neg hopen]
      simp [hopen]

lemma split_writeText_iff (s tail : Bytes) (rest : List Item) :
    split .text (writeText s ++ tail) = some (textItems s ++ rest) ↔
      (endsOpen s = true → tail.head? ≠ some brace) ∧ split .text tail = some rest := by
  fun_induction writeText s with
  | case1 => simp [textItems, endsOpen]
  | case2 c =>
    have hone := @split_cons_iff c tail rest
    simpa [textItems, endsOpen, not_and] using hone
  | case3 c d s hopen ih =>
    rw [append_assoc, split_braces, textItems, if_pos hopen, endsOpen, if_pos hopen, ← ih]
    simp
  | case4 c d s hopen ih =>
    have hhead : (writeText (d :: s) ++ tail).head? = some d := by
      rw [head?_append, head?_writeText]
      rfl
    rw [cons_append, textItems, if_neg hopen, endsOpen, if_neg hopen, cons_append,
      split_cons_iff, ih, hhead]
    simp [hopen]

/-! ## The texts and the values of the items -/

/-- The texts of a sequence of calls. -/
def texts (calls : List Call) : Bytes :=
  calls.flatMap fun call =>
    match call with
    | .text s => s
    | .emit => []

/-- The number of values of a sequence of calls. -/
def emits : List Call → ℕ
  | [] => 0
  | .text _ :: calls => emits calls
  | .emit :: calls => emits calls + 1

/-- The actions that are not for an escaped `{{`. -/
def references (found : List Item) : List Bytes :=
  found.filterMap fun item =>
    match item with
    | .char _ => none
    | .action content => if content = braces then none else some content

lemma reference_ne_braces (n : ℕ) : reference n ≠ braces := by
  intro h
  have hhead := congrArg List.head? h
  revert hhead
  simp [reference, braces, ascii, quote]

lemma textItems_spec (s : Bytes) :
    (textItems s).flatMap Item.literal = s ∧ references (textItems s) = [] := by
  fun_induction textItems s with
  | case1 => exact ⟨rfl, rfl⟩
  | case2 c => exact ⟨rfl, rfl⟩
  | case3 c d s hopen ih =>
    obtain ⟨rfl, rfl⟩ := hopen
    refine ⟨?_, ?_⟩
    · rw [flatMap_cons, ih.1]
      rfl
    · simpa [references] using ih.2
  | case4 c d s hopen ih =>
    refine ⟨?_, ?_⟩
    · rw [flatMap_cons, ih.1]
      rfl
    · simpa [references] using ih.2

lemma items_spec (n : ℕ) (calls : List Call) :
    (items n calls).flatMap Item.literal = texts calls ∧
      references (items n calls) = (List.range' n (emits calls)).map reference := by
  induction calls generalizing n with
  | nil => exact ⟨rfl, rfl⟩
  | cons call calls ih =>
    cases call with
    | text s =>
      obtain ⟨htext, hrefs⟩ := textItems_spec s
      refine ⟨?_, ?_⟩
      · rw [items, flatMap_append, htext, (ih n).1]
        rfl
      · have happend : references (textItems s ++ items n calls) =
            references (textItems s) ++ references (items n calls) := by
          simp [references]
        rw [items, happend, hrefs, (ih n).2]
        rfl
    | emit =>
      refine ⟨?_, ?_⟩
      · rw [items, flatMap_cons, (ih (n + 1)).1, Item.literal,
          if_neg (reference_ne_braces n)]
        rfl
      · have hcons : references (.action (reference n) :: items (n + 1) calls) =
            reference n :: references (items (n + 1) calls) := by
          simp [references, reference_ne_braces]
        rw [items, hcons, (ih (n + 1)).2, emits, range'_succ]
        rfl

/-! ## Sources -/

/-- **Literal text stays literal text exactly when nothing opens at a boundary.** The engine
splits the source of a sequence of calls into what was written, namely one action for each value
in order, one string action for each escaped `{{`, and literal text that together with those is
the texts given, exactly when no text that ends in an unpaired `{` is followed by something that
begins with `{`. -/
theorem split_source_iff (n : ℕ) (calls : List Call) :
    (split .text (source n calls) = some (items n calls) ↔ Apart calls) ∧
      (items n calls).flatMap Item.literal = texts calls ∧
      references (items n calls) = (List.range' n (emits calls)).map reference := by
  refine ⟨?_, items_spec n calls⟩
  induction calls generalizing n with
  | nil => simp [source, items, split, Apart]
  | cons call calls ih =>
    cases call with
    | text s =>
      rw [source, items, split_writeText_iff, ih, Apart, Ne, head?_source,
        Bool.not_eq_true]
    | emit =>
      rw [source, items, split_emitValue, Apart, ← ih (n + 1)]
      simp

/-- A value after a text that is a brace is read as another action. -/
theorem brace_before_value :
    split .text (source 0 [.text [brace], .emit]) =
      some [.action (brace :: reference 0)] ∧
    items 0 [.text [brace], .emit] = [.char brace, .action (reference 0)] ∧
    split .text (source 0 [.text [brace], .text [brace]]) = none := by
  decide +kernel

end Gogo.Templates

import Gogo.Lib.Run

/-!
# Conditions of template tags

`renderer.condition` has no parser: it splits the text of a condition into words, cuts the words
at the first operator of the weakest kind, joins the two sides and starts again with their texts.

* `splitQuoted`, `condition` — the source; evaluation of operands is a parameter.
* `Word`, `splitQuoted_join` — **words survive joining and splitting.**
* `Operand`, `Comparison`, `Negation`, `Conjunction`, `Disjunction` — the grammar, with the words
  of an expression and what it says.
* `condition_follows_precedence` — **a condition has the value of its parse.**
-/

namespace Gogo.Templates

open List Gogo.Lib

/-! ## Words -/

/-- Source: `unicode.IsSpace`. -/
def isSpace (c : Char) : Bool :=
  (9 ≤ c.toNat && c.toNat ≤ 13) || (8192 ≤ c.toNat && c.toNat ≤ 8202) ||
    c.toNat ∈ [32, 133, 160, 5760, 8232, 8233, 8239, 8287, 12288]

/-- Source: `strings.TrimSpace`. -/
def trimSpace (s : List Char) : List Char :=
  ((s.dropWhile isSpace).reverse.dropWhile isSpace).reverse

/-- The part that is kept of a piece of text. -/
def keepPart (s : List Char) : List (List Char) := if trimSpace s = [] then [] else [trimSpace s]

/-- The loop of `splitQuoted`: the open quote, whether a backslash came before, and the text since
the last separator. -/
def scanQuoted (separator : Char) : Option Char → Bool → List Char → List Char → List (List Char)
  | _, _, part, [] => keepPart part
  | quote, true, part, c :: rest => scanQuoted separator quote false (part ++ [c]) rest
  | some q, false, part, c :: rest =>
    if c = '\\' then scanQuoted separator (some q) true (part ++ [c]) rest
    else if c = q then scanQuoted separator none false (part ++ [c]) rest
    else scanQuoted separator (some q) false (part ++ [c]) rest
  | none, false, part, c :: rest =>
    if c = '\'' ∨ c = '"' then scanQuoted separator (some c) false (part ++ [c]) rest
    else if c = separator then keepPart part ++ scanQuoted separator none false [] rest
    else scanQuoted separator none false (part ++ [c]) rest

/-- Source: `parser.go` `splitQuoted`. -/
def splitQuoted (s : List Char) (separator : Char) : List (List Char) :=
  scanQuoted separator none false [] s

/-- `strings.Join(words, " ")`. -/
def join : List (List Char) → List Char
  | [] => []
  | [w] => w
  | w :: v :: words => w ++ ' ' :: join (v :: words)

/-- Spaces are inside of quotes, and every quote is closed. -/
def balanced : Option Char → Bool → List Char → Bool
  | quote, escaped, [] => quote.isNone && !escaped
  | quote, true, _ :: rest => balanced quote false rest
  | some q, false, c :: rest =>
    if c = '\\' then balanced (some q) true rest
    else if c = q then balanced none false rest
    else balanced (some q) false rest
  | none, false, c :: rest =>
    if c = '\'' ∨ c = '"' then balanced (some c) false rest
    else c ≠ ' ' && balanced none false rest

/-- A word: text without spaces at its ends whose quoted parts are closed, without spaces outside
of them. -/
def Word (w : List Char) : Prop := w ≠ [] ∧ trimSpace w = w ∧ balanced none false w = true

instance : DecidablePred Word := fun _ => inferInstanceAs (Decidable (_ ∧ _ ∧ _))

variable {w : List Char}

lemma Word.keepPart (h : Word w) : keepPart w = [w] := by
  rw [Templates.keepPart, h.2.1, if_neg h.1]

/-- A word is read up to the space behind it, or up to the end. -/
lemma scanQuoted_balanced {quote : Option Char} {escaped : Bool}
    (h : balanced quote escaped w = true) (part rest : List Char) :
    scanQuoted ' ' quote escaped part w = keepPart (part ++ w) ∧
      scanQuoted ' ' quote escaped part (w ++ ' ' :: rest) =
        keepPart (part ++ w) ++ scanQuoted ' ' none false [] rest := by
  induction w generalizing quote escaped part with
  | nil =>
    simp only [balanced, Bool.and_eq_true, Option.isNone_iff_eq_none, Bool.not_eq_true'] at h
    obtain ⟨rfl, rfl⟩ := h
    simp [scanQuoted]
  | cons c w ih =>
    rw [append_cons part c w, cons_append]
    cases escaped with
    | true => exact ih h (part ++ [c])
    | false =>
      cases quote with
      | some q =>
        rw [balanced] at h
        rw [scanQuoted, scanQuoted]
        split_ifs at h ⊢ <;> exact ih h _
      | none =>
        rw [balanced] at h
        rw [scanQuoted, scanQuoted]
        split_ifs at h ⊢ with hquote hspace
        · exact ih h _
        · simp [hspace] at h
        · exact ih (by simpa [hspace] using h) _

/-- **Words survive joining and splitting.** -/
theorem splitQuoted_join {words : List (List Char)} (h : ∀ w ∈ words, Word w) :
    splitQuoted (join words) ' ' = words := by
  induction words with
  | nil => rfl
  | cons w words ih =>
    rw [forall_mem_cons] at h
    cases words with
    | nil =>
      refine (scanQuoted_balanced h.1.2.2 [] []).1.trans ?_
      exact h.1.keepPart
    | cons v words =>
      refine (scanQuoted_balanced h.1.2.2 [] (join (v :: words))).2.trans ?_
      rw [nil_append, h.1.keepPart]
      exact congrArg (w :: ·) (ih h.2)

/-! ## The source -/

/-- What a condition needs of the renderer: the value of a filter expression, and what the
comparisons say of two values. -/
structure Evaluation (V ε : Type) where
  eval : List Char → Except ε V
  truthy : V → Bool
  equalValues : V → V → Bool
  deepEqual : V → V → Bool
  /-- The collection comes first. -/
  contains : V → V → Bool
  /-- `compare`; there is no order between some values. -/
  compare : V → V → Option Ordering

/-- The words that compare, apart from `not`. -/
inductive Sign
  | eq
  | ne
  | lt
  | gt
  | le
  | ge
  | isIn
  | is
deriving DecidableEq

/-- The word of a sign. -/
def Sign.word : Sign → List Char
  | .eq => ['=', '=']
  | .ne => ['!', '=']
  | .lt => ['<']
  | .gt => ['>']
  | .le => ['<', '=']
  | .ge => ['>', '=']
  | .isIn => ['i', 'n']
  | .is => ['i', 's']

/-- The sign that a word stands for. -/
def sign? (w : List Char) : Option Sign :=
  [Sign.eq, .ne, .lt, .gt, .le, .ge, .isIn, .is].find? fun s => s.word = w

def orWord : List Char := ['o', 'r']

def andWord : List Char := ['a', 'n', 'd']

def notWord : List Char := ['n', 'o', 't']

/-- The words in front of the first one that a test takes, what it takes it for, and the words
behind it. -/
def cutAt {β : Type} (test : List Char → Option β) :
    List (List Char) → Option (List (List Char) × β × List (List Char))
  | [] => none
  | v :: words =>
    match test v with
    | some b => some ([], b, words)
    | none => (cutAt test words).map fun p => (v :: p.1, p.2)

/-- The test for one word. -/
def only (w v : List Char) : Option Unit := if v = w then some () else none

section Source

variable {V ε : Type} (r : Evaluation V ε)

/-- What a sign says of two values; `none` where there is no order. -/
def Sign.result (left right : V) : Sign → Option Bool
  | .eq => some (r.equalValues left right)
  | .is => some (r.deepEqual left right)
  | .ne => some (!r.equalValues left right)
  | .isIn => some (r.contains right left)
  | .lt => (r.compare left right).map fun o => o == .lt
  | .gt => (r.compare left right).map fun o => o == .gt
  | .le => (r.compare left right).map fun o => o != .gt
  | .ge => (r.compare left right).map fun o => o != .lt

/-- The comparison of `condition`, cut at its sign. -/
def compareWords (leftWords : List (List Char)) (sign : Sign) (rightWords : List (List Char)) :
    Except ε Bool := do
  let negated := leftWords.getLast? = some notWord
  let isNot := sign = .is ∧ rightWords.head? = some notWord
  let left ← r.eval (join (if negated then leftWords.dropLast else leftWords))
  let right ← r.eval (join (if isNot then rightWords.tail else rightWords))
  match sign.result r left right with
  | none => .ok false
  | some result => .ok (if negated ∨ isNot then !result else result)

/-- Source: `expressions.go` `renderer.condition`. Every round has fewer words than the one before,
so their number is fuel enough. -/
def condition : ℕ → List Char → Option (Except ε Bool)
  | 0, _ => none
  | fuel + 1, expression =>
    let words := splitQuoted expression ' '
    match cutAt (only orWord) words with
    | some (left, _, right) =>
      (condition fuel (join left)).bind fun
        | .ok true => some (.ok true)
        | .ok false => condition fuel (join right)
        | .error e => some (.error e)
    | none =>
      match cutAt (only andWord) words with
      | some (left, _, right) =>
        (condition fuel (join left)).bind fun
          | .ok false => some (.ok false)
          | .ok true => condition fuel (join right)
          | .error e => some (.error e)
      | none =>
        if words.head? = some notWord then
          (condition fuel (join words.tail)).map fun v => v.map (! ·)
        else
          match cutAt sign? words with
          | some (left, sign, right) => some (compareWords r left sign right)
          | none => some ((r.eval expression).map r.truthy)

end Source

/-! ## The grammar -/

/-- The words that are operators. -/
def reserved (w : List Char) : Bool :=
  w = orWord || w = andWord || w = notWord || (sign? w).isSome

/-- The words of a filter expression. -/
structure Operand where
  words : List (List Char)
  ne_nil : words ≠ []
  word : ∀ w ∈ words, Word w
  plain : ∀ w ∈ words, reserved w = false

/-- The comparison operators; `not in` and `is not` are two words. -/
inductive Operator
  | positive (s : Sign)
  | notIn
  | isNot

def Operator.words : Operator → List (List Char)
  | .positive s => [s.word]
  | .notIn => [notWord, Sign.isIn.word]
  | .isNot => [Sign.is.word, notWord]

/-- An operand, or two of them compared. -/
inductive Comparison
  | operand (o : Operand)
  | compare (left : Operand) (op : Operator) (right : Operand)

inductive Negation
  | comparison (c : Comparison)
  | not (n : Negation)

inductive Conjunction
  | negation (n : Negation)
  | and (n : Negation) (rest : Conjunction)

inductive Disjunction
  | conjunction (c : Conjunction)
  | or (c : Conjunction) (rest : Disjunction)

def Comparison.words : Comparison → List (List Char)
  | .operand o => o.words
  | .compare left op right => left.words ++ op.words ++ right.words

def Negation.words : Negation → List (List Char)
  | .comparison c => c.words
  | .not n => notWord :: n.words

def Conjunction.words : Conjunction → List (List Char)
  | .negation n => n.words
  | .and n rest => n.words ++ andWord :: rest.words

def Disjunction.words : Disjunction → List (List Char)
  | .conjunction c => c.words
  | .or c rest => c.words ++ orWord :: rest.words

def Comparison.operands : Comparison → List Operand
  | .operand o => [o]
  | .compare left _ right => [left, right]

def Negation.operands : Negation → List Operand
  | .comparison c => c.operands
  | .not n => n.operands

def Conjunction.operands : Conjunction → List Operand
  | .negation n => n.operands
  | .and n rest => n.operands ++ rest.operands

def Disjunction.operands : Disjunction → List Operand
  | .conjunction c => c.operands
  | .or c rest => c.operands ++ rest.operands

section Meaning

variable {V ε : Type} (r : Evaluation V ε) (value : Operand → V)

/-- What an operator says of two values. Values without an order stand in none of the four. -/
def Operator.holds (left right : V) : Operator → Bool
  | .positive .eq => r.equalValues left right
  | .positive .ne => !r.equalValues left right
  | .positive .lt => r.compare left right = some .lt
  | .positive .gt => r.compare left right = some .gt
  | .positive .le => r.compare left right = some .lt ∨ r.compare left right = some .eq
  | .positive .ge => r.compare left right = some .gt ∨ r.compare left right = some .eq
  | .positive .isIn => r.contains right left
  | .positive .is => r.deepEqual left right
  | .notIn => !r.contains right left
  | .isNot => !r.deepEqual left right

def Comparison.holds : Comparison → Bool
  | .operand o => r.truthy (value o)
  | .compare left op right => op.holds r (value left) (value right)

def Negation.holds : Negation → Bool
  | .comparison c => c.holds r value
  | .not n => !n.holds

def Conjunction.holds : Conjunction → Bool
  | .negation n => n.holds r value
  | .and n rest => n.holds r value && rest.holds

def Disjunction.holds : Disjunction → Bool
  | .conjunction c => c.holds r value
  | .or c rest => c.holds r value || rest.holds

end Meaning

/-! ## The words of an expression -/

lemma sign?_word (s : Sign) : sign? s.word = some s := by cases s <;> rfl

lemma Operator.word_of_mem {op : Operator} {w : List Char} (h : w ∈ op.words) :
    Word w ∧ w ≠ orWord ∧ w ≠ andWord := by
  cases op with
  | positive s =>
    obtain rfl := mem_singleton.mp h
    cases s <;> decide
  | notIn => revert w; decide
  | isNot => revert w; decide

lemma Operand.facts (o : Operand) (h : w ∈ o.words) :
    Word w ∧ w ≠ orWord ∧ w ≠ andWord ∧ w ≠ notWord ∧ sign? w = none := by
  have hplain := o.plain w h
  simp only [reserved, Bool.or_eq_false_iff, decide_eq_false_iff_not] at hplain
  obtain ⟨⟨⟨hor, hand⟩, hnot⟩, hsign⟩ := hplain
  refine ⟨o.word w h, hor, hand, hnot, ?_⟩
  exact Option.isNone_iff_eq_none.mp (Option.isSome_eq_false_iff.mp hsign)

lemma Comparison.word_of_mem {c : Comparison} {w : List Char} (h : w ∈ c.words) :
    Word w ∧ w ≠ orWord ∧ w ≠ andWord := by
  cases c with
  | operand o => exact ⟨(o.facts h).1, (o.facts h).2.1, (o.facts h).2.2.1⟩
  | compare left op right =>
    rw [Comparison.words, mem_append, mem_append] at h
    rcases h with (h | h) | h
    · exact ⟨(left.facts h).1, (left.facts h).2.1, (left.facts h).2.2.1⟩
    · exact op.word_of_mem h
    · exact ⟨(right.facts h).1, (right.facts h).2.1, (right.facts h).2.2.1⟩

lemma Negation.word_of_mem {n : Negation} {w : List Char} (h : w ∈ n.words) :
    Word w ∧ w ≠ orWord ∧ w ≠ andWord := by
  induction n with
  | comparison c => exact c.word_of_mem h
  | not n ih =>
    rcases mem_cons.mp h with rfl | h
    · decide
    · exact ih h

lemma Conjunction.word_of_mem {c : Conjunction} {w : List Char} (h : w ∈ c.words) :
    Word w ∧ w ≠ orWord := by
  induction c with
  | negation n => exact ⟨(n.word_of_mem h).1, (n.word_of_mem h).2.1⟩
  | and n rest ih =>
    rcases mem_append.mp h with h | h
    · exact ⟨(n.word_of_mem h).1, (n.word_of_mem h).2.1⟩
    · rcases mem_cons.mp h with rfl | h
      · decide
      · exact ih h

lemma Disjunction.word_of_mem {d : Disjunction} {w : List Char} (h : w ∈ d.words) : Word w := by
  induction d with
  | conjunction c => exact (c.word_of_mem h).1
  | or c rest ih =>
    rcases mem_append.mp h with h | h
    · exact (c.word_of_mem h).1
    · rcases mem_cons.mp h with rfl | h
      · decide
      · exact ih h

/-! ## Cutting -/

section Cut

variable {β : Type} {test : List Char → Option β} {w : List Char} {l rest : List (List Char)}

lemma cutAt_append {b : β} (h : ∀ v ∈ l, test v = none) (hw : test w = some b) :
    cutAt test (l ++ w :: rest) = some (l, b, rest) := by
  induction l with
  | nil => simp [cutAt, hw]
  | cons v l ih =>
    rw [forall_mem_cons] at h
    rw [cons_append, cutAt, h.1, ih h.2]
    rfl

lemma cutAt_eq_none (h : ∀ v ∈ l, test v = none) : cutAt test l = none := by
  induction l with
  | nil => rfl
  | cons v l ih =>
    rw [forall_mem_cons] at h
    rw [cutAt, h.1, ih h.2]
    rfl

lemma only_of_not_mem (h : w ∉ l) (v : List Char) (hv : v ∈ l) : only w v = none := by
  apply if_neg
  rintro rfl
  exact h hv

end Cut

/-! ## Precedence -/

section Precedence

variable {V ε : Type} {r : Evaluation V ε} {value : Operand → V}

/-- What the source computes for a sign is what the operator says; without an order it is false. -/
lemma Sign.getD_result (s : Sign) (a b : V) :
    (s.result r a b).getD false = (Operator.positive s).holds r a b := by
  cases s <;> simp only [Sign.result, Operator.holds, Option.getD_some] <;>
    rcases r.compare a b with _ | (_ | _ | _) <;> rfl

/-- An operand does not start with `not`. -/
lemma Operand.head?_ne_not (o : Operand) : o.words.head? ≠ some notWord := fun h =>
  (o.facts (mem_of_head? h)).2.2.2.1 rfl

lemma Operand.getLast?_ne_not (o : Operand) : o.words.getLast? ≠ some notWord := fun h =>
  (o.facts (mem_of_getLast? h)).2.2.2.1 rfl

/-- A comparison is cut at its sign, with the `not` on the side where it stands. -/
lemma compareWords_eq {left right : Operand} (hleft : r.eval (join left.words) = .ok (value left))
    (hright : r.eval (join right.words) = .ok (value right)) (op : Operator) :
    ∃ l s rest, cutAt sign? (left.words ++ op.words ++ right.words) = some (l, s, rest) ∧
      compareWords r l s rest = .ok (op.holds r (value left) (value right)) := by
  have hnone : ∀ v ∈ left.words, sign? v = none := fun v hv => (left.facts hv).2.2.2.2
  cases op with
  | positive s =>
    refine ⟨left.words, s, right.words, ?_, ?_⟩
    · rw [append_assoc]
      exact cutAt_append hnone (sign?_word s)
    · rw [compareWords]
      simp only [left.getLast?_ne_not, right.head?_ne_not, and_false, if_false, or_self, hleft,
        hright, ok_bind, ← s.getD_result]
      cases s.result r (value left) (value right) <;> rfl
  | notIn =>
    refine ⟨left.words ++ [notWord], .isIn, right.words, ?_, ?_⟩
    · have hwords : left.words ++ Operator.notIn.words ++ right.words =
          (left.words ++ [notWord]) ++ Sign.isIn.word :: right.words := by
        simp [Operator.words]
      rw [hwords]
      refine cutAt_append (fun v hv => ?_) (sign?_word _)
      rcases mem_append.mp hv with hv | hv
      · exact hnone v hv
      · rw [mem_singleton.mp hv]
        rfl
    · rw [compareWords]
      simp only [getLast?_concat, if_true, dropLast_concat, right.head?_ne_not,
        and_false, if_false, hleft, hright, ok_bind, or_false]
      rfl
  | isNot =>
    refine ⟨left.words, .is, notWord :: right.words, ?_, ?_⟩
    · rw [← cutAt_append hnone (sign?_word .is)]
      simp [Operator.words]
    · rw [compareWords]
      simp only [left.getLast?_ne_not, head?_cons, and_self, if_true, if_false,
        tail_cons, hleft, hright, ok_bind, false_or]
      rfl

variable {fuel : ℕ} {left right : List (List Char)} {a b : Bool}

/-- Without connectives, a leading `not` decides, and then the first sign. -/
lemma condition_of_plain {words : List (List Char)} (hword : ∀ w ∈ words, Word w)
    (hor : orWord ∉ words) (hand : andWord ∉ words) :
    condition r (fuel + 1) (join words) =
      if words.head? = some notWord then
        (condition r fuel (join words.tail)).map fun v => v.map (! ·)
      else
        match cutAt sign? words with
        | some (left, sign, right) => some (compareWords r left sign right)
        | none => some ((r.eval (join words)).map r.truthy) := by
  rw [condition]
  simp only [splitQuoted_join hword, cutAt_eq_none (only_of_not_mem hor),
    cutAt_eq_none (only_of_not_mem hand)]

lemma Comparison.head?_ne_not (c : Comparison) : c.words.head? ≠ some notWord := by
  cases c with
  | operand o => exact o.head?_ne_not
  | compare left op right =>
    rw [Comparison.words, append_assoc, head?_append_of_ne_nil _ left.ne_nil]
    exact left.head?_ne_not

lemma condition_comparison (c : Comparison)
    (h : ∀ o ∈ c.operands, r.eval (join o.words) = .ok (value o)) (fuel : ℕ) :
    condition r (fuel + 1) (join c.words) = some (.ok (c.holds r value)) := by
  rw [condition_of_plain (fun w hw => (c.word_of_mem hw).1)
    (fun hw => (c.word_of_mem hw).2.1 rfl) (fun hw => (c.word_of_mem hw).2.2 rfl),
    if_neg c.head?_ne_not]
  cases c with
  | operand o =>
    have hcut : cutAt sign? o.words = none := cutAt_eq_none fun v hv => (o.facts hv).2.2.2.2
    simp only [Comparison.words, hcut, h o mem_cons_self]
    rfl
  | compare left op right =>
    obtain ⟨l, s, rest, hcut, hcompare⟩ := @compareWords_eq V ε r value left right
      (h left (by simp [Comparison.operands])) (h right (by simp [Comparison.operands])) op
    simp only [Comparison.words, hcut, hcompare]
    rfl

lemma Negation.words_ne_nil (n : Negation) : n.words ≠ [] := by
  cases n with
  | comparison c =>
    cases c with
    | operand o => exact o.ne_nil
    | compare left op right => simp [Negation.words, Comparison.words, left.ne_nil]
  | not n => exact cons_ne_nil _ _

lemma condition_negation (n : Negation)
    (h : ∀ o ∈ n.operands, r.eval (join o.words) = .ok (value o)) (hfuel : n.words.length ≤ fuel) :
    condition r fuel (join n.words) = some (.ok (n.holds r value)) := by
  induction n generalizing fuel with
  | comparison c =>
    have hpos := length_pos_of_ne_nil (Negation.comparison c).words_ne_nil
    obtain ⟨fuel, rfl⟩ : ∃ m, fuel = m + 1 := ⟨fuel - 1, by omega⟩
    exact condition_comparison c h fuel
  | not n ih =>
    have hlength : n.words.length + 1 ≤ fuel := hfuel
    obtain ⟨fuel, rfl⟩ : ∃ m, fuel = m + 1 := ⟨fuel - 1, by omega⟩
    rw [condition_of_plain (fun w hw => (Negation.word_of_mem hw).1)
      (fun hw => (Negation.word_of_mem hw).2.1 rfl)
      (fun hw => (Negation.word_of_mem hw).2.2 rfl), if_pos (by rfl), Negation.words,
      tail_cons, ih h (by omega)]
    rfl

/-- A text whose words have a connective is cut there. -/
lemma condition_or (hword : ∀ w ∈ left ++ orWord :: right, Word w) (hor : orWord ∉ left)
    (hleft : condition r fuel (join left) = some (.ok a))
    (hright : condition r fuel (join right) = some (.ok b)) :
    condition r (fuel + 1) (join (left ++ orWord :: right)) = some (.ok (a || b)) := by
  rw [condition]
  simp only [splitQuoted_join hword, cutAt_append (only_of_not_mem hor) (if_pos rfl), hleft,
    hright]
  cases a <;> rfl

lemma condition_and (hword : ∀ w ∈ left ++ andWord :: right, Word w)
    (hor : orWord ∉ left ++ andWord :: right) (hand : andWord ∉ left)
    (hleft : condition r fuel (join left) = some (.ok a))
    (hright : condition r fuel (join right) = some (.ok b)) :
    condition r (fuel + 1) (join (left ++ andWord :: right)) = some (.ok (a && b)) := by
  rw [condition]
  simp only [splitQuoted_join hword, cutAt_eq_none (only_of_not_mem hor),
    cutAt_append (only_of_not_mem hand) (if_pos rfl), hleft, hright]
  cases a <;> rfl

lemma condition_conjunction (c : Conjunction)
    (h : ∀ o ∈ c.operands, r.eval (join o.words) = .ok (value o)) (hfuel : c.words.length ≤ fuel) :
    condition r fuel (join c.words) = some (.ok (c.holds r value)) := by
  induction c generalizing fuel with
  | negation n => exact condition_negation n h hfuel
  | and n rest ih =>
    have hlength : n.words.length + (rest.words.length + 1) ≤ fuel := by
      simpa [Conjunction.words] using hfuel
    obtain ⟨fuel, rfl⟩ : ∃ m, fuel = m + 1 := ⟨fuel - 1, by omega⟩
    have hmem := @Conjunction.word_of_mem (.and n rest)
    refine condition_and (fun w hw => (hmem hw).1) (fun hw => (hmem hw).2 rfl)
      (fun hw => (n.word_of_mem hw).2.2 rfl) ?_ ?_
    · exact condition_negation n (fun o ho => h o (mem_append_left _ ho)) (by omega)
    · exact ih (fun o ho => h o (mem_append_right _ ho)) (by omega)

lemma condition_disjunction (d : Disjunction)
    (h : ∀ o ∈ d.operands, r.eval (join o.words) = .ok (value o)) (hfuel : d.words.length ≤ fuel) :
    condition r fuel (join d.words) = some (.ok (d.holds r value)) := by
  induction d generalizing fuel with
  | conjunction c => exact condition_conjunction c h hfuel
  | or c rest ih =>
    have hlength : c.words.length + (rest.words.length + 1) ≤ fuel := by
      simpa [Disjunction.words] using hfuel
    obtain ⟨fuel, rfl⟩ : ∃ m, fuel = m + 1 := ⟨fuel - 1, by omega⟩
    have hmem := @Disjunction.word_of_mem (.or c rest)
    refine condition_or (fun w hw => hmem hw) (fun hw => (c.word_of_mem hw).2 rfl) ?_ ?_
    · exact condition_conjunction c (fun o ho => h o (mem_append_left _ ho)) (by omega)
    · exact ih (fun o ho => h o (mem_append_right _ ho)) (by omega)

/-- **A condition has the value of its parse, and its words survive joining and splitting.** -/
theorem condition_follows_precedence (d : Disjunction)
    (h : ∀ o ∈ d.operands, r.eval (join o.words) = .ok (value o)) :
    (∀ fuel, d.words.length ≤ fuel →
      condition r fuel (join d.words) = some (.ok (d.holds r value))) ∧
    ∀ words, words <:+: d.words → splitQuoted (join words) ' ' = words :=
  ⟨fun _ hfuel => condition_disjunction d h hfuel,
    fun _ hwords => splitQuoted_join fun _ hw => d.word_of_mem (hwords.subset hw)⟩

end Precedence

/-- One quoted word. -/
def quotedOperand : Operand where
  words := ["\"b or c\"".toList]
  ne_nil := List.cons_ne_nil _ _
  word := by decide
  plain := by decide

/-- One letter. -/
def letterOperand : Operand where
  words := ["a".toList]
  ne_nil := List.cons_ne_nil _ _
  word := by decide
  plain := by decide

/-- Words stand for themselves and are compared by their lengths. -/
def lengthEvaluation : Evaluation (List Char) Empty where
  eval := .ok
  truthy v := v ≠ []
  equalValues v w := v = w
  deepEqual v w := v = w
  contains v w := w.isSuffixOf v
  compare v w := some (compare v.length w.length)

/-- A comparison, a negated one behind `and`, and one behind `or`; the quoted `or` is text. -/
theorem quoted_or_is_text :
    condition lengthEvaluation 12
      "a < \"b or c\" and not a == \"b or c\" or a >= \"b or c\"".toList = some (.ok true) ∧
    splitQuoted "not a == \"b or c\"".toList ' ' =
      ["not".toList, "a".toList, "==".toList, "\"b or c\"".toList] := by
  have hall := @condition_follows_precedence _ _ lengthEvaluation (fun o => join o.words)
    (.or (.and (.comparison (.compare letterOperand (.positive .lt) quotedOperand))
        (.negation (.not (.comparison (.compare letterOperand (.positive .eq) quotedOperand)))))
      (.conjunction (.negation (.comparison
        (.compare letterOperand (.positive .ge) quotedOperand))))) fun _ _ => rfl
  exact ⟨hall.1 12 le_rfl, hall.2 _ ⟨["a".toList, "<".toList, "\"b or c\"".toList, andWord],
    [orWord, "a".toList, ">=".toList, "\"b or c\"".toList], rfl⟩⟩

end Gogo.Templates

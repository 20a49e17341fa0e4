import Gogo.Lib.Like

/-!
# Text lookups

`internal/sqlcompiler/select.go`, `Compiler.Predicate`, the lookups `contains`, `startswith`,
`endswith` and their case-insensitive forms: the text is escaped, put between wildcards and bound
as the pattern of a `LIKE … ESCAPE '\'`, with `LOWER` around both sides for the latter.

* `TextLookup.pattern` — the pattern that is bound; `TextLookup.predicate` — the SQL and the
  arguments, those of `TextLookup.condition` (`predicate_eq_ok_iff`).
* `TextCondition.holds` — what the database makes of it, for any `LOWER` that goes character by
  character.
* `text_lookups_exact` — **the plain forms hold exactly of the strings that contain, begin with or
  end with the text. The others hold exactly of those whose lower case does so with the lower case
  of the text, if and only if `LOWER` makes no other character a wildcard or an escape.**
-/

namespace Gogo.SqlCompiler

open List Gogo.Lib

/-! ## The compiler -/

/-- The text lookups of the switch. -/
inductive TextLookup
  | contains | icontains | startswith | istartswith | endswith | iendswith
deriving DecidableEq

def TextLookup.tag : TextLookup → String
  | .contains => "contains"
  | .icontains => "icontains"
  | .startswith => "startswith"
  | .istartswith => "istartswith"
  | .endswith => "endswith"
  | .iendswith => "iendswith"

/-- Source: `strings.Contains`. -/
def hasText (text part : String) : Bool :=
  text.toList.tails.any fun rest => part.toList.isPrefixOf rest

/-- One character of ``strings.NewReplacer(`\`, `\\`, "%", `\%`, "_", `\_`)``. -/
def replaceSpecial (c : Char) : List Char :=
  if c = '\\' then ['\\', '\\']
  else if c = '%' then ['\\', '%']
  else if c = '_' then ['\\', '_']
  else [c]

/-- The text with its special characters replaced. -/
def replaceAll (text : String) : String := String.ofList (text.toList.flatMap replaceSpecial)

/-- The pattern that a lookup binds. -/
def TextLookup.pattern (lookup : TextLookup) (text : String) : String :=
  let text := replaceAll text
  let text :=
    if hasText lookup.tag "contains" || hasText lookup.tag "endswith" then "%" ++ text else text
  if hasText lookup.tag "contains" || hasText lookup.tag "startswith" then text ++ "%" else text

/-- A compiled lookup: whether both sides are lowered, and the bound pattern. -/
structure TextCondition where
  lowered : Bool
  pattern : String
deriving DecidableEq

def TextLookup.condition (lookup : TextLookup) (text : String) : TextCondition where
  lowered := "i".toList.isPrefixOf lookup.tag.toList
  pattern := lookup.pattern text

/-- The SQL of a condition on a column, with the placeholder of the pattern. -/
def TextCondition.sql (condition : TextCondition) (field rhs : String) : String :=
  let lower (sql : String) : String := if condition.lowered then "LOWER(" ++ sql ++ ")" else sql
  lower field ++ " LIKE " ++ lower rhs ++ " ESCAPE '\\'"

/-- A bound argument: a string, or a value of another type. -/
inductive Argument
  | text (s : String)
  | other (ident : Nat)
deriving DecidableEq

/-- The SQL of a lookup on a column, and the arguments with its own. -/
def TextLookup.predicate (placeholder : ℕ → String) (lookup : TextLookup) (field : String)
    (args : List Argument) : Argument → Except String (String × List Argument)
  | .other _ => .error "orm: text lookup requires string"
  | .text text =>
    let condition := lookup.condition text
    let args := args ++ [.text condition.pattern]
    .ok (condition.sql field (placeholder args.length), args)

/-- What a lookup compiles to: the SQL of its condition with the number of a new placeholder, to which
the pattern of the same condition is bound. Only a string has one. -/
lemma TextLookup.predicate_eq_ok_iff {placeholder : ℕ → String} {lookup : TextLookup}
    {field sql : String} {args args' : List Argument} {value : Argument} :
    lookup.predicate placeholder field args value = .ok (sql, args') ↔
      ∃ text, value = .text text ∧ args' = args ++ [.text (lookup.condition text).pattern] ∧
        sql = (lookup.condition text).sql field (placeholder (args.length + 1)) := by
  cases value with
  | other ident => simp [TextLookup.predicate]
  | text text =>
    simp only [TextLookup.predicate, length_append, length_singleton, Except.ok.injEq,
      Prod.mk.injEq, Argument.text.injEq, exists_eq_left']
    rw [and_comm, eq_comm, @eq_comm _ sql]

/-! ## The database -/

/-- The characters of `LIKE … ESCAPE '\'`. -/
def sqlWildcards : Wildcards Char := ⟨'%', '_', '\\', by decide, by decide, by decide⟩

/-- Whether a condition holds of a string, where `LOWER` goes character by character. -/
def TextCondition.holds (lower : Char → Char) (condition : TextCondition) (s : String) : Bool :=
  if condition.lowered then
    like sqlWildcards (condition.pattern.toList.map lower) (s.toList.map lower)
  else like sqlWildcards condition.pattern.toList s.toList

/-- What a lookup is to say of a text and a string. -/
def TextLookup.Wanted : TextLookup → List Char → List Char → Prop
  | .contains, text, s | .icontains, text, s => text <:+: s
  | .startswith, text, s | .istartswith, text, s => text <+: s
  | .endswith, text, s | .iendswith, text, s => text <:+ s

def TextLookup.ignoresCase : TextLookup → Bool
  | .contains | .startswith | .endswith => false
  | .icontains | .istartswith | .iendswith => true

/-! ## The pattern -/

lemma lowered_condition (lookup : TextLookup) (text : String) :
    (lookup.condition text).lowered = lookup.ignoresCase := by
  cases lookup <;> rfl

variable {lookup : TextLookup} {lower : Char → Char}

/-- The lookups that ignore case compare the lower case of both sides. -/
lemma holds_of_ignoresCase (h : lookup.ignoresCase = true) (lower : Char → Char) (text s : String) :
    (lookup.condition text).holds lower s =
      like sqlWildcards ((lookup.pattern text).toList.map lower) (s.toList.map lower) := by
  unfold TextCondition.holds
  rw [lowered_condition, if_pos h]
  rfl

lemma holds_of_plain (h : lookup.ignoresCase = false) (lower : Char → Char) (text s : String) :
    (lookup.condition text).holds lower s =
      like sqlWildcards (lookup.pattern text).toList s.toList := by
  unfold TextCondition.holds
  rw [lowered_condition, if_neg (by rw [h]; exact Bool.false_ne_true)]
  rfl

lemma flatMap_replaceSpecial (text : List Char) :
    text.flatMap replaceSpecial = escapeText sqlWildcards text := by
  refine flatMap_congr fun c _ => ?_
  unfold replaceSpecial escapeChar Wildcards.special
  by_cases hescape : c = '\\'
  · subst hescape
    rfl
  by_cases hmany : c = '%'
  · subst hmany
    rfl
  by_cases hone : c = '_'
  · subst hone
    rfl
  rw [if_neg hescape, if_neg hmany, if_neg hone, if_neg]
  rw [decide_eq_true_iff]
  rintro (h | h | h)
  · exact hmany h
  · exact hone h
  · exact hescape h

/-- The pattern of a lookup: the escaped text, with the wildcards of its kind. -/
lemma toList_pattern (lookup : TextLookup) (text : String) :
    (lookup.pattern text).toList =
      match lookup with
      | .contains | .icontains => '%' :: escapeText sqlWildcards text.toList ++ ['%']
      | .startswith | .istartswith => escapeText sqlWildcards text.toList ++ ['%']
      | .endswith | .iendswith => '%' :: escapeText sqlWildcards text.toList := by
  have hall : (replaceAll text).toList = escapeText sqlWildcards text.toList := by
    unfold replaceAll
    rw [String.toList_ofList, flatMap_replaceSpecial]
  have hfront : ("%" ++ replaceAll text).toList =
      '%' :: escapeText sqlWildcards text.toList := by
    rw [String.toList_append, hall]
    rfl
  cases lookup
  case contains | icontains =>
    show (("%" ++ replaceAll text) ++ "%").toList = _
    rw [String.toList_append, hfront]
    rfl
  case startswith | istartswith =>
    show (replaceAll text ++ "%").toList = _
    rw [String.toList_append, hall]
    rfl
  case endswith | iendswith =>
    show ("%" ++ replaceAll text).toList = _
    exact hfront

/-- A pattern of a lookup, read by the database. -/
lemma like_pattern (lookup : TextLookup) (text s : List Char) :
    like sqlWildcards
        (match lookup with
        | .contains | .icontains => '%' :: escapeText sqlWildcards text ++ ['%']
        | .startswith | .istartswith => escapeText sqlWildcards text ++ ['%']
        | .endswith | .iendswith => '%' :: escapeText sqlWildcards text) s = true ↔
      lookup.Wanted text s := by
  cases lookup
  case contains | icontains => exact like_infix
  case startswith | istartswith => exact like_isPrefix
  case endswith | iendswith => exact like_isSuffix

/-! ## Lower case -/

/-- `LOWER` keeps the characters with a meaning, and makes no other character one of them. -/
def KeepsMeaning (lower : Char → Char) : Prop :=
  ∀ c, lower c = '%' ∨ lower c = '_' ∨ lower c = '\\' → c = '%' ∨ c = '_' ∨ c = '\\'

/-- The characters with a meaning are fixed. -/
structure Fixes (lower : Char → Char) : Prop where
  many : lower '%' = '%'
  one : lower '_' = '_'
  escape : lower '\\' = '\\'

lemma special_iff (c : Char) :
    sqlWildcards.special c = true ↔ c = '%' ∨ c = '_' ∨ c = '\\' := by
  unfold Wildcards.special
  rw [decide_eq_true_iff]
  rfl

lemma Fixes.special_eq (h : Fixes lower) (hkeeps : KeepsMeaning lower) (c : Char) :
    sqlWildcards.special (lower c) = sqlWildcards.special c := by
  rw [Bool.eq_iff_iff, special_iff, special_iff]
  refine ⟨hkeeps c, ?_⟩
  rintro (rfl | rfl | rfl)
  · exact .inl h.many
  · exact .inr (.inl h.one)
  · exact .inr (.inr h.escape)

/-- The lower case of a pattern is the pattern of the lower case. -/
lemma Fixes.map_pattern (h : Fixes lower) (hkeeps : KeepsMeaning lower) (lookup : TextLookup)
    (text : String) :
    (lookup.pattern text).toList.map lower =
      match lookup with
      | .contains | .icontains =>
        '%' :: escapeText sqlWildcards (text.toList.map lower) ++ ['%']
      | .startswith | .istartswith => escapeText sqlWildcards (text.toList.map lower) ++ ['%']
      | .endswith | .iendswith => '%' :: escapeText sqlWildcards (text.toList.map lower) := by
  have hmap := map_escapeText h.escape (h.special_eq hkeeps) text.toList
  rw [toList_pattern]
  cases lookup
  case contains | icontains =>
    show (('%' :: escapeText sqlWildcards text.toList) ++ ['%']).map lower = _
    rw [map_append, map_cons, map_singleton, hmap, h.many]
  case startswith | istartswith =>
    show (escapeText sqlWildcards text.toList ++ ['%']).map lower = _
    rw [map_append, map_singleton, hmap, h.many]
  case endswith | iendswith =>
    show ('%' :: escapeText sqlWildcards text.toList).map lower = _
    rw [map_cons, hmap, h.many]

/-- A pattern with one character that has no meaning, in lower case. -/
lemma holds_icontains_one (h : Fixes lower) {c : Char} (hc : ¬ (c = '%' ∨ c = '_' ∨ c = '\\'))
    (s : String) :
    (TextLookup.icontains.condition (String.ofList [c])).holds lower s =
      like sqlWildcards ['%', lower c, '%'] (s.toList.map lower) := by
  have hplain : escapeText sqlWildcards [c] = [c] := by
    show escapeChar sqlWildcards c ++ [] = [c]
    unfold escapeChar
    rw [if_neg fun hspecial => hc ((special_iff c).mp hspecial)]
    rfl
  have hpattern : (TextLookup.icontains.pattern (String.ofList [c])).toList = ['%', c, '%'] := by
    rw [toList_pattern, String.toList_ofList, hplain]
    rfl
  rw [holds_of_ignoresCase rfl, hpattern, map_cons, map_cons, map_singleton, h.many]

/-- **Text lookups are exact.** The plain forms always are. The forms that ignore case are exact
for all texts and strings, where `LOWER` fixes `%`, `_` and the backslash, if and only if it takes
no other character to one of them. -/
theorem text_lookups_exact :
    (∀ (lower : Char → Char) (lookup : TextLookup) (text s : String),
      lookup.ignoresCase = false →
        ((lookup.condition text).holds lower s = true ↔ lookup.Wanted text.toList s.toList)) ∧
    ∀ lower : Char → Char, Fixes lower →
      ((∀ (lookup : TextLookup) (text s : String), lookup.ignoresCase = true →
        ((lookup.condition text).holds lower s = true ↔
          lookup.Wanted (text.toList.map lower) (s.toList.map lower))) ↔
        KeepsMeaning lower) := by
  refine ⟨fun lower lookup text s hcase => ?_, fun lower hfixes => ⟨fun hexact c => ?_, ?_⟩⟩
  · rw [holds_of_plain hcase, toList_pattern, like_pattern]
  · -- a character that becomes one with a meaning is looked for as that one
    intro hlower
    by_contra hc
    have hlook : ∀ s : String, like sqlWildcards ['%', lower c, '%'] (s.toList.map lower) = true →
        lower c ∈ s.toList.map lower := by
      intro s hlike
      rw [← holds_icontains_one hfixes hc] at hlike
      have hwanted : (String.ofList [c]).toList.map lower <:+: s.toList.map lower :=
        (hexact .icontains (String.ofList [c]) s rfl).mp hlike
      rw [String.toList_ofList] at hwanted
      exact hwanted.subset (mem_singleton_self _)
    rcases hlower with hmany | hone | hescape
    · have hmem := hlook "" (by
        rw [hmany]
        show like sqlWildcards ['%', '%', '%'] [] = true
        decide)
      cases hmem
    · have hmem := hlook "%" (by
        rw [hone]
        show like sqlWildcards ['%', '_', '%'] [lower '%'] = true
        rw [hfixes.many]
        decide)
      rw [hone] at hmem
      have heq : '_' = lower '%' := mem_singleton.mp hmem
      rw [hfixes.many] at heq
      exact absurd heq (by decide)
    · have hmem := hlook "%" (by
        rw [hescape]
        show like sqlWildcards ['%', '\\', '%'] [lower '%'] = true
        rw [hfixes.many]
        decide)
      rw [hescape] at hmem
      have heq : '\\' = lower '%' := mem_singleton.mp hmem
      rw [hfixes.many] at heq
      exact absurd heq (by decide)
  · intro hkeeps lookup text s hcase
    rw [holds_of_ignoresCase hcase, hfixes.map_pattern hkeeps, like_pattern]

/-! ## Samples -/

/-- A `LOWER` that knows one letter. -/
def lowerOf (letter lowered c : Char) : Char := if c = letter then lowered else c

lemma fixes_lowerOf {letter lowered : Char} (h : letter ≠ '%' ∧ letter ≠ '_' ∧ letter ≠ '\\') :
    Fixes (lowerOf letter lowered) := by
  refine ⟨?_, ?_, ?_⟩
  · exact if_neg (Ne.symm h.1)
  · exact if_neg (Ne.symm h.2.1)
  · exact if_neg (Ne.symm h.2.2)

theorem text_lookups_exact_percent :
    (TextLookup.startswith.Wanted "50%".toList "50% off".toList ∧
        ¬ TextLookup.startswith.Wanted "50%".toList "500 off".toList) ∧
      TextLookup.icontains.Wanted ("A%".toList.map (lowerOf 'A' 'a'))
        ("1a%2".toList.map (lowerOf 'A' 'a')) := by
  have hkeeps : KeepsMeaning (lowerOf 'A' 'a') := by
    intro c hc
    unfold lowerOf at hc
    split_ifs at hc
    · exact absurd hc (by decide)
    · exact hc
  refine ⟨⟨?_, fun h => ?_⟩, ?_⟩
  · exact (text_lookups_exact.1 id .startswith "50%" "50% off" rfl).mp (by decide)
  · exact absurd ((text_lookups_exact.1 id .startswith "50%" "500 off" rfl).mpr h) (by decide)
  · exact ((text_lookups_exact.2 _ (fixes_lowerOf (by decide))).mpr hkeeps .icontains "A%" "1a%2"
      rfl).mp (by decide)

/-- **A `LOWER` that makes a letter a wildcard lets the lookup match everything.** -/
theorem lowered_wildcard_matches :
    Fixes (lowerOf 'P' '%') ∧
      (TextLookup.icontains.condition "P").holds (lowerOf 'P' '%') "" = true ∧
      ¬ TextLookup.icontains.Wanted ("P".toList.map (lowerOf 'P' '%'))
        ("".toList.map (lowerOf 'P' '%')) := by
  refine ⟨fixes_lowerOf (by decide), by decide, ?_⟩
  show ¬ ['%'] <:+: []
  decide

end Gogo.SqlCompiler

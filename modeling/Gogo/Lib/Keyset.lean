import Mathlib.Data.List.Sort
import Mathlib.Data.List.Nodup
import Mathlib.Order.Defs.LinearOrder

/-!
# Orders by several keys

Rows are ordered by a list of keys, each ascending or descending: the first key on which two rows
differ decides.

* `follows keys r s` — `s` comes after `r`; a strict order (`follows_irrefl`, `follows_trans`) in
  which rows that differ on some key are comparable (`follows_total`).
* `orderBy` — the sorted list, the only ordered permutation (`orderBy_eq`).
* `filter_follows` — in an ordered list, the rows after a row are the rest of the list.
-/

namespace Gogo.Lib

open List

variable {α V : Type}

/-- A key with its direction. -/
structure SortKey (α V : Type) where
  value : α → V
  descending : Bool

variable [LinearOrder V]

/-- The key puts the second row strictly after the first one. -/
def SortKey.lt (key : SortKey α V) (r s : α) : Bool :=
  if key.descending then decide (key.value s < key.value r)
  else decide (key.value r < key.value s)

/-- The second row comes after the first one. -/
def follows : List (SortKey α V) → α → α → Bool
  | [], _, _ => false
  | key :: rest, r, s => key.lt r s || (decide (key.value r = key.value s) && follows rest r s)

variable {key : SortKey α V} {keys : List (SortKey α V)} {r s t : α}

lemma SortKey.lt_irrefl : key.lt r r = false := by
  simp [SortKey.lt]

lemma SortKey.lt_trans (h : key.lt r s = true) (h' : key.lt s t = true) : key.lt r t = true := by
  unfold SortKey.lt at h h' ⊢
  split_ifs at h h' ⊢ with hdesc
  · exact decide_eq_true ((of_decide_eq_true h').trans (of_decide_eq_true h))
  · exact decide_eq_true ((of_decide_eq_true h).trans (of_decide_eq_true h'))

lemma SortKey.lt_congr {r' s' : α} (hr : key.value r = key.value r')
    (hs : key.value s = key.value s') : key.lt r s = key.lt r' s' := by
  rw [SortKey.lt, SortKey.lt, hr, hs]

lemma SortKey.trichotomy (key : SortKey α V) (r s : α) :
    key.lt r s = true ∨ key.value r = key.value s ∨ key.lt s r = true := by
  unfold SortKey.lt
  rcases lt_trichotomy (key.value r) (key.value s) with h | h | h
  · by_cases hdesc : key.descending = true <;> simp [hdesc, h]
  · exact .inr (.inl h)
  · by_cases hdesc : key.descending = true <;> simp [hdesc, h]

lemma follows_cons : follows (key :: keys) r s = true ↔
    key.lt r s = true ∨ key.value r = key.value s ∧ follows keys r s = true := by
  simp [follows]

lemma follows_irrefl : follows keys r r = false := by
  induction keys with
  | nil => rfl
  | cons key rest ih => simp [follows, SortKey.lt_irrefl, ih]

lemma follows_trans (h : follows keys r s = true) (h' : follows keys s t = true) :
    follows keys r t = true := by
  induction keys with
  | nil => cases h
  | cons key rest ih =>
    rw [follows_cons] at h h' ⊢
    rcases h with h | ⟨heq, h⟩
    · rcases h' with h' | ⟨heq', -⟩
      · exact .inl (SortKey.lt_trans h h')
      · exact .inl (SortKey.lt_congr rfl heq' ▸ h)
    · rcases h' with h' | ⟨heq', h'⟩
      · exact .inl (SortKey.lt_congr heq.symm rfl ▸ h')
      · exact .inr ⟨heq.trans heq', ih h h'⟩

/-- Rows that differ on some key are comparable. -/
lemma follows_total (h : ∃ key ∈ keys, key.value r ≠ key.value s) :
    follows keys r s = true ∨ follows keys s r = true := by
  induction keys with
  | nil =>
    obtain ⟨key, hkey, -⟩ := h
    cases hkey
  | cons key rest ih =>
    rw [follows_cons, follows_cons]
    rcases key.trichotomy r s with hlt | heq | hlt
    · exact .inl (.inl hlt)
    · obtain ⟨other, hother, hne⟩ := h
      rcases mem_cons.mp hother with rfl | hother
      · exact absurd heq hne
      · exact (ih ⟨other, hother, hne⟩).imp (fun h => .inr ⟨heq, h⟩) fun h => .inr ⟨heq.symm, h⟩
    · exact .inr (.inl hlt)

/-- A row between two others, in neither order after both, would have to be level with them. -/
lemma follows_cotrans (h : follows keys r t = true) (s : α) :
    follows keys r s = true ∨ follows keys s t = true := by
  induction keys with
  | nil => cases h
  | cons key rest ih =>
    simp only [follows_cons] at h ⊢
    rcases key.trichotomy r s with hrs | hrs | hrs
    · exact .inl (.inl hrs)
    · rcases h with h | ⟨heq, h⟩
      · exact .inr (.inl (SortKey.lt_congr hrs rfl ▸ h))
      · exact (ih h).imp (fun h => .inr ⟨hrs, h⟩) fun h => .inr ⟨hrs.symm.trans heq, h⟩
    · rcases h with h | ⟨heq, -⟩
      · exact .inr (.inl (SortKey.lt_trans hrs h))
      · exact .inr (.inl (SortKey.lt_congr rfl heq ▸ hrs))

/-! ## Ordered lists -/

/-- The first row may stand before the second one. -/
def Precedes (keys : List (SortKey α V)) (r s : α) : Prop := follows keys s r = false

instance (keys : List (SortKey α V)) : DecidableRel (Precedes keys) :=
  fun r s => inferInstanceAs (Decidable (follows keys s r = false))

instance (keys : List (SortKey α V)) : Std.Total (Precedes keys) where
  total r s := by
    unfold Precedes
    by_contra hnot
    simp only [not_or, Bool.not_eq_false] at hnot
    have hloop := follows_trans hnot.1 hnot.2
    rw [follows_irrefl] at hloop
    cases hloop

instance (keys : List (SortKey α V)) : IsTrans α (Precedes keys) where
  trans r s t hrs hst := by
    unfold Precedes at *
    by_contra hnot
    rw [Bool.not_eq_false] at hnot
    rcases follows_cotrans hnot s with h | h
    · rw [h] at hst
      cases hst
    · rw [h] at hrs
      cases hrs

/-- The rows of a list in the order of the keys. -/
def orderBy (keys : List (SortKey α V)) (l : List α) : List α := l.insertionSort (Precedes keys)

lemma perm_orderBy (keys : List (SortKey α V)) (l : List α) : (orderBy keys l).Perm l :=
  perm_insertionSort _ l

omit [LinearOrder V] in
/-- The keys tell the rows of a list apart. -/
def Separates (keys : List (SortKey α V)) (l : List α) : Prop :=
  l.Pairwise fun r s => ∃ key ∈ keys, key.value r ≠ key.value s

variable {l l' : List α}

omit [LinearOrder V] in
lemma Separates.sublist (h : Separates keys l) (hsub : l'.Sublist l) : Separates keys l' :=
  List.Pairwise.sublist hsub h

omit [LinearOrder V] in
lemma Separates.perm (h : Separates keys l) (hperm : l.Perm l') : Separates keys l' := by
  refine (hperm.pairwise_iff ?_).mp h
  rintro r s ⟨key, hkey, hne⟩
  exact ⟨key, hkey, hne.symm⟩

/-- The sorted list is strictly ordered when the keys tell its rows apart. -/
lemma pairwise_orderBy (h : Separates keys l) :
    (orderBy keys l).Pairwise fun r s => follows keys r s = true := by
  have hle := pairwise_insertionSort (Precedes keys) l
  have hsep : Separates keys (orderBy keys l) := h.perm (perm_orderBy keys l).symm
  refine (hle.and hsep).imp ?_
  rintro r s ⟨hprecedes, hne⟩
  rcases follows_total hne with h | h
  · exact h
  · rw [Precedes, h] at hprecedes
    cases hprecedes

/-- **The sorted list is the only ordered permutation.** -/
lemma orderBy_eq (hperm : l'.Perm l) (h : l'.Pairwise fun r s => follows keys r s = true)
    (hsep : Separates keys l) : orderBy keys l = l' := by
  refine Perm.eq_of_pairwise ?_ (pairwise_orderBy hsep) h ((perm_orderBy keys l).trans hperm.symm)
  intro r s _ _ hrs hsr
  have hloop := follows_trans hrs hsr
  rw [follows_irrefl] at hloop
  cases hloop

/-- Rows are selected before or after sorting. -/
lemma orderBy_filter (hsep : Separates keys l) (test : α → Bool) :
    orderBy keys (l.filter test) = (orderBy keys l).filter test :=
  orderBy_eq ((perm_orderBy keys l).filter test) ((pairwise_orderBy hsep).filter test)
    (hsep.sublist filter_sublist)

/-- **In an ordered list, the rows after a row are the rest of the list.** -/
lemma filter_follows {before after : List α} {row : α}
    (h : (before ++ row :: after).Pairwise fun r s => follows keys r s = true) :
    (before ++ row :: after).filter (fun s => follows keys row s) = after := by
  obtain ⟨-, hrest, hcross⟩ := pairwise_append.mp h
  obtain ⟨hafter, -⟩ := pairwise_cons.mp hrest
  have hbefore : before.filter (fun s => follows keys row s) = [] := by
    refine filter_eq_nil_iff.mpr fun s hs hfollows => ?_
    have hloop := follows_trans (hcross s hs row mem_cons_self) hfollows
    rw [follows_irrefl] at hloop
    cases hloop
  rw [filter_append, hbefore, nil_append,
    filter_cons_of_neg (by simp [follows_irrefl]), filter_eq_self]
  exact hafter

end Gogo.Lib

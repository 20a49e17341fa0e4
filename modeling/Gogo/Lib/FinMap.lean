import Mathlib.Data.List.Sort
import Mathlib.Data.List.Perm.Basic
import Mathlib.Data.String.Basic
import Mathlib.Tactic

/-!
# Finite maps with distinct keys

A finite map is a list of entries whose keys are pairwise distinct; the distinctness is a field
of the structure, so no operation has to re-establish it for its caller. The list order is the
insertion order and carries no meaning: every statement below is about `get?` and `keys`.

* `FinMap.get?`, `FinMap.set`, `FinMap.erase`, `FinMap.mapValues` — the operations of a
  built-in map: read, write, delete, and a pass over all the values.
* `FinMap.ofList` — the map built by writing the entries of a list one after the other, so
  that the last entry of a key wins.
* `sortStrings` — the keys of a map are read in sorted order wherever order is observable.
-/

namespace Gogo.Lib

open List

/-- A finite map as a list of entries with pairwise distinct keys. -/
structure FinMap (κ α : Type) where
  /-- The entries, in insertion order. -/
  entries : List (κ × α)
  /-- No key occurs twice. -/
  nodup : (entries.map Prod.fst).Nodup

namespace FinMap

variable {κ α β : Type} [DecidableEq κ]

/-! ## Entries -/

/-- The value of the first entry with key `k`. -/
def getEntry (k : κ) : List (κ × α) → Option α
  | [] => none
  | (k', v) :: rest => if k' = k then some v else getEntry k rest

/-- Write `v` at `k`: in place when `k` has an entry, at the end otherwise. -/
def setEntry (k : κ) (v : α) : List (κ × α) → List (κ × α)
  | [] => [(k, v)]
  | (k', v') :: rest => if k' = k then (k, v) :: rest else (k', v') :: setEntry k v rest

/-- A write keeps the keys in their places, and appends a new one. -/
lemma map_fst_setEntry (k : κ) (v : α) (l : List (κ × α)) :
    (setEntry k v l).map Prod.fst =
      if k ∈ l.map Prod.fst then l.map Prod.fst else l.map Prod.fst ++ [k] := by
  induction l with
  | nil => simp [setEntry]
  | cons e rest ih =>
    obtain ⟨k', v'⟩ := e
    by_cases h : k' = k
    · simp [setEntry, h]
    · have hk : k ≠ k' := fun h' => h h'.symm
      simp only [setEntry, if_neg h, map_cons, ih, mem_cons, hk, false_or]
      split_ifs <;> simp

variable {l : List (κ × α)} {k : κ} {v : α}

lemma nodup_setEntry (k : κ) (v : α) (h : (l.map Prod.fst).Nodup) :
    ((setEntry k v l).map Prod.fst).Nodup := by
  rw [map_fst_setEntry]
  split_ifs with hk
  · exact h
  · exact Nodup.append h (nodup_singleton k) (by simpa using hk)

/-- A write changes what its key stands for, and nothing else. -/
lemma getEntry_setEntry (k k' : κ) (v : α) (l : List (κ × α)) :
    getEntry k' (setEntry k v l) = if k = k' then some v else getEntry k' l := by
  induction l with
  | nil => rfl
  | cons e rest ih =>
    obtain ⟨k₀, v₀⟩ := e
    by_cases h : k₀ = k
    · subst h
      by_cases h' : k₀ = k' <;> simp [setEntry, getEntry, h']
    · simp only [setEntry, if_neg h, getEntry, ih]
      by_cases h' : k₀ = k'
      · subst h'
        simp [Ne.symm h]
      · simp [h']

/-- Writing twice is writing once. -/
lemma setEntry_setEntry (k : κ) (v : α) (l : List (κ × α)) :
    setEntry k v (setEntry k v l) = setEntry k v l := by
  induction l with
  | nil => simp [setEntry]
  | cons e rest ih =>
    by_cases h : e.1 = k
    · simp [setEntry, h]
    · simp [setEntry, h, ih]

/-- An entry after a write is the one written or an old one. -/
lemma mem_setEntry {e : κ × α} (h : e ∈ setEntry k v l) : e = (k, v) ∨ e ∈ l := by
  induction l with
  | nil => exact .inl (mem_singleton.mp h)
  | cons e' rest ih =>
    by_cases hk : e'.1 = k
    · rw [setEntry, if_pos hk, mem_cons] at h
      exact h.imp_right (mem_cons_of_mem _)
    · rw [setEntry, if_neg hk, mem_cons] at h
      rcases h with rfl | h
      · exact .inr mem_cons_self
      · exact (ih h).imp_right (mem_cons_of_mem _)

/-- With distinct keys, to be found is to be there. -/
lemma getEntry_eq_some_iff (h : (l.map Prod.fst).Nodup) : getEntry k l = some v ↔ (k, v) ∈ l := by
  induction l with
  | nil => simp [getEntry]
  | cons e rest ih =>
    obtain ⟨k', v'⟩ := e
    rw [map_cons, nodup_cons] at h
    by_cases hk : k' = k
    · subst hk
      have hfresh : ∀ w, (k', w) ∉ rest :=
        fun w hw => h.1 (mem_map.mpr ⟨_, hw, rfl⟩)
      simp [getEntry, hfresh, eq_comm]
    · have hk' : k ≠ k' := fun h' => hk h'.symm
      simp [getEntry, hk, hk', ih h.2]

/-! ## Operations -/

def empty : FinMap κ α := ⟨[], List.nodup_nil⟩

/-- The value at a key, if the key is present. -/
def get? (m : FinMap κ α) (k : κ) : Option α := getEntry k m.entries

def keys (m : FinMap κ α) : List κ := m.entries.map Prod.fst

/-- Write a value at a key. -/
def set (m : FinMap κ α) (k : κ) (v : α) : FinMap κ α :=
  ⟨setEntry k v m.entries, nodup_setEntry k v m.nodup⟩

/-- Delete a key. -/
def erase (m : FinMap κ α) (k : κ) : FinMap κ α :=
  ⟨m.entries.filter fun e => e.1 ≠ k, by
    refine List.Nodup.sublist ?_ m.nodup
    exact List.Sublist.map _ List.filter_sublist⟩

/-- Write a value when there is one, delete the key otherwise. -/
def put (m : FinMap κ α) (k : κ) : Option α → FinMap κ α
  | some v => m.set k v
  | none => m.erase k

/-- Rewrite every value in place. -/
def mapValues (m : FinMap κ α) (f : κ → α → β) : FinMap κ β :=
  ⟨m.entries.map fun e => (e.1, f e.1 e.2), by
    have h : (m.entries.map fun e => (e.1, f e.1 e.2)).map Prod.fst = m.entries.map Prod.fst := by
      simp
    rw [h]
    exact m.nodup⟩

/-- The map written by the entries of a list from left to right; the last entry of a key wins. -/
def ofList (l : List (κ × α)) : FinMap κ α := l.foldl (fun m e => m.set e.1 e.2) empty

/-! ## What the operations do to `get?` -/

variable (m : FinMap κ α)

@[simp] lemma get?_empty (k : κ) : (empty : FinMap κ α).get? k = none := rfl

/-- What a map holds after a write. -/
lemma get?_set (k k' : κ) (v : α) :
    (m.set k v).get? k' = if k = k' then some v else m.get? k' :=
  getEntry_setEntry k k' v m.entries

@[simp] lemma get?_set_self (k : κ) (v : α) : (m.set k v).get? k = some v := by
  simp [get?_set]

lemma get?_set_of_ne {k' : κ} (h : k ≠ k') (v : α) : (m.set k v).get? k' = m.get? k' := by
  simp [get?_set, h]

/-- The entries of a map are what can be read. -/
lemma get?_eq_some_iff : m.get? k = some v ↔ (k, v) ∈ m.entries :=
  getEntry_eq_some_iff m.nodup

/-- What a map holds after an entry is erased. -/
lemma get?_erase (k k' : κ) :
    (m.erase k).get? k' = if k = k' then none else m.get? k' := by
  apply Option.ext
  intro v
  rw [get?_eq_some_iff]
  by_cases h : k = k'
  · subst h
    simp [erase]
  · rw [if_neg h, get?_eq_some_iff]
    simp [erase, Ne.symm h]

/-- What a map holds after a write or a deletion. -/
lemma get?_put (k k' : κ) (v : Option α) :
    (m.put k v).get? k' = if k = k' then v else m.get? k' := by
  cases v with
  | none => exact get?_erase m k k'
  | some v => exact get?_set m k k' v

/-- The values of a map are mapped one by one. -/
@[simp] lemma get?_mapValues (f : κ → α → β) (k : κ) :
    (m.mapValues f).get? k = (m.get? k).map (f k) := by
  apply Option.ext
  intro v
  rw [get?_eq_some_iff, Option.map_eq_some_iff]
  simp only [mapValues, mem_map, Prod.mk.injEq]
  constructor
  · rintro ⟨⟨k', w⟩, hmem, rfl, rfl⟩
    exact ⟨w, (m.get?_eq_some_iff).mpr hmem, rfl⟩
  · rintro ⟨w, hw, rfl⟩
    exact ⟨(k, w), (m.get?_eq_some_iff).mp hw, rfl, rfl⟩

/-! ## Keys -/

omit [DecidableEq κ] in
lemma nodup_keys : m.keys.Nodup := m.nodup

/-- The keys are those that stand for something. -/
lemma mem_keys : k ∈ m.keys ↔ ∃ v, m.get? k = some v := by
  simp only [keys, mem_map, get?_eq_some_iff]
  constructor
  · rintro ⟨⟨k', v⟩, hmem, rfl⟩
    exact ⟨v, hmem⟩
  · rintro ⟨v, hmem⟩
    exact ⟨(k, v), hmem, rfl⟩

lemma not_mem_keys : k ∉ m.keys ↔ m.get? k = none := by
  rw [mem_keys, Option.eq_none_iff_forall_ne_some]
  push Not
  rfl

/-! ## Maps written from a list -/

/-- Writes to other keys leave a key alone. -/
lemma get?_foldl_set (l : List (κ × α)) (m : FinMap κ α) (k : κ)
    (hk : k ∉ l.map Prod.fst) :
    (l.foldl (fun m e => m.set e.1 e.2) m).get? k = m.get? k := by
  induction l generalizing m with
  | nil => rfl
  | cons e rest ih =>
    simp only [map_cons, mem_cons, not_or] at hk
    rw [foldl_cons, ih _ hk.2, get?_set_of_ne _ (Ne.symm hk.1)]

/-- Of writes to distinct keys, each is read back. -/
lemma get?_foldl_set_of_mem (hl : (l.map Prod.fst).Nodup) (m : FinMap κ α) (hmem : (k, v) ∈ l) :
    (l.foldl (fun m e => m.set e.1 e.2) m).get? k = some v := by
  induction l generalizing m with
  | nil => simp at hmem
  | cons e rest ih =>
    rw [map_cons, nodup_cons] at hl
    rw [foldl_cons]
    rcases mem_cons.mp hmem with rfl | hrest
    · rw [get?_foldl_set _ _ _ hl.1, get?_set_self]
    · exact ih hl.2 _ hrest

/-- What is read after some writes was written, or there before. -/
lemma mem_of_get?_foldl_set {m : FinMap κ α}
    (h : (l.foldl (fun m e => m.set e.1 e.2) m).get? k = some v) :
    (k, v) ∈ l ∨ m.get? k = some v := by
  induction l generalizing m with
  | nil => exact .inr h
  | cons e rest ih =>
    rcases ih h with hmem | hset
    · exact .inl (mem_cons_of_mem _ hmem)
    · rw [get?_set] at hset
      split_ifs at hset with heq
      · obtain rfl := Option.some.inj hset
        exact .inl (heq ▸ mem_cons_self)
      · exact .inr hset

/-- What a map reads was written to it. -/
lemma mem_of_get?_ofList (h : (ofList l).get? k = some v) : (k, v) ∈ l := by
  rcases mem_of_get?_foldl_set h with hmem | hempty
  · exact hmem
  · cases hempty

/-- A list with distinct keys is read back by the map it writes. -/
lemma get?_ofList (hl : (l.map Prod.fst).Nodup) : (ofList l).get? k = some v ↔ (k, v) ∈ l :=
  ⟨mem_of_get?_ofList, get?_foldl_set_of_mem hl _⟩

/-- A map that is written from a list has the keys of the list. -/
lemma exists_get?_ofList_iff : (∃ v, (ofList l).get? k = some v) ↔ k ∈ l.map Prod.fst := by
  constructor
  · rintro ⟨v, hget⟩
    exact mem_map_of_mem (mem_of_get?_ofList hget)
  · intro hk
    -- the last entry with the key is the one that is read
    have hwritten : ∀ m : FinMap κ α,
        ∃ v, (l.foldl (fun m e => m.set e.1 e.2) m).get? k = some v := by
      induction l with
      | nil => cases hk
      | cons e rest ih =>
        intro m
        by_cases hrest : k ∈ rest.map Prod.fst
        · exact ih hrest (m.set e.1 e.2)
        · rcases mem_cons.mp hk with heq | hin
          · rw [foldl_cons, get?_foldl_set _ _ _ hrest, heq, get?_set_self]
            exact ⟨_, rfl⟩
          · exact absurd hin hrest
    exact hwritten empty

end FinMap

/-! ## Sorted keys -/

/-- Strings in increasing order. -/
def sortStrings (l : List String) : List String := l.insertionSort (· ≤ ·)

/-- Sorting keeps the keys. -/
lemma perm_sortStrings (l : List String) : (sortStrings l).Perm l :=
  perm_insertionSort _ l

variable {l : List String}

@[simp] lemma mem_sortStrings {s : String} : s ∈ sortStrings l ↔ s ∈ l :=
  (perm_sortStrings l).mem_iff

lemma nodup_sortStrings : (sortStrings l).Nodup ↔ l.Nodup :=
  (perm_sortStrings l).nodup_iff

lemma pairwise_sortStrings (l : List String) : (sortStrings l).Pairwise (· ≤ ·) :=
  pairwise_insertionSort _ l

/-- The sorted list depends on the elements only. -/
lemma sortStrings_eq_of_perm {l' : List String} (h : l.Perm l') : sortStrings l = sortStrings l' :=
  ((perm_sortStrings l).trans (h.trans (perm_sortStrings l').symm)).eq_of_pairwise'
    (pairwise_sortStrings l) (pairwise_sortStrings l')

end Gogo.Lib

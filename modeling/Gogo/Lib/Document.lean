import Gogo.Lib.Run
import Mathlib.Data.List.Sort
import Mathlib.Data.String.Basic

/-!
# JSON documents over a type of numbers

The numbers of a document are left open, so that one tree type serves for tokens, for exact
values and for normal forms: two documents over tokens are equal with numbers compared by value
when `Doc.map` of the value gives one document.

* `Doc.induct` — induction with the hypothesis at every item of an array and member of an object.
* `Doc.map`, `Doc.Forall`, `Doc.traverse` — the passes over the numbers, and what a pass that may
  fail returns (`Doc.traverse_eq_ok_iff`).
* `Doc.map_eq_map_iff` — two maps identify the same documents when they identify the same numbers.
* `Doc.nodes`, `Doc.Fits`, `Doc.size` — the number of values in a document, whether its nesting
  stays within a bound, and the length of its compact encoding.
* `Doc.look`, `Doc.Removal` — the value at a path, and documents that differ only in that members
  of objects are missing.
-/

namespace Gogo.Lib

open List

/-- A JSON document whose numbers have type `N`. The members of an object are listed in the order
of their names. -/
inductive Doc (N : Type)
  | null
  | bool (b : Bool)
  | num (n : N)
  | str (s : String)
  | arr (items : List (Doc N))
  | obj (members : List (String × Doc N))

namespace Doc

variable {N M K : Type}

/-- Induction over documents. -/
theorem induct {P : Doc N → Prop} (null : P .null) (bool : ∀ b, P (.bool b))
    (num : ∀ n, P (.num n)) (str : ∀ s, P (.str s))
    (arr : ∀ items, (∀ d ∈ items, P d) → P (.arr items))
    (obj : ∀ members, (∀ m ∈ members, P m.2) → P (.obj members)) (d : Doc N) : P d := by
  -- the motives of the lists are that every document of them has the property
  refine @Doc.rec N P (∀ d ∈ ·, P d) (∀ m ∈ ·, P m.2) (P ·.2) null bool num str arr obj ?_ ?_ ?_ ?_
    (fun _ _ hd => hd) d
  · exact fun _ hd => absurd hd not_mem_nil
  · exact fun _ _ hd hitems => forall_mem_cons.mpr ⟨hd, hitems⟩
  · exact fun _ hm => absurd hm not_mem_nil
  · exact fun _ _ hm hmembers => forall_mem_cons.mpr ⟨hm, hmembers⟩

/-! ## Passes over the numbers -/

mutual

/-- Replace every number. -/
def map (f : N → M) : Doc N → Doc M
  | .null => .null
  | .bool b => .bool b
  | .num n => .num (f n)
  | .str s => .str s
  | .arr items => .arr (mapItems f items)
  | .obj members => .obj (mapMembers f members)

/-- Replace every number of the items of an array. -/
def mapItems (f : N → M) : List (Doc N) → List (Doc M)
  | [] => []
  | d :: items => map f d :: mapItems f items

/-- Replace every number of the members of an object. -/
def mapMembers (f : N → M) : List (String × Doc N) → List (String × Doc M)
  | [] => []
  | (k, d) :: members => (k, map f d) :: mapMembers f members

end

mutual

/-- A pass over the numbers that stops at the first error. -/
def traverse {ε : Type} (f : N → Except ε M) : Doc N → Except ε (Doc M)
  | .null => .ok .null
  | .bool b => .ok (.bool b)
  | .num n => (f n).map .num
  | .str s => .ok (.str s)
  | .arr items => (traverseItems f items).map .arr
  | .obj members => (traverseMembers f members).map .obj

/-- The pass over the items of an array. -/
def traverseItems {ε : Type} (f : N → Except ε M) : List (Doc N) → Except ε (List (Doc M))
  | [] => .ok []
  | d :: items =>
    match traverse f d with
    | .error e => .error e
    | .ok d' => (traverseItems f items).map (d' :: ·)

/-- The pass over the members of an object. -/
def traverseMembers {ε : Type} (f : N → Except ε M) :
    List (String × Doc N) → Except ε (List (String × Doc M))
  | [] => .ok []
  | (k, d) :: members =>
    match traverse f d with
    | .error e => .error e
    | .ok d' => (traverseMembers f members).map ((k, d') :: ·)

end

mutual

/-- Every number satisfies `p`. -/
def Forall (p : N → Prop) : Doc N → Prop
  | .num n => p n
  | .arr items => ForallItems p items
  | .obj members => ForallMembers p members
  | _ => True

/-- Every number of the items satisfies `p`. -/
def ForallItems (p : N → Prop) : List (Doc N) → Prop
  | [] => True
  | d :: items => Forall p d ∧ ForallItems p items

/-- Every number of the members satisfies `p`. -/
def ForallMembers (p : N → Prop) : List (String × Doc N) → Prop
  | [] => True
  | (_, d) :: members => Forall p d ∧ ForallMembers p members

end

lemma mapItems_eq (f : N → M) (items : List (Doc N)) : mapItems f items = items.map (map f) := by
  induction items with
  | nil => rfl
  | cons d items ih => rw [mapItems, ih, map_cons]

lemma mapMembers_eq (f : N → M) (members : List (String × Doc N)) :
    mapMembers f members = members.map fun m => (m.1, map f m.2) := by
  induction members with
  | nil => rfl
  | cons m members ih => rw [mapMembers, ih, map_cons]

lemma forallItems_iff (p : N → Prop) (items : List (Doc N)) :
    ForallItems p items ↔ ∀ d ∈ items, Forall p d := by
  induction items with
  | nil => simp [ForallItems]
  | cons d items ih => rw [ForallItems, ih, forall_mem_cons]

lemma forallMembers_iff (p : N → Prop) (members : List (String × Doc N)) :
    ForallMembers p members ↔ ∀ m ∈ members, Forall p m.2 := by
  induction members with
  | nil => simp [ForallMembers]
  | cons m members ih => rw [ForallMembers, ih, forall_mem_cons]

section Traverse

variable {ε : Type} {f : N → Except ε M} {p : N → Prop} {g : N → M}

lemma traverseItems_cons (d : Doc N) (items : List (Doc N)) : traverseItems f (d :: items) =
    traverse f d >>= fun d' => (traverseItems f items).map (d' :: ·) := by
  rw [traverseItems]
  cases traverse f d <;> rfl

lemma traverseMembers_cons (k : String) (d : Doc N) (members : List (String × Doc N)) :
    traverseMembers f ((k, d) :: members) =
      traverse f d >>= fun d' => (traverseMembers f members).map ((k, d') :: ·) := by
  rw [traverseMembers]
  cases traverse f d <;> rfl

mutual

/-- A pass succeeds when the function does at every number, and then it is the map. -/
theorem traverse_eq_ok_iff (hf : ∀ n m, f n = .ok m ↔ p n ∧ g n = m) :
    ∀ d d', traverse f d = .ok d' ↔ Forall p d ∧ map g d = d'
  | .null, _ => by simp [traverse, Forall, map]
  | .bool _, _ => by simp [traverse, Forall, map]
  | .num n, _ => by simp [traverse, Forall, map, map_eq_ok, hf, and_assoc]
  | .str _, _ => by simp [traverse, Forall, map]
  | .arr items, _ => by
    simp [traverse, Forall, map, map_eq_ok, traverseItems_eq_ok_iff hf items, and_assoc]
  | .obj members, _ => by
    simp [traverse, Forall, map, map_eq_ok, traverseMembers_eq_ok_iff hf members, and_assoc]

theorem traverseItems_eq_ok_iff (hf : ∀ n m, f n = .ok m ↔ p n ∧ g n = m) :
    ∀ items items', traverseItems f items = .ok items' ↔
      ForallItems p items ∧ mapItems g items = items'
  | [], _ => by simp [traverseItems, ForallItems, mapItems]
  | d :: items, _ => by
    simp [traverseItems_cons, bind_eq_ok, map_eq_ok, ForallItems, mapItems,
      traverse_eq_ok_iff hf d, traverseItems_eq_ok_iff hf items, and_assoc]

theorem traverseMembers_eq_ok_iff (hf : ∀ n m, f n = .ok m ↔ p n ∧ g n = m) :
    ∀ members members', traverseMembers f members = .ok members' ↔
      ForallMembers p members ∧ mapMembers g members = members'
  | [], _ => by simp [traverseMembers, ForallMembers, mapMembers]
  | (k, d) :: members, _ => by
    simp [traverseMembers_cons, bind_eq_ok, map_eq_ok, ForallMembers, mapMembers,
      traverse_eq_ok_iff hf d, traverseMembers_eq_ok_iff hf members, and_assoc]

end

end Traverse

section Maps

variable {f : N → M} {g : N → K}

mutual

/-- Two maps identify the same documents when they identify the same numbers. -/
theorem map_eq_map_iff (h : ∀ a b, f a = f b ↔ g a = g b) :
    ∀ d d' : Doc N, map f d = map f d' ↔ map g d = map g d'
  | .null, d' => by cases d' <;> simp [map]
  | .bool _, d' => by cases d' <;> simp [map]
  | .num a, d' => by cases d' <;> simp [map, h]
  | .str _, d' => by cases d' <;> simp [map]
  | .arr items, d' => by cases d' <;> simp [map, mapItems_eq_mapItems_iff h items]
  | .obj members, d' => by cases d' <;> simp [map, mapMembers_eq_mapMembers_iff h members]

theorem mapItems_eq_mapItems_iff (h : ∀ a b, f a = f b ↔ g a = g b) :
    ∀ items items' : List (Doc N),
      mapItems f items = mapItems f items' ↔ mapItems g items = mapItems g items'
  | [], items' => by cases items' <;> simp [mapItems]
  | _ :: _, [] => by simp [mapItems]
  | d :: items, d' :: items' => by
    simp [mapItems, map_eq_map_iff h d d', mapItems_eq_mapItems_iff h items items']

theorem mapMembers_eq_mapMembers_iff (h : ∀ a b, f a = f b ↔ g a = g b) :
    ∀ members members' : List (String × Doc N),
      mapMembers f members = mapMembers f members' ↔ mapMembers g members = mapMembers g members'
  | [], members' => by cases members' <;> simp [mapMembers]
  | _ :: _, [] => by simp [mapMembers]
  | (k, d) :: members, (k', d') :: members' => by
    simp [mapMembers, map_eq_map_iff h d d', mapMembers_eq_mapMembers_iff h members members']

end

end Maps

lemma map_map (f : N → M) (g : M → K) (d : Doc N) : map g (map f d) = map (g ∘ f) d := by
  induction d using induct with
  | null => rfl
  | bool b => rfl
  | num n => rfl
  | str s => rfl
  | arr items ih =>
    simp only [map, mapItems_eq, List.map_map]
    exact congrArg _ (map_congr_left ih)
  | obj members ih =>
    simp only [map, mapMembers_eq, List.map_map]
    refine congrArg _ (map_congr_left fun m hm => ?_)
    simp [ih m hm]

/-- A map that changes no number of a document changes nothing. -/
lemma map_eq_self {f : N → N} {d : Doc N} (h : Forall (fun n => f n = n) d) : map f d = d := by
  induction d using induct with
  | null => rfl
  | bool b => rfl
  | num n => exact congrArg num h
  | str s => rfl
  | arr items ih =>
    rw [Forall, forallItems_iff] at h
    rw [map, mapItems_eq]
    exact congrArg arr ((map_congr_left fun d hd => ih d hd (h d hd)).trans (map_id _))
  | obj members ih =>
    rw [Forall, forallMembers_iff] at h
    rw [map, mapMembers_eq]
    refine congrArg obj ((map_congr_left fun m hm => ?_).trans (map_id _))
    rw [ih m hm (h m hm)]
    rfl

/-! ## Shape and size -/

mutual

/-- The number of values in a document, itself included. -/
def nodes : Doc N → ℕ
  | .arr items => 1 + nodesItems items
  | .obj members => 1 + nodesMembers members
  | _ => 1

/-- The number of values in the items of an array. -/
def nodesItems : List (Doc N) → ℕ
  | [] => 0
  | d :: items => nodes d + nodesItems items

/-- The number of values in the members of an object. -/
def nodesMembers : List (String × Doc N) → ℕ
  | [] => 0
  | (_, d) :: members => nodes d + nodesMembers members

end

mutual

/-- At most `depth` levels lie below the root. -/
def Fits : Doc N → ℤ → Prop
  | .arr items, depth => 0 ≤ depth ∧ FitsItems items (depth - 1)
  | .obj members, depth => 0 ≤ depth ∧ FitsMembers members (depth - 1)
  | _, depth => 0 ≤ depth

/-- Every item has at most `depth` levels below it. -/
def FitsItems : List (Doc N) → ℤ → Prop
  | [], _ => True
  | d :: items, depth => Fits d depth ∧ FitsItems items depth

/-- Every member has at most `depth` levels below it. -/
def FitsMembers : List (String × Doc N) → ℤ → Prop
  | [], _ => True
  | (_, d) :: members, depth => Fits d depth ∧ FitsMembers members depth

end

mutual

/-- Nesting is decidable. -/
def decFits : ∀ (d : Doc N) (depth : ℤ), Decidable (Fits d depth)
  | .null, depth => inferInstanceAs (Decidable (0 ≤ depth))
  | .bool _, depth => inferInstanceAs (Decidable (0 ≤ depth))
  | .num _, depth => inferInstanceAs (Decidable (0 ≤ depth))
  | .str _, depth => inferInstanceAs (Decidable (0 ≤ depth))
  | .arr items, depth => @instDecidableAnd _ _ _ (decFitsItems items (depth - 1))
  | .obj members, depth => @instDecidableAnd _ _ _ (decFitsMembers members (depth - 1))

/-- Nesting of the items is decidable. -/
def decFitsItems : ∀ (items : List (Doc N)) (depth : ℤ), Decidable (FitsItems items depth)
  | [], _ => .isTrue trivial
  | d :: items, depth => @instDecidableAnd _ _ (decFits d depth) (decFitsItems items depth)

/-- Nesting of the members is decidable. -/
def decFitsMembers : ∀ (members : List (String × Doc N)) (depth : ℤ),
    Decidable (FitsMembers members depth)
  | [], _ => .isTrue trivial
  | (_, d) :: members, depth =>
    @instDecidableAnd _ _ (decFits d depth) (decFitsMembers members depth)

end

instance (d : Doc N) (depth : ℤ) : Decidable (Fits d depth) := decFits d depth

mutual

/-- The length of the compact encoding, given the lengths of quoted strings and of numbers. -/
def size (quoted : String → ℕ) (number : N → ℕ) : Doc N → ℕ
  | .null => 4
  | .bool b => if b then 4 else 5
  | .num n => number n
  | .str s => quoted s
  | .arr items => 2 + (items.length - 1) + sizeItems quoted number items
  | .obj members => 2 + (members.length - 1) + sizeMembers quoted number members

/-- The length of the items without the separators. -/
def sizeItems (quoted : String → ℕ) (number : N → ℕ) : List (Doc N) → ℕ
  | [] => 0
  | d :: items => size quoted number d + sizeItems quoted number items

/-- The length of the members, each with its name and colon, without the separators. -/
def sizeMembers (quoted : String → ℕ) (number : N → ℕ) : List (String × Doc N) → ℕ
  | [] => 0
  | (k, d) :: members => quoted k + 1 + size quoted number d + sizeMembers quoted number members

end

mutual

theorem fits_map (f : N → M) : ∀ (d : Doc N) (depth : ℤ), Fits (map f d) depth ↔ Fits d depth
  | .null, _ => Iff.rfl
  | .bool _, _ => Iff.rfl
  | .num _, _ => Iff.rfl
  | .str _, _ => Iff.rfl
  | .arr items, depth => by rw [map, Fits, Fits, fitsItems_mapItems f items]
  | .obj members, depth => by rw [map, Fits, Fits, fitsMembers_mapMembers f members]

theorem fitsItems_mapItems (f : N → M) : ∀ (items : List (Doc N)) (depth : ℤ),
    FitsItems (mapItems f items) depth ↔ FitsItems items depth
  | [], _ => Iff.rfl
  | d :: items, depth => by
    rw [mapItems, FitsItems, FitsItems, fits_map f d, fitsItems_mapItems f items]

theorem fitsMembers_mapMembers (f : N → M) : ∀ (members : List (String × Doc N)) (depth : ℤ),
    FitsMembers (mapMembers f members) depth ↔ FitsMembers members depth
  | [], _ => Iff.rfl
  | (_, d) :: members, depth => by
    rw [mapMembers, FitsMembers, FitsMembers, fits_map f d, fitsMembers_mapMembers f members]

end

/-! ## Paths -/

/-- A step into a document. -/
inductive Step
  | item (index : ℕ)
  | member (name : String)

def look : List Step → Doc N → Option (Doc N)
  | [], d => some d
  | .item index :: path, .arr items => items[index]?.bind (look path)
  | .member name :: path, .obj members => (members.lookup name).bind (look path)
  | _ :: _, _ => none

/-- The same scalar, arrays of one length, or two objects. -/
def SameTop : Doc N → Doc N → Prop
  | .arr items, .arr items' => items.length = items'.length
  | .obj _, .obj _ => True
  | d, d' => d = d'

/-- The second document is the first without some members of objects: whatever it has at a path,
the first has there too. -/
def Removal (before after : Doc N) : Prop :=
  ∀ path v, look path after = some v → ∃ w, look path before = some w ∧ SameTop w v

end Doc

end Gogo.Lib

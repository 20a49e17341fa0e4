import Gogo.Models.Validity

/-!
# `reflect.DeepEqual` on descriptors

* `IsPartialEquiv` — symmetric and transitive. This is all that `reflect.DeepEqual` is on
  descriptors: a float default that is `NaN` and a function are unequal to themselves.
* `Field.deepEqual` — `reflect.DeepEqual` on two field descriptors.
* `Field.deepEqual_clone` — snapshots of equal descriptors are equal. A snapshot need not be
  equal to its original, since `Clone` turns an allocated empty slice into nil.
-/

namespace Gogo.Models

/-! ## Partial equivalences -/

section PartialEquiv

variable {α β : Type}

/-- A symmetric and transitive comparison. -/
structure IsPartialEquiv (eq : α → α → Bool) : Prop where
  symm : ∀ a b, eq a b = true → eq b a = true
  trans : ∀ a b c, eq a b = true → eq b c = true → eq a c = true

variable {eq : α → α → Bool}

lemma IsPartialEquiv.comap (h : IsPartialEquiv eq) (f : β → α) :
    IsPartialEquiv fun a b => eq (f a) (f b) where
  symm a b := h.symm (f a) (f b)
  trans a b c := h.trans (f a) (f b) (f c)

lemma IsPartialEquiv.and {eq' : α → α → Bool} (h : IsPartialEquiv eq) (h' : IsPartialEquiv eq') :
    IsPartialEquiv fun a b => eq a b && eq' a b where
  symm a b hab := by
    rw [Bool.and_eq_true] at hab ⊢
    exact ⟨h.symm a b hab.1, h'.symm a b hab.2⟩
  trans a b c hab hbc := by
    rw [Bool.and_eq_true] at hab hbc ⊢
    exact ⟨h.trans a b c hab.1 hbc.1, h'.trans a b c hab.2 hbc.2⟩

lemma isPartialEquiv_beq [BEq α] [LawfulBEq α] : IsPartialEquiv fun a b : α => a == b where
  symm a b hab := by
    rw [beq_iff_eq] at hab ⊢
    exact hab.symm
  trans a b c hab hbc := by
    rw [beq_iff_eq] at hab hbc ⊢
    exact hab.trans hbc

/-- A value that is equal to something is equal to `b` exactly when that something is. -/
lemma IsPartialEquiv.congr_left (h : IsPartialEquiv eq) {a a' b : α} (haa : eq a a' = true) :
    eq a b = true ↔ eq a' b = true :=
  ⟨fun hab => h.trans a' a b (h.symm a a' haa) hab, fun hab => h.trans a a' b haa hab⟩

/-- Elementwise comparison of two lists of the same length. -/
def listDeepEqual (eq : α → α → Bool) : List α → List α → Bool
  | [], [] => true
  | a :: l, b :: l' => eq a b && listDeepEqual eq l l'
  | _, _ => false

lemma IsPartialEquiv.list (h : IsPartialEquiv eq) : IsPartialEquiv (listDeepEqual eq) where
  symm l := by
    induction l with
    | nil => intro l' hl; cases l' <;> simp_all [listDeepEqual]
    | cons a l ih =>
      intro l' hl
      cases l' with
      | nil => simp [listDeepEqual] at hl
      | cons b l' =>
        simp only [listDeepEqual, Bool.and_eq_true] at hl ⊢
        exact ⟨h.symm a b hl.1, ih l' hl.2⟩
  trans l := by
    induction l with
    | nil => intro l' l'' hl hl'; cases l' <;> cases l'' <;> simp_all [listDeepEqual]
    | cons a l ih =>
      intro l' l'' hl hl'
      cases l' with
      | nil => simp [listDeepEqual] at hl
      | cons b l' =>
        cases l'' with
        | nil => simp [listDeepEqual] at hl'
        | cons c l'' =>
          simp only [listDeepEqual, Bool.and_eq_true] at hl hl' ⊢
          exact ⟨h.trans a b c hl.1 hl'.1, ih l' l'' hl.2 hl'.2⟩

lemma listDeepEqual_map {f : α → α} (hf : ∀ a b, eq a b = true → eq (f a) (f b) = true)
    (l l' : List α) (h : listDeepEqual eq l l' = true) :
    listDeepEqual eq (l.map f) (l'.map f) = true := by
  induction l generalizing l' with
  | nil => cases l' <;> simp_all [listDeepEqual]
  | cons a l ih =>
    cases l' with
    | nil => simp [listDeepEqual] at h
    | cons b l' =>
      simp only [listDeepEqual, List.map_cons, Bool.and_eq_true] at h ⊢
      exact ⟨hf a b h.1, ih l' h.2⟩

/-- Comparison of two slices: both nil, or both allocated with equal elements. -/
def Slice.deepEqual (eq : α → α → Bool) : Slice α → Slice α → Bool
  | .nil, .nil => true
  | .of l, .of l' => listDeepEqual eq l l'
  | _, _ => false

lemma IsPartialEquiv.slice (h : IsPartialEquiv eq) : IsPartialEquiv (Slice.deepEqual eq) where
  symm s t hst := by
    cases s <;> cases t <;> simp only [Slice.deepEqual, Bool.false_eq_true] at hst ⊢
    exact h.list.symm _ _ hst
  trans s t u hst htu := by
    cases s <;> cases t <;> cases u <;>
      simp only [Slice.deepEqual, Bool.false_eq_true] at hst htu ⊢
    exact h.list.trans _ _ _ hst htu

lemma Slice.deepEqual_clone {s t : Slice α} (h : Slice.deepEqual eq s t = true) :
    Slice.deepEqual eq s.clone t.clone = true := by
  cases s with
  | nil => cases t <;> simp_all [Slice.deepEqual, Slice.clone, Slice.toList]
  | of l =>
    cases t with
    | nil => simp [Slice.deepEqual] at h
    | of l' =>
      cases l <;> cases l' <;>
        simp_all [Slice.deepEqual, Slice.clone, Slice.toList, listDeepEqual]

end PartialEquiv

/-! ## Descriptors -/

lemma Value.isPartialEquiv_deepEqual : IsPartialEquiv Value.deepEqual :=
  ⟨Value.deepEqual_symm, Value.deepEqual_trans⟩

/-- Source: `reflect.DeepEqual` on two choices. -/
def Choice.deepEqual (a b : Choice) : Bool := a.value.deepEqual b.value && a.label == b.label

/-- Source: `reflect.DeepEqual` on two functions, which are equal only when both are nil. -/
def funcDeepEqual (a b : Option Callback) : Bool := a.isNone && b.isNone

/-- Source: `reflect.DeepEqual` on two field descriptors, their `Element` aside. -/
def FieldAttrs.deepEqual (a b : FieldAttrs) : Bool :=
  a.toFieldOptions == b.toFieldOptions &&
  a.min.deepEqual b.min &&
  a.max.deepEqual b.max &&
  Slice.deepEqual Choice.deepEqual a.choices b.choices &&
  a.default.deepEqual b.default &&
  funcDeepEqual a.defaultFunc b.defaultFunc &&
  Slice.deepEqual funcDeepEqual a.validators b.validators &&
  a.codec.deepEqual b.codec

/-- Source: `reflect.DeepEqual` on two field descriptors. -/
def Field.deepEqual (a b : Field) : Bool :=
  a.toFieldAttrs.deepEqual b.toFieldAttrs &&
    listDeepEqual FieldAttrs.deepEqual a.elements b.elements

lemma Choice.isPartialEquiv_deepEqual : IsPartialEquiv Choice.deepEqual :=
  (Value.isPartialEquiv_deepEqual.comap Choice.value).and (isPartialEquiv_beq.comap Choice.label)

lemma isPartialEquiv_funcDeepEqual : IsPartialEquiv funcDeepEqual where
  symm a b h := by simp_all [funcDeepEqual]
  trans a b c h h' := by simp_all [funcDeepEqual]

lemma FieldAttrs.isPartialEquiv_deepEqual : IsPartialEquiv FieldAttrs.deepEqual :=
  (isPartialEquiv_beq.comap FieldAttrs.toFieldOptions)
    |>.and (Value.isPartialEquiv_deepEqual.comap FieldAttrs.min)
    |>.and (Value.isPartialEquiv_deepEqual.comap FieldAttrs.max)
    |>.and (Choice.isPartialEquiv_deepEqual.slice.comap FieldAttrs.choices)
    |>.and (Value.isPartialEquiv_deepEqual.comap FieldAttrs.default)
    |>.and (isPartialEquiv_funcDeepEqual.comap FieldAttrs.defaultFunc)
    |>.and (isPartialEquiv_funcDeepEqual.slice.comap FieldAttrs.validators)
    |>.and (Value.isPartialEquiv_deepEqual.comap FieldAttrs.codec)

lemma Field.isPartialEquiv_deepEqual : IsPartialEquiv Field.deepEqual :=
  (FieldAttrs.isPartialEquiv_deepEqual.comap Field.toFieldAttrs).and
    (FieldAttrs.isPartialEquiv_deepEqual.list.comap Field.elements)

/-! ## Snapshots -/

@[simp] lemma Relation.clone_clone (r : Relation) : r.clone.clone = r.clone := by
  simp [Relation.clone]

@[simp] lemma FieldAttrs.clone_clone (f : FieldAttrs) : f.clone.clone = f.clone := by
  cases h : f.relation <;> simp [FieldAttrs.clone, h]

@[simp] lemma Field.clone_clone (f : Field) : f.clone.clone = f.clone := by
  simp [Field.clone, Function.comp_def]

@[simp] lemma Schema.clone_clone (s : Schema) : s.clone.clone = s.clone := by
  simp [Schema.clone, Function.comp_def]

lemma FieldAttrs.deepEqual_clone (a b : FieldAttrs) (h : a.deepEqual b = true) :
    a.clone.deepEqual b.clone = true := by
  simp only [FieldAttrs.deepEqual, Bool.and_eq_true, beq_iff_eq] at h ⊢
  obtain ⟨⟨⟨⟨⟨⟨⟨hopts, hmin⟩, hmax⟩, hchoices⟩, hdefault⟩, hfunc⟩, hvalidators⟩, hcodec⟩ := h
  refine ⟨⟨⟨⟨⟨⟨⟨?_, hmin⟩, hmax⟩, Slice.deepEqual_clone hchoices⟩, hdefault⟩, hfunc⟩,
    Slice.deepEqual_clone hvalidators⟩, hcodec⟩
  show { a.toFieldOptions with relation := a.relation.map Relation.clone } =
    { b.toFieldOptions with relation := b.relation.map Relation.clone }
  rw [hopts]

/-- **Snapshots of equal descriptors are equal.** -/
theorem Field.deepEqual_clone (a b : Field) (h : a.deepEqual b = true) :
    a.clone.deepEqual b.clone = true := by
  simp only [Field.deepEqual, Bool.and_eq_true] at h ⊢
  exact ⟨FieldAttrs.deepEqual_clone _ _ h.1,
    listDeepEqual_map FieldAttrs.deepEqual_clone _ _ h.2⟩

lemma Field.toFieldOptions_eq_of_deepEqual {a b : Field} (h : a.deepEqual b = true) :
    a.toFieldOptions = b.toFieldOptions := by
  simp only [Field.deepEqual, FieldAttrs.deepEqual, Bool.and_eq_true, beq_iff_eq] at h
  exact h.1.1.1.1.1.1.1.1

end Gogo.Models

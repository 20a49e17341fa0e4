import Gogo.Lib.FinMap

/-!
# Differences of named lists

A list of descriptors in which a name identifies a descriptor, and the difference of two such
lists as removals, additions and one reordering.

* `index` — a list read by name.
* `kept`, `removed`, `added` — the difference of `before` and `after`: a descriptor that `after`
  has under the same name and with the same content is kept, one whose content changed is
  removed and added again.
* `add?`, `remove?`, `pick` — the three changes, each refusing a list it does not fit.
* `perm_kept_append_added` — **what is kept and what is added make up `after`, up to order**, so
  that one reordering (`pick_index`) ends the replay of a difference.
-/

namespace Gogo.Lib.Named

open List

variable {α : Type} [DecidableEq α] (name : α → String)

/-! ## Reading by name -/

/-- The descriptor of a name; the last one wins. -/
def index (l : List α) : FinMap String α := FinMap.ofList (l.map fun v => (name v, v))

variable {name}

variable {l : List α} {v : α}

omit [DecidableEq α] in
lemma get?_index (hl : (l.map name).Nodup) {n : String} :
    (index name l).get? n = some v ↔ v ∈ l ∧ name v = n := by
  have hkeys : ((l.map fun v => (name v, v)).map Prod.fst).Nodup := by
    simpa [Function.comp_def] using hl
  rw [index, FinMap.get?_ofList hkeys]
  simp only [mem_map, Prod.mk.injEq]
  constructor
  · rintro ⟨w, hw, rfl, rfl⟩
    exact ⟨hw, rfl⟩
  · rintro ⟨hv, rfl⟩
    exact ⟨v, hv, rfl, rfl⟩

omit [DecidableEq α] in
/-- One round of a loop over a list with distinct names. -/
lemma nodup_step {done rest : List α} (h : ((done ++ v :: rest).map name).Nodup) :
    ((done ++ [v] ++ rest).map name).Nodup ∧ name v ∉ done.map name := by
  have hassoc : done ++ v :: rest = done ++ [v] ++ rest := by simp
  rw [hassoc] at h
  refine ⟨h, fun hmem => ?_⟩
  rw [map_append, map_append] at h
  exact (nodup_append.mp h.of_append_left).2.2 _ hmem (name v) (by simp) rfl

/-! ## Differences -/

variable (name)

/-- What `after` has under the same name with the same content. -/
def kept (before after : List α) : List α :=
  before.filter fun v => (index name after).get? (name v) = some v

/-- What `after` does not have, or has with another content. -/
def removed (before after : List α) : List α :=
  before.filter fun v => (index name after).get? (name v) ≠ some v

/-- What `before` does not have, or has with another content. -/
def added (before after : List α) : List α :=
  after.filter fun v => (index name before).get? (name v) ≠ some v

variable {name} {before after : List α}

lemma mem_kept (ha : (after.map name).Nodup) :
    v ∈ kept name before after ↔ v ∈ before ∧ v ∈ after := by
  simp [kept, get?_index ha]

lemma mem_added (hb : (before.map name).Nodup) :
    v ∈ added name before after ↔ v ∈ after ∧ v ∉ before := by
  simp [added, get?_index hb]

/-- **What is kept and what is added make up `after`, up to order.** -/
theorem perm_kept_append_added (hb : (before.map name).Nodup) (ha : (after.map name).Nodup) :
    (kept name before after ++ added name before after).Perm after := by
  have hnb : before.Nodup := hb.of_map name
  have hna : after.Nodup := ha.of_map name
  have hnodup : (kept name before after ++ added name before after).Nodup := by
    refine Nodup.append (hnb.filter _) (hna.filter _) ?_
    intro v hk hv
    exact ((mem_added hb).mp hv).2 ((mem_kept ha).mp hk).1
  refine (perm_ext_iff_of_nodup hnodup hna).mpr fun v => ?_
  rw [mem_append, mem_kept ha, mem_added hb]
  by_cases hv : v ∈ before <;> simp [hv]

/-! ## Changes -/

/-- Add a descriptor under a name that is free. -/
def add? (name : α → String) (v : α) (l : List α) : Option (List α) :=
  if l.any (fun w => name w = name v) then none else some (l ++ [v])

/-- Remove a descriptor that is there with exactly this content. -/
def remove? (name : α → String) (v : α) (l : List α) : Option (List α) :=
  match l.find? fun w => name w = name v with
  | some w => if w = v then some (l.eraseP fun w => name w = name v) else none
  | none => none

/-- The descriptors of a list of names, each taken out once. -/
def pick : List String → FinMap String α → Option (List α)
  | [], _ => some []
  | n :: rest, m =>
    match m.get? n with
    | none => none
    | some v => (pick rest (m.erase n)).map (v :: ·)

omit [DecidableEq α] in
lemma add?_of_not_mem (h : name v ∉ l.map name) : add? name v l = some (l ++ [v]) := by
  have hany : l.any (fun w => name w = name v) = false := by
    simp only [any_eq_false, decide_eq_true_eq]
    intro w hw heq
    exact h (heq ▸ mem_map_of_mem hw)
  simp [add?, hany]

omit [DecidableEq α] in
lemma find?_name (hl : (l.map name).Nodup) (h : v ∈ l) :
    l.find? (fun w => name w = name v) = some v := by
  have hsome : (l.find? fun w => name w = name v).isSome = true := by
    rw [find?_isSome]
    exact ⟨v, h, by simp⟩
  obtain ⟨w, hw⟩ := Option.isSome_iff_exists.mp hsome
  have hname : name w = name v := by simpa using find?_some hw
  rw [hw, inj_on_of_nodup_map hl (mem_of_find?_eq_some hw) h hname]

lemma eraseP_name (hl : (l.map name).Nodup) (h : v ∈ l) :
    l.eraseP (fun w => name w = name v) = l.filter fun w => w ≠ v := by
  induction l with
  | nil => simp at h
  | cons w rest ih =>
    rw [map_cons, nodup_cons] at hl
    by_cases hw : w = v
    · subst hw
      have hrest : rest.filter (fun u => u ≠ w) = rest := by
        refine filter_eq_self.mpr fun u hu => ?_
        have hne : u ≠ w := fun heq => hl.1 (heq ▸ mem_map_of_mem hu)
        simpa using hne
      rw [eraseP_cons_of_pos (by simp), filter_cons_of_neg (by simp), hrest]
    · have hv : v ∈ rest := (mem_cons.mp h).resolve_left (Ne.symm hw)
      have hname : name w ≠ name v := fun heq => hl.1 (heq ▸ mem_map_of_mem hv)
      rw [eraseP_cons_of_neg (by simpa using hname),
        filter_cons_of_pos (by simpa using hw), ih hl.2 hv]

lemma remove?_of_mem (hl : (l.map name).Nodup) (h : v ∈ l) :
    remove? name v l = some (l.filter fun w => w ≠ v) := by
  simp only [remove?, find?_name hl h, if_true, eraseP_name hl h]

omit [DecidableEq α] in
/-- Picking the names of `l` from a map that holds `l` gives `l`. -/
lemma pick_eq_some (hl : (l.map name).Nodup) {m : FinMap String α}
    (hm : ∀ v ∈ l, m.get? (name v) = some v) : pick (l.map name) m = some l := by
  induction l generalizing m with
  | nil => rfl
  | cons v rest ih =>
    rw [map_cons, nodup_cons] at hl
    have hrest : ∀ w ∈ rest, (m.erase (name v)).get? (name w) = some w := by
      intro w hw
      have hne : name v ≠ name w := fun h => hl.1 (h ▸ mem_map_of_mem hw)
      rw [FinMap.get?_erase, if_neg hne]
      exact hm w (mem_cons_of_mem _ hw)
    rw [map_cons, pick, hm v mem_cons_self]
    simp [ih hl.2 hrest]

omit [DecidableEq α] in
/-- A reordering of a list with distinct names is picked from the list. -/
lemma pick_index {l' : List α} (hl : (l.map name).Nodup) (hperm : l.Perm l') :
    pick (l'.map name) (index name l) = some l' := by
  have hl' : (l'.map name).Nodup := (hperm.map name).nodup_iff.mp hl
  exact pick_eq_some hl' fun v hv => (get?_index hl).mpr ⟨hperm.mem_iff.mpr hv, rfl⟩

end Gogo.Lib.Named

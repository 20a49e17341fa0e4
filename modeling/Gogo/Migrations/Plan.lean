import Gogo.Lib.DepthFirst
import Gogo.Migrations.Encoding
import Gogo.Migrations.State

/-!
# The plan of a set of migrations

`core/migrations/migrations.go`, `Executor.Plan`: the migrations are indexed by key, and a
depth-first traversal of the declared dependencies lists them in the order in which they run.

* `plan` — the plan of one target, or of all migrations when the target is the empty text.
* `plan_spec` — **a plan lists known migrations, none of them twice, every one behind the
  migrations it depends on; it has the target, and without one it has every migration.**
-/

namespace Gogo.Migrations

open List Gogo.Lib Gogo.Models

/-! ## Definitions -/

/-- The migrations by key. Source: `Plan`, the variable `byID`. -/
abbrev MigrationIndex := FinMap String Migration

/-- Fail with an error if there is one. -/
def failWith : Option Err → Except Err Unit
  | some err => .error err
  | none => .ok ()

@[simp] lemma failWith_eq_ok {err : Option Err} {u : Unit} :
    failWith err = .ok u ↔ err = none := by
  rcases err with _ | err
  · exact iff_of_true rfl rfl
  · exact iff_of_false nofun nofun

/-- One migration is indexed. Source: `Plan`, the first loop. -/
def indexMigration (byID : MigrationIndex) (m : Migration) : Except Err MigrationIndex := do
  failIf (!validIdentifier m.app || !migrationName m.name)
    (.text "migrations: invalid migration identifier")
  failIf (byID.get? m.key).isSome (.text "migrations: duplicate migration")
  failWith m.checksumError
  .ok (byID.set m.key m)

/-- The declared dependencies of a known key. -/
def MigrationIndex.next (byID : MigrationIndex) (key : String) : Option (List String) :=
  (byID.get? key).map Migration.dependencies

/-- The text of a failed traversal. -/
def planError : TraversalError String → Err
  | .cycle key => .text ("migrations: dependency cycle at " ++ key)
  | .missing key => .text ("migrations: missing dependency " ++ key)

/-- The keys that are visited, in this order. -/
def planRoots (byID : MigrationIndex) (target : String) : List String :=
  if target ≠ "" then [target] else sortStrings byID.keys

/-- The plan of a target. The maps `visiting` and `visited` of the source are the path of the
traversal and the membership in the order; a path of known keys without repetition is at most as
long as the index, so one level more is enough. Source: `Executor.Plan`. -/
def plan (migrations : List Migration) (target : String) : Except Err (List Migration) := do
  let byID ← run indexMigration FinMap.empty migrations
  let order ← (visitAll byID.next (byID.keys.length + 1) (planRoots byID target)).mapError planError
  .ok (order.filterMap byID.get?)

/-- Source: `Executor.State`. -/
def stateAt (migrations : List Migration) (target : String) : Except Err (List Schema) := do
  let order ← plan migrations target
  schemaState order

/-! ## The index -/

/-- What the index holds: exactly the given migrations, under distinct keys. -/
structure Indexes (migrations : List Migration) (byID : MigrationIndex) : Prop where
  get?_iff : ∀ key m, byID.get? key = some m ↔ m ∈ migrations ∧ m.key = key
  nodup : (migrations.map Migration.key).Nodup
  valid : ∀ m ∈ migrations,
    validIdentifier m.app = true ∧ migrationName m.name = true ∧ m.checksumError = none

variable {byID byID' : MigrationIndex} {m : Migration} {migrations done : List Migration}

lemma indexMigration_eq_ok :
    indexMigration byID m = .ok byID' ↔
      (validIdentifier m.app = true ∧ migrationName m.name = true ∧ m.checksumError = none) ∧
        byID.get? m.key = none ∧ byID.set m.key m = byID' := by
  simp only [indexMigration, bind_eq_ok, failIf_eq_ok, failWith_eq_ok, Except.ok.injEq,
    Bool.or_eq_false_iff, Bool.not_eq_false', Option.isSome_eq_false_iff, Option.isNone_iff_eq_none]
  constructor
  · rintro ⟨-, ⟨happ, hname⟩, -, hnew, -, hsum, h⟩
    exact ⟨⟨happ, hname, hsum⟩, hnew, h⟩
  · rintro ⟨⟨happ, hname, hsum⟩, hnew, h⟩
    exact ⟨(), ⟨happ, hname⟩, (), hnew, (), hsum, h⟩

lemma Indexes.snoc (h : Indexes migrations byID) (hm : indexMigration byID m = .ok byID') :
    Indexes (migrations ++ [m]) byID' := by
  obtain ⟨hvalid, hnew, rfl⟩ := indexMigration_eq_ok.mp hm
  have hfresh : ∀ m' ∈ migrations, m'.key ≠ m.key := by
    intro m' hm' heq
    rw [(h.get?_iff m.key m').mpr ⟨hm', heq⟩] at hnew
    cases hnew
  refine ⟨fun key m' => ?_, ?_, ?_⟩
  · rw [FinMap.get?_set, mem_append, mem_singleton]
    split_ifs with hkey
    · subst hkey
      constructor
      · rintro hsome
        cases hsome
        exact ⟨.inr rfl, rfl⟩
      · rintro ⟨hmem | rfl, heq⟩
        · exact absurd heq (hfresh m' hmem)
        · rfl
    · rw [h.get?_iff]
      constructor
      · rintro ⟨hmem, heq⟩
        exact ⟨.inl hmem, heq⟩
      · rintro ⟨hmem | rfl, heq⟩
        · exact ⟨hmem, heq⟩
        · exact absurd heq hkey
  · rw [map_append]
    refine Nodup.append h.nodup (nodup_singleton _) ?_
    intro key hkey hkey'
    obtain ⟨m', hm', rfl⟩ := mem_map.mp hkey
    exact hfresh m' hm' (mem_singleton.mp hkey')
  · intro m' hm'
    rcases mem_append.mp hm' with hm' | hm'
    · exact h.valid m' hm'
    · exact mem_singleton.mp hm' ▸ hvalid

lemma indexes_of_run (hdone : Indexes done byID)
    (h : run indexMigration byID migrations = .ok byID') : Indexes (done ++ migrations) byID' := by
  induction migrations generalizing done byID with
  | nil =>
    cases h
    rwa [append_nil]
  | cons m rest ih =>
    obtain ⟨mid, hmid, hrest⟩ := run_cons_eq_ok.mp h
    have hassoc : done ++ m :: rest = (done ++ [m]) ++ rest := by simp
    rw [hassoc]
    exact ih (hdone.snoc hmid) hrest

lemma indexes_nil : Indexes [] FinMap.empty := by
  refine ⟨fun key m => ?_, nodup_nil, fun m hm => by cases hm⟩
  exact iff_of_false nofun (fun h => by cases h.1)

/-- Migrations with valid names, an encoding and distinct keys are indexed. -/
lemma run_indexMigration_exists (hdone : Indexes done byID)
    (hnodup : ((done ++ migrations).map Migration.key).Nodup)
    (hvalid : ∀ m ∈ migrations, validIdentifier m.app = true ∧ migrationName m.name = true ∧
      m.checksumError = none) : ∃ byID', run indexMigration byID migrations = .ok byID' := by
  induction migrations generalizing done byID with
  | nil => exact ⟨byID, rfl⟩
  | cons m rest ih =>
    have hassoc : done ++ m :: rest = (done ++ [m]) ++ rest := by simp
    rw [hassoc] at hnodup
    have hnew : byID.get? m.key = none := by
      rw [Option.eq_none_iff_forall_ne_some]
      intro m' hm'
      obtain ⟨hmem, hkey⟩ := (hdone.get?_iff m.key m').mp hm'
      rw [map_append, map_append] at hnodup
      have hdisjoint := (nodup_append.mp hnodup.of_append_left).2.2
      exact hdisjoint m'.key (mem_map_of_mem hmem) m.key (by simp) hkey
    have hm : indexMigration byID m = .ok (byID.set m.key m) :=
      indexMigration_eq_ok.mpr ⟨hvalid m mem_cons_self, hnew, rfl⟩
    obtain ⟨byID', h⟩ := ih (hdone.snoc hm) hnodup
      fun m' hm' => hvalid m' (mem_cons_of_mem _ hm')
    exact ⟨byID', run_cons_eq_ok.mpr ⟨_, hm, h⟩⟩

/-! ## The order -/

section Order

variable {migrations order : List Migration} {target : String}

/-- The migrations of a list of known keys, one for each key. -/
lemma map_key_filterMap {byID : MigrationIndex} (h : Indexes migrations byID) {keys : List String}
    (hkeys : ∀ key ∈ keys, (byID.next key).isSome = true) :
    (keys.filterMap byID.get?).map Migration.key = keys := by
  induction keys with
  | nil => rfl
  | cons key rest ih =>
    have hkey := hkeys key mem_cons_self
    unfold MigrationIndex.next at hkey
    rw [Option.isSome_map] at hkey
    obtain ⟨m, hm⟩ := Option.isSome_iff_exists.mp hkey
    rw [filterMap_cons_some hm, map_cons,
      ih fun key' hkey' => hkeys key' (mem_cons_of_mem _ hkey'),
      ((h.get?_iff key m).mp hm).2]

/-- What a plan is. -/
structure IsPlan (migrations : List Migration) (target : String) (order : List Migration) :
    Prop where
  known : ∀ m ∈ order, m ∈ migrations
  nodup : (order.map Migration.key).Nodup
  ordered : ∀ before m after, order = before ++ m :: after →
    ∀ d ∈ m.dependencies, d ∈ before.map Migration.key
  target_mem : target ≠ "" → target ∈ order.map Migration.key
  complete : target = "" → ∀ m ∈ migrations, m ∈ order

/-- **A plan lists known migrations behind their dependencies.** -/
theorem plan_spec (h : plan migrations target = .ok order) :
    (migrations.map Migration.key).Nodup ∧
      (∀ m ∈ migrations, validIdentifier m.app = true ∧ migrationName m.name = true) ∧
      IsPlan migrations target order := by
  obtain ⟨byID, hindex, h⟩ := bind_eq_ok.mp h
  obtain ⟨keys, hkeys, h⟩ := bind_eq_ok.mp h
  cases h
  have hindexes : Indexes migrations byID := indexes_of_run indexes_nil hindex
  obtain ⟨hnodup, hordered, hroots⟩ := visitAll_spec (mapError_eq_ok.mp hkeys)
  have hknown : ∀ key ∈ keys, (byID.next key).isSome = true := by
    intro key hkey
    obtain ⟨dependencies, hnext, -⟩ := hordered.closed hkey
    rw [hnext]
    rfl
  have hmap := map_key_filterMap hindexes hknown
  refine ⟨hindexes.nodup, fun m hm => ⟨(hindexes.valid m hm).1, (hindexes.valid m hm).2.1⟩,
    ?_, ?_, ?_, ?_, ?_⟩
  · intro m hm
    obtain ⟨key, -, hget⟩ := mem_filterMap.mp hm
    exact ((hindexes.get?_iff key m).mp hget).1
  · rw [hmap]
    exact hnodup
  · intro before m after heq d hd
    have hsplit : keys = before.map Migration.key ++ m.key :: after.map Migration.key := by
      rw [← hmap, heq, map_append, map_cons]
    obtain ⟨dependencies, hnext, hall⟩ := hordered _ _ _ hsplit
    have hmem : m ∈ keys.filterMap byID.get? := heq ▸ by simp
    obtain ⟨key, -, hget⟩ := mem_filterMap.mp hmem
    obtain ⟨-, rfl⟩ := (hindexes.get?_iff key m).mp hget
    unfold MigrationIndex.next at hnext
    rw [hget] at hnext
    exact hall d (Option.some.inj hnext ▸ hd)
  · intro hne
    rw [hmap]
    refine hroots target ?_
    unfold planRoots
    rw [if_pos hne]
    exact mem_singleton_self target
  · rintro rfl m hm
    have hget := (hindexes.get?_iff m.key m).mpr ⟨hm, rfl⟩
    refine mem_filterMap.mpr ⟨m.key, hroots m.key ?_, hget⟩
    exact mem_sortStrings.mpr (byID.mem_keys.mpr ⟨m, hget⟩)

/-- The whole plan lists the migrations in some order. -/
lemma IsPlan.perm (h : IsPlan migrations "" order) (hnodup : (migrations.map Migration.key).Nodup) :
    order.Perm migrations := by
  refine (perm_ext_iff_of_nodup (Nodup.of_map _ h.nodup)
    (Nodup.of_map _ hnodup)).mpr fun m => ?_
  exact ⟨h.known m, h.complete rfl m⟩

/-- **Migrations without dependencies are planned in the order of their keys.** -/
theorem plan_of_isolated (hnodup : (migrations.map Migration.key).Nodup)
    (hvalid : ∀ m ∈ migrations,
      validIdentifier m.app = true ∧ migrationName m.name = true ∧ m.checksumError = none)
    (hdeps : ∀ m ∈ migrations, m.dependencies = []) :
    ∃ order, plan migrations "" = .ok order ∧
      order.map Migration.key = sortStrings (migrations.map Migration.key) := by
  obtain ⟨byID, hindex⟩ := run_indexMigration_exists indexes_nil hnodup hvalid
  have hindexes : Indexes migrations byID := indexes_of_run indexes_nil hindex
  have hnext : ∀ key ∈ sortStrings byID.keys, byID.next key = some [] := by
    intro key hkey
    obtain ⟨m, hm⟩ := byID.mem_keys.mp (mem_sortStrings.mp hkey)
    unfold MigrationIndex.next
    rw [hm, Option.map_some, hdeps m ((hindexes.get?_iff key m).mp hm).1]
  have hvisit : visitAll byID.next (byID.keys.length + 1) (planRoots byID "") =
      .ok (sortStrings byID.keys) :=
    visitAll_of_isolated (nodup_sortStrings.mpr byID.nodup_keys) hnext
  have hperm : byID.keys.Perm (migrations.map Migration.key) := by
    refine (perm_ext_iff_of_nodup byID.nodup_keys hnodup).mpr fun key => ?_
    rw [byID.mem_keys, mem_map]
    constructor
    · rintro ⟨m, hm⟩
      exact ⟨m, (hindexes.get?_iff key m).mp hm⟩
    · rintro ⟨m, hm⟩
      exact ⟨m, (hindexes.get?_iff key m).mpr hm⟩
  refine ⟨(sortStrings byID.keys).filterMap byID.get?, bind_eq_ok.mpr ⟨byID, hindex, ?_⟩, ?_⟩
  · exact bind_eq_ok.mpr ⟨_, mapError_eq_ok.mpr hvisit, rfl⟩
  · rw [map_key_filterMap hindexes fun key hkey => by rw [hnext key hkey]; rfl]
    exact sortStrings_eq_of_perm hperm

end Order

end Gogo.Migrations

import Gogo.Lib.Reachable
import Gogo.Migrations.Plan

/-!
# A plan is the dependency closure of its target

`Executor.Plan` against the dependencies that the migrations declare, said without the index and
without the traversal.

* `Declares` — the edges; `InClosure` — the target with everything it needs, or every migration
  with everything they need when there is no target.
* `Orderable` — the closure has no key without a migration and no cycle.
* `plan_is_closure` — **a plan is returned exactly when every migration has a checksum and the
  closure is orderable; it lists the closure, each migration once, behind its dependencies, in an
  order that the order of the migrations has no say in.**
-/

namespace Gogo.Migrations

open List Gogo.Lib Gogo.Models Relation

/-! ## The closure -/

/-- The migration of a key declares a dependency. -/
def Declares (migrations : List Migration) (key dependency : String) : Prop :=
  ∃ m ∈ migrations, m.key = key ∧ dependency ∈ m.dependencies

/-- Where the closure of a target starts: at the target, or at every migration without one. -/
def IsRoot (migrations : List Migration) (target key : String) : Prop :=
  if target = "" then key ∈ migrations.map Migration.key else key = target

/-- The transitive dependency closure of a target. -/
def InClosure (migrations : List Migration) (target key : String) : Prop :=
  ∃ root, IsRoot migrations target root ∧ ReflTransGen (Declares migrations) root key

/-- The closure of a target names only migrations, and none of them needs itself. The target is
in its own closure, so it exists. -/
structure Orderable (migrations : List Migration) (target : String) : Prop where
  known : ∀ key, InClosure migrations target key → key ∈ migrations.map Migration.key
  acyclic : ∀ key, InClosure migrations target key → ¬ TransGen (Declares migrations) key key

section Closure

variable {migrations migrations' order : List Migration} {byID byID' : MigrationIndex}
  {target key : String}

section

variable (h : Indexes migrations byID)

include h

/-- An index holds the declared dependencies. -/
lemma Indexes.depends_iff {key dependency : String} :
    Depends byID.next key dependency ↔ Declares migrations key dependency := by
  unfold Depends MigrationIndex.next Declares
  constructor
  · rintro ⟨dependencies, hnext, hmem⟩
    obtain ⟨m, hget, rfl⟩ := Option.map_eq_some_iff.mp hnext
    obtain ⟨hm, hkey⟩ := (h.get?_iff key m).mp hget
    exact ⟨m, hm, hkey, hmem⟩
  · rintro ⟨m, hm, hkey, hmem⟩
    refine ⟨m.dependencies, ?_, hmem⟩
    rw [(h.get?_iff key m).mpr ⟨hm, hkey⟩]
    rfl

lemma Indexes.depends_eq : Depends byID.next = Declares migrations := by
  funext key dependency
  exact propext h.depends_iff

lemma Indexes.mem_keys_iff : key ∈ byID.keys ↔ key ∈ migrations.map Migration.key := by
  rw [byID.mem_keys, mem_map]
  exact exists_congr fun m => h.get?_iff key m

lemma Indexes.next_isSome_iff :
    (byID.next key).isSome = true ↔ key ∈ migrations.map Migration.key := by
  unfold MigrationIndex.next
  rw [Option.isSome_map, ← h.mem_keys_iff, byID.mem_keys, Option.isSome_iff_exists]

lemma Indexes.mem_planRoots_iff : key ∈ planRoots byID target ↔ IsRoot migrations target key := by
  unfold planRoots IsRoot
  by_cases htarget : target = ""
  · rw [if_neg (not_not.mpr htarget), if_pos htarget, mem_sortStrings, h.mem_keys_iff]
  · rw [if_pos htarget, if_neg htarget, mem_singleton]

lemma Indexes.reachable_iff :
    Reachable byID.next (planRoots byID target) key ↔ InClosure migrations target key := by
  unfold Reachable InClosure
  rw [h.depends_eq]
  exact exists_congr fun root => and_congr_left fun _ => h.mem_planRoots_iff

/-- The vertices that a plan visits are sound when the closure is orderable. -/
lemma Indexes.sound_iff :
    (∀ root ∈ planRoots byID target, Sound byID.next root) ↔ Orderable migrations target := by
  constructor
  · intro hsound
    refine ⟨fun key hkey => ?_, fun key hkey => ?_⟩
    · obtain ⟨root, hroot, hreach⟩ := h.reachable_iff.mpr hkey
      exact h.next_isSome_iff.mp ((hsound root hroot).known key hreach)
    · obtain ⟨root, hroot, hreach⟩ := h.reachable_iff.mpr hkey
      rw [← h.depends_eq]
      exact (hsound root hroot).acyclic key hreach
  · intro horderable root hroot
    refine ⟨fun key hreach => ?_, fun key hreach => ?_⟩
    · have hkey := h.reachable_iff.mp ⟨root, hroot, hreach⟩
      exact h.next_isSome_iff.mpr (horderable.known key hkey)
    · have hkey := h.reachable_iff.mp ⟨root, hroot, hreach⟩
      rw [h.depends_eq]
      exact horderable.acyclic key hkey

end

/-! ## The plan -/

lemma plan_eq_ok_iff : plan migrations target = .ok order ↔
    ∃ byID, run indexMigration FinMap.empty migrations = .ok byID ∧
      ∃ keys, visitAll byID.next (byID.keys.length + 1) (planRoots byID target) = .ok keys ∧
        keys.filterMap byID.get? = order := by
  unfold plan
  rw [bind_eq_ok]
  refine exists_congr fun byID => and_congr_right fun _ => ?_
  rw [bind_eq_ok]
  refine exists_congr fun keys => ?_
  rw [mapError_eq_ok, Except.ok.injEq]

/-- A plan lists the closure of its target. -/
lemma mem_plan_iff (h : plan migrations target = .ok order) {m : Migration} :
    m ∈ order ↔ m ∈ migrations ∧ InClosure migrations target m.key := by
  obtain ⟨byID, hindex, keys, hkeys, rfl⟩ := plan_eq_ok_iff.mp h
  have hindexes : Indexes migrations byID := indexes_of_run indexes_nil hindex
  rw [mem_filterMap]
  constructor
  · rintro ⟨key, hkey, hget⟩
    obtain ⟨hm, rfl⟩ := (hindexes.get?_iff key m).mp hget
    exact ⟨hm, hindexes.reachable_iff.mp ((visitAll_mem_iff hkeys).mp hkey)⟩
  · rintro ⟨hm, hclosure⟩
    refine ⟨m.key, (visitAll_mem_iff hkeys).mpr (hindexes.reachable_iff.mpr hclosure), ?_⟩
    exact (hindexes.get?_iff m.key m).mpr ⟨hm, rfl⟩

/-- A plan has a migration for every key of the closure. -/
lemma mem_map_key_plan_iff (h : plan migrations target = .ok order) :
    key ∈ order.map Migration.key ↔ InClosure migrations target key := by
  obtain ⟨byID, hindex, keys, hkeys, rfl⟩ := plan_eq_ok_iff.mp h
  have hindexes : Indexes migrations byID := indexes_of_run indexes_nil hindex
  rw [map_key_filterMap hindexes, visitAll_mem_iff hkeys, hindexes.reachable_iff]
  intro key hkey
  obtain ⟨-, hordered, -⟩ := visitAll_spec hkeys
  obtain ⟨dependencies, hnext, -⟩ := hordered.closed hkey
  rw [hnext]
  rfl

/-- What a migration of a plan needs stands in front of it. -/
lemma IsPlan.needs (h : IsPlan migrations target order)
    (hnodup : (migrations.map Migration.key).Nodup)
    {before after : List Migration} {m : Migration} (heq : order = before ++ m :: after)
    {d : String} (hd : TransGen (Declares migrations) m.key d) :
    d ∈ before.map Migration.key := by
  induction hd with
  | single hedge =>
    obtain ⟨m', hm', hkey, hdep⟩ := hedge
    have hm : m ∈ migrations := h.known m (by simp [heq])
    obtain rfl : m' = m := inj_on_of_nodup_map hnodup hm' hm hkey
    exact h.ordered before m' after heq _ hdep
  | @tail b d _ hedge ih =>
    obtain ⟨m₁, hm₁, rfl⟩ := mem_map.mp ih
    obtain ⟨front, rest, rfl⟩ := append_of_mem hm₁
    obtain ⟨m', hm', hkey, hdep⟩ := hedge
    have hm₁ : m₁ ∈ migrations := h.known m₁ (by simp [heq])
    obtain rfl : m' = m₁ := inj_on_of_nodup_map hnodup hm' hm₁ hkey
    have hfront := h.ordered front m' (rest ++ m :: after)
      (by rw [heq, append_assoc, cons_append]) d hdep
    rw [map_append]
    exact mem_append_left _ hfront

/-- A plan is returned when its migrations have checksums and the closure is orderable. -/
lemma plan_exists_iff (hnodup : (migrations.map Migration.key).Nodup)
    (hvalid : ∀ m ∈ migrations, validIdentifier m.app = true ∧ migrationName m.name = true) :
    (∃ order, plan migrations target = .ok order) ↔
      (∀ m ∈ migrations, m.checksumError = none) ∧ Orderable migrations target := by
  constructor
  · rintro ⟨order, h⟩
    obtain ⟨byID, hindex, keys, hkeys, -⟩ := plan_eq_ok_iff.mp h
    have hindexes : Indexes migrations byID := indexes_of_run indexes_nil hindex
    refine ⟨fun m hm => (hindexes.valid m hm).2.2, hindexes.sound_iff.mp ?_⟩
    intro root hroot
    obtain ⟨hkeysNodup, hordered, hroots⟩ := visitAll_spec hkeys
    exact hordered.sound hkeysNodup (hroots root hroot)
  · rintro ⟨hsum, horderable⟩
    have hall : ∀ m ∈ migrations, validIdentifier m.app = true ∧ migrationName m.name = true ∧
        m.checksumError = none :=
      fun m hm => ⟨(hvalid m hm).1, (hvalid m hm).2, hsum m hm⟩
    obtain ⟨byID, hindex⟩ := run_indexMigration_exists indexes_nil hnodup hall
    have hindexes : Indexes migrations byID := indexes_of_run indexes_nil hindex
    have hknown : ∀ key, (byID.next key).isSome = true → key ∈ byID.keys := fun key hkey =>
      hindexes.mem_keys_iff.mpr (hindexes.next_isSome_iff.mp hkey)
    obtain ⟨keys, hkeys⟩ :=
      (visitAll_exists_iff hknown (Nat.lt_succ_self _)).mpr (hindexes.sound_iff.mpr horderable)
    exact ⟨_, plan_eq_ok_iff.mpr ⟨byID, hindex, keys, hkeys, rfl⟩⟩

/-- Two indexes of the same migrations hold the same. -/
lemma Indexes.get?_eq_of_perm (h : Indexes migrations byID) (h' : Indexes migrations' byID')
    (hperm : migrations.Perm migrations') : byID.get? = byID'.get? := by
  funext key
  refine Option.ext fun m => ?_
  rw [h.get?_iff, h'.get?_iff, hperm.mem_iff]

lemma Indexes.keys_perm (h : Indexes migrations byID) (h' : Indexes migrations' byID')
    (hperm : migrations.Perm migrations') : byID.keys.Perm byID'.keys := by
  refine (perm_ext_iff_of_nodup byID.nodup_keys byID'.nodup_keys).mpr fun key => ?_
  rw [byID.mem_keys, byID'.mem_keys, h.get?_eq_of_perm h' hperm]

/-- Once the migrations are indexed, their order is forgotten: the roots are sorted, and the
traversal reads the index only. -/
lemma plan_eq_of_perm (hperm : migrations.Perm migrations')
    (hnodup : (migrations.map Migration.key).Nodup)
    (hvalid : ∀ m ∈ migrations,
      validIdentifier m.app = true ∧ migrationName m.name = true ∧ m.checksumError = none) :
    plan migrations' target = plan migrations target := by
  obtain ⟨byID, hindex⟩ := run_indexMigration_exists indexes_nil hnodup hvalid
  have hnodup' : (migrations'.map Migration.key).Nodup := hnodup.perm (hperm.map _)
  obtain ⟨byID', hindex'⟩ := run_indexMigration_exists indexes_nil hnodup'
    fun m hm => hvalid m (hperm.mem_iff.mpr hm)
  have hindexes : Indexes migrations byID := indexes_of_run indexes_nil hindex
  have hindexes' : Indexes migrations' byID' := indexes_of_run indexes_nil hindex'
  have hget := hindexes.get?_eq_of_perm hindexes' hperm
  have hkeys := hindexes.keys_perm hindexes' hperm
  have hnext : byID'.next = byID.next := by
    funext key
    unfold MigrationIndex.next
    rw [hget]
  have hroots : planRoots byID' target = planRoots byID target := by
    unfold planRoots
    rw [sortStrings_eq_of_perm hkeys.symm]
  unfold plan
  rw [hindex, hindex', ok_bind, ok_bind, hnext, hroots, hkeys.length_eq, hget]

/-- **A plan is the dependency closure of its target, in an order of its own.** For migrations
with distinct valid keys: a plan is returned exactly when every migration has a checksum and the
closure has no missing key and no cycle; it lists the migrations of the closure, each once, every
one behind its dependencies; and the migrations may be given in any order. -/
theorem plan_is_closure (migrations : List Migration) (target : String)
    (hnodup : (migrations.map Migration.key).Nodup)
    (hvalid : ∀ m ∈ migrations, validIdentifier m.app = true ∧ migrationName m.name = true) :
    ((∃ order, plan migrations target = .ok order) ↔
      (∀ m ∈ migrations, m.checksumError = none) ∧ Orderable migrations target) ∧
    (∀ order, plan migrations target = .ok order →
      (∀ m, m ∈ order ↔ m ∈ migrations ∧ InClosure migrations target m.key) ∧
      (∀ key, key ∈ order.map Migration.key ↔ InClosure migrations target key) ∧
      (order.map Migration.key).Nodup ∧
      ∀ before m after, order = before ++ m :: after →
        ∀ d ∈ m.dependencies, d ∈ before.map Migration.key) ∧
    ∀ migrations', migrations.Perm migrations' →
      (∀ order, plan migrations' target = .ok order ↔ plan migrations target = .ok order) ∧
      ((∀ m ∈ migrations, m.checksumError = none) →
        plan migrations' target = plan migrations target) := by
  refine ⟨plan_exists_iff hnodup hvalid, fun order h => ?_, fun migrations' hperm => ?_⟩
  · obtain ⟨-, -, hplan⟩ := plan_spec h
    exact ⟨fun m => mem_plan_iff h, fun key => mem_map_key_plan_iff h, hplan.nodup, hplan.ordered⟩
  · have hsame : (∀ m ∈ migrations, m.checksumError = none) →
        plan migrations' target = plan migrations target := fun hsum =>
      plan_eq_of_perm hperm hnodup fun m hm => ⟨(hvalid m hm).1, (hvalid m hm).2, hsum m hm⟩
    refine ⟨fun order => ⟨fun h => ?_, fun h => ?_⟩, hsame⟩
    · have hsum : ∀ m ∈ migrations', m.checksumError = none :=
        ((plan_exists_iff (hnodup.perm (hperm.map _))
          fun m hm => hvalid m (hperm.mem_iff.mpr hm)).mp ⟨order, h⟩).1
      rw [← hsame fun m hm => hsum m (hperm.mem_iff.mp hm)]
      exact h
    · rw [hsame ((plan_exists_iff hnodup hvalid).mp ⟨order, h⟩).1]
      exact h

end Closure

/-! ## Samples -/

/-- A chain of three migrations over two apps, given from its end. -/
def chainMigrations : List Migration :=
  [{ app := "shop", name := "0002_next", dependencies := ["shop.0001_initial"] },
    { app := "shop", name := "0001_initial", dependencies := ["auth.0001_initial"] },
    { app := "auth", name := "0001_initial" }]

theorem chain_plan_is_closure :
    (plan chainMigrations "shop.0001_initial").map (List.map Migration.key) =
      .ok ["auth.0001_initial", "shop.0001_initial"] ∧
      Orderable chainMigrations "shop.0001_initial" := by
  have hplan : ∃ order, plan chainMigrations "shop.0001_initial" = .ok order := ⟨_, rfl⟩
  refine ⟨rfl, ?_⟩
  exact ((plan_is_closure chainMigrations "shop.0001_initial" (by decide) (by decide)).1.mp
    hplan).2

/-- A migration whose data operation has no identifier for its code. -/
def unnamedData : Migration :=
  { app := "shop", name := "0001_fill", operations := [{ kind := .known .data }] }

/-- **A migration without a checksum is not planned**, though its closure is itself. -/
theorem plan_needs_checksums :
    ([unnamedData].map Migration.key).Nodup ∧
      (∀ m ∈ [unnamedData], validIdentifier m.app = true ∧ migrationName m.name = true) ∧
      Orderable [unnamedData] "" ∧
      plan [unnamedData] "" = .error
        (.text "migrations: data operation requires stable CodeID and forward callback") := by
  have hnone : ∀ key dependency, ¬ Declares [unnamedData] key dependency := by
    rintro key dependency ⟨m, hm, -, hmem⟩
    obtain rfl := mem_singleton.mp hm
    cases hmem
  refine ⟨by decide, by decide, ⟨?_, ?_⟩, rfl⟩
  · rintro key ⟨root, hroot, hreach⟩
    rcases hreach.cases_head with rfl | ⟨dependency, hedge, -⟩
    · exact hroot
    · exact absurd hedge (hnone root dependency)
  · rintro key - hcycle
    obtain ⟨dependency, hedge, -⟩ := TransGen.head'_iff.mp hcycle
    exact hnone key dependency hedge

end Gogo.Migrations

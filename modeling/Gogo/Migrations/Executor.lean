import Gogo.Lib.Session
import Gogo.Migrations.Preflight

/-!
# The migration executor

`core/migrations/migrations.go` `Executor.Apply` and `planning.go` `Executor.Reverse`, over a
database that keeps the history table and a log of the operations that ran. Everything the backend
may refuse is in the faults of a call; a failed transaction leaves the database as it was.

* `Database`, `Faults` — the state of the executor and what may go wrong in one call.
* `apply` — the migrations of a plan that are not in the history, one after the other.
* `reverse` — the applied migrations of an app that the target does not need, and what depends on
  them, from the last to the first.
-/

namespace Gogo.Migrations

open Gogo.Lib Gogo.Models

/-! ## The database -/

/-- A row of the table `gogo_migrations`. -/
structure Row where
  app : String
  name : String
  checksum : String
deriving DecidableEq

/-- Source: `migrations.go` `Applied`. -/
structure Applied where
  key : String
  checksum : String
deriving DecidableEq

/-- The key under which a row is reported. -/
def Row.key (row : Row) : String := row.app ++ "." ++ row.name

/-- An operation that ran. -/
structure Effect where
  key : String
  reverse : Bool
  operation : Operation

/-- The history table, if it exists, and the operations that ran. -/
structure Database where
  history : Option (List Row) := none
  effects : List Effect := []

def Database.rows (db : Database) : List Row := db.history.getD []

/-- The keys of the applied migrations. -/
def Database.keys (db : Database) : List String := db.rows.map Row.key

/-- What the backend refuses during one call, at each of the points where it may. -/
structure Faults where
  /-- A missing, unbound or unsuitable backend or editor. -/
  start : Option Err := none
  lock : Option Err := none
  unlock : Option Err := none
  createTable : Option Err := none
  history : Option Err := none
  /-- One operation of a migration, by its position in the run. -/
  operation : Migration → ℕ → Option Err := fun _ _ => none
  /-- The deferred statements of a migration. -/
  flush : Migration → Option Err := fun _ => none
  /-- The statement that writes or deletes the row of a migration. -/
  record : Migration → Option Err := fun _ => none
  commit : Migration → Option Err := fun _ => none
  /-- The callback `AfterMigrate`. -/
  afterMigrate : Migration → Option Err := fun _ => none

abbrev Exec := Session Database Err

/-- A point at which the backend may refuse. -/
def fault (err : Option Err) : Exec Unit := Session.lift (failWith err)

/-- The operations of a migration, counted from `i`. -/
def runOperations (faults : Faults) (m : Migration) (reverse : Bool) :
    ℕ → List Operation → Exec Unit
  | _, [] => pure ()
  | i, op :: rest => do
    fault (faults.operation m i)
    Session.update fun db => { db with effects := db.effects ++ [⟨m.key, reverse, op⟩] }
    runOperations faults m reverse (i + 1) rest

/-- The statement on the history table, on whose rows the pair of app and name is a key. -/
def onHistory (statement : List Row → Except Err (List Row)) : Exec Unit := do
  let db ← Session.read
  let rows ← Session.lift (orFail db.history (.text "relation gogo_migrations does not exist"))
  let rows' ← Session.lift (statement rows)
  Session.update fun db => { db with history := some rows' }

/-- The row of a migration stands in the history. -/
def Migration.isRow (m : Migration) (row : Row) : Bool := row.app == m.app && row.name == m.name

/-- `INSERT INTO gogo_migrations`, with the primary key (app, name). -/
def insertRow (m : Migration) (checksum : String) (rows : List Row) : Except Err (List Row) := do
  failIf (rows.any m.isRow) (.text "duplicate key value violates unique constraint")
  .ok (rows ++ [⟨m.app, m.name, checksum⟩])

/-- `DELETE FROM gogo_migrations WHERE app = … AND name = …`. -/
def deleteRow (m : Migration) (rows : List Row) : Except Err (List Row) :=
  .ok (rows.filter fun row => !m.isRow row)

/-- The body of one migration: the operations, the deferred statements, and the row last. -/
def migrationBody (faults : Faults) (m : Migration) (reverse : Bool)
    (statement : List Row → Except Err (List Row)) : Exec Unit := do
  runOperations faults m reverse 0 (if reverse then m.operations.reverse else m.operations)
  fault (faults.flush m)
  fault (faults.record m)
  onHistory statement

/-- One migration, in a transaction unless it opts out. -/
def runMigration (faults : Faults) (m : Migration) (reverse : Bool)
    (statement : List Row → Except Err (List Row)) : Exec Unit :=
  if m.nonAtomic then migrationBody faults m reverse statement
  else Session.atomic (migrationBody faults m reverse statement) (failWith (faults.commit m))

/-! ## Apply -/

/-- Source: `migrations.go` `History`. -/
def readHistory (faults : Faults) : Exec (List Applied) := do
  fault faults.history
  let db ← Session.read
  pure (db.rows.map fun row => ⟨row.key, row.checksum⟩)

/-- `CREATE TABLE IF NOT EXISTS gogo_migrations`. Source: `migrations.go` `initialize`. -/
def initializeHistory (faults : Faults) : Exec Unit := do
  fault faults.createTable
  Session.update fun db => { db with history := some db.rows }

/-- One entry of the history against the known migrations. -/
def checkEntry (checksum : Migration → String) (known : MigrationIndex)
    (applied : FinMap String String) (entry : Applied) : Except Err (FinMap String String) := do
  let m ← orFail (known.get? entry.key)
    (.text ("migrations: applied migration " ++ entry.key ++ " has no source"))
  failIf (entry.checksum != checksum m)
    (.text ("migrations: checksum mismatch for " ++ entry.key))
  .ok (applied.set entry.key (checksum m))

/-- The dependencies of one entry of the history. -/
def checkDependencies (known : MigrationIndex) (applied : FinMap String String) (entry : Applied) :
    Except Err Unit :=
  ((known.get? entry.key).getD {}).dependencies.forM fun dep =>
    failIf (applied.get? dep).isNone (.text ("migrations: applied dependency missing: " ++ dep))

/-- The checks that `Apply` makes of the history, and the checksums it reads from it. -/
def checkHistory (checksum : Migration → String) (all : List Migration) (history : List Applied) :
    Except Err (FinMap String String) := do
  let known : MigrationIndex := FinMap.ofList (all.map fun m => (m.key, m))
  let applied ← run (checkEntry checksum known) FinMap.empty history
  history.forM (checkDependencies known applied)
  .ok applied

/-- The loop of `Apply` over the plan. -/
def applyAll (checksum : Migration → String) (faults : Faults) :
    List Migration → FinMap String String → Exec Unit
  | [], _ => pure ()
  | m :: rest, applied =>
    if (applied.get? m.key).isSome then applyAll checksum faults rest applied
    else do
      runMigration faults m false (insertRow m (checksum m))
      fault (faults.afterMigrate m)
      applyAll checksum faults rest (applied.set m.key (checksum m))

section Calls

variable {ε : Type} (api : EditorApi ε) (editor : ε) (checksum : Migration → String)
  (migrations : List Migration)

/-- Source: `migrations.go` `Apply`. -/
def apply (faults : Faults) (target : String) : Exec Unit := do
  fault faults.start
  let order ← Session.lift (plan migrations target)
  Session.lift (order.forM fun m => prepare api migrations editor m false)
  fault faults.lock
  Session.deferred (do
    initializeHistory faults
    let history ← readHistory faults
    let all ← Session.lift (plan migrations "")
    let applied ← Session.lift (checkHistory checksum all history)
    applyAll checksum faults order applied) (failWith faults.unlock)

/-! ## Reverse -/

/-- The text before the first dot, if there is a dot. Source: `strings.Cut`. -/
def cutApp (target : String) : Option String :=
  if target.toList.contains '.' then
    some (String.ofList (target.toList.takeWhile (· ≠ '.')))
  else none

/-- Source: `strings.HasSuffix(target, ".zero")`. -/
def isZero (target : String) : Bool := ".zero".toList.isSuffixOf target.toList

/-- One pass over the plan: what depends on a removed migration is removed as well. -/
def removalPass (all : List Migration) (remove : List String) : List String :=
  all.foldl (fun remove m =>
    if m.key ∈ remove then remove
    else if m.dependencies.any (· ∈ remove) then remove ++ [m.key]
    else remove) remove

/-- The passes, until one changes nothing. -/
def removalLoop (all : List Migration) : ℕ → List String → List String
  | 0, remove => remove
  | fuel + 1, remove =>
    if removalPass all remove = remove then remove
    else removalLoop all fuel (removalPass all remove)

/-- The keys that `Reverse` removes. A pass that changes something adds a key of the plan, so one
pass more than the plan has migrations is enough. -/
def removalSet (all : List Migration) (app : String) (keep : List String) : List String :=
  removalLoop all (all.length + 1)
    ((all.filter fun m => m.app = app ∧ m.key ∉ keep).map Migration.key)

/-- An operation that cannot be undone. -/
def irreversible (op : Operation) : Bool :=
  op.is .deleteModel || op.is .removeField || (op.is .sql && op.reverseSQL == "") ||
    (op.is .data && op.backward.isNone)

/-- The checks of `Reverse` on one migration. -/
def checkReverse (remove : List String) (applied : FinMap String String) (m : Migration) :
    Except Err Unit := do
  failIf ((applied.get? m.key).any fun sum => sum != checksum m)
    (.text ("migrations: checksum mismatch " ++ m.key))
  if m.key ∈ remove then do
    if (applied.get? m.key).getD "" ≠ "" then prepare api migrations editor m true else .ok ()
    failIf (m.operations.any irreversible)
      (.text ("migrations: irreversible operation in " ++ m.key))
  else .ok ()

/-- The loop of `Reverse`, over the plan from its end. -/
def reverseAll (faults : Faults) (remove : List String) (applied : FinMap String String) :
    List Migration → Exec Unit
  | [] => pure ()
  | m :: rest =>
    if m.key ∉ remove ∨ (applied.get? m.key).getD "" = "" then
      reverseAll faults remove applied rest
    else do
      runMigration faults m true (deleteRow m)
      reverseAll faults remove applied rest

/-- Source: `planning.go` `Reverse`. -/
def reverse (faults : Faults) (target : String) : Exec Unit := do
  fault faults.start
  let app ← Session.lift (orFail (cutApp target)
    (.text "migrations: reverse target must be app.name or app.zero"))
  let all ← Session.lift (plan migrations "")
  let kept ← Session.lift (if isZero target then .ok [] else plan migrations target)
  let remove := removalSet all app (kept.map Migration.key)
  fault faults.lock
  Session.deferred (do
    let history ← readHistory faults
    let applied := FinMap.ofList (history.map fun entry => (entry.key, entry.checksum))
    Session.lift (all.forM (checkReverse api editor checksum migrations remove applied))
    reverseAll faults remove applied all.reverse) (failWith faults.unlock)

/-! ## Runs -/

inductive Call
  | apply (target : String) (faults : Faults)
  | reverse (target : String) (faults : Faults)

/-- The database after a call, whether it succeeded or not. -/
def step (db : Database) : Call → Database
  | .apply target faults => (apply api editor checksum migrations faults target db).2
  | .reverse target faults => (reverse api editor checksum migrations faults target db).2

/-- The database after a sequence of calls on an empty one. -/
def reached (calls : List Call) : Database :=
  calls.foldl (step api editor checksum migrations) {}

end Calls

end Gogo.Migrations

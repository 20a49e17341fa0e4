import Gogo.Migrations.Detect
import Gogo.Migrations.Encoding

/-!
# The command `makemigrations`

`core/management/migrations.go`, the command that compares the registered models of one app with
the state of the existing migrations and generates a migration from the difference.

* `ofApp` — the schemas of one app; the command looks at no others.
* `nextMigration` — the migration that is generated: the next number of the app, and the last
  migration of the app as its only dependency.
-/

namespace Gogo.Management

open Gogo.Lib Gogo.Models Gogo.Migrations

/-- The schemas of one app. Source: `migrations.go` `makemigrations`, the function `filter`. -/
def ofApp (app : String) (schemas : List Schema) : List Schema :=
  schemas.filter fun s => s.appLabel == app

/-- Source: the verb `%04d` of `fmt` on a positive number. -/
def fourDigits (n : ℕ) : String :=
  let digits := (Nat.toDigits 10 n)
  String.ofList (List.replicate (4 - digits.length) '0' ++ digits)

/-- The migration that is generated from some operations. -/
def nextMigration (all : List Migration) (app label : String) (operations : List Operation) :
    Migration :=
  let own := all.filter fun m => m.app == app
  { app
    name := fourDigits (own.length + 1) ++ "_" ++ label
    dependencies := (own.getLast?.map Migration.key).toList
    operations }

/-- What `makemigrations` generates from the state of the existing migrations; `none` when no
changes are detected. Source: `migrations.go` `makemigrations`. -/
def makemigrations (all : List Migration) (state registered : List Schema) (app label : String) :
    Except Err (Option Migration) := do
  failIf (!validIdentifier app || !validIdentifier label)
    (.text "makemigrations requires one app label and valid name")
  let operations ← detect (ofApp app state) (ofApp app registered) {}
  if operations.isEmpty then .ok none
  else .ok (some (nextMigration all app label operations))

variable {all : List Migration} {state registered : List Schema} {app label : String}

lemma makemigrations_eq_some {m : Migration}
    (h : makemigrations all state registered app label = .ok (some m)) :
    validIdentifier app = true ∧
      ∃ operations, detect (ofApp app state) (ofApp app registered) {} = .ok operations ∧
        operations ≠ [] ∧ m = nextMigration all app label operations := by
  simp only [makemigrations, bind_eq_ok, failIf_eq_ok] at h
  obtain ⟨-, hlabels, operations, hdetect, h⟩ := h
  split_ifs at h with hempty
  · cases h
  refine ⟨?_, operations, hdetect, ?_, (Option.some.inj (Except.ok.inj h)).symm⟩
  · simp only [Bool.or_eq_false_iff, Bool.not_eq_false'] at hlabels
    exact hlabels.1
  rintro rfl
  exact hempty rfl

lemma makemigrations_eq_none (h : makemigrations all state registered app label = .ok none) :
    detect (ofApp app state) (ofApp app registered) {} = .ok [] := by
  simp only [makemigrations, bind_eq_ok] at h
  obtain ⟨-, -, operations, hdetect, h⟩ := h
  split_ifs at h with hempty
  · rw [hdetect, List.isEmpty_iff.mp hempty]
  · cases h

end Gogo.Management

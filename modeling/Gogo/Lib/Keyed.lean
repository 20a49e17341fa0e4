import Gogo.Lib.FinMap
import Gogo.Lib.Run

/-!
# Runs over a keyed state

The state is a finite map and every input is about one key: a step reads and writes the value at
the key of its input and nothing else. Two facts then carry everything over to single keys:

* `run_keyedStep_get?` — after a run, the value at a key is what the inputs of that key make of
  its old value, in their order; the inputs of other keys do not matter.
* `run_keyedStep_exists` — the run succeeds when it does so for every key.

So two runs over lists that agree on the subsequence of every key end with the same values.
-/

namespace Gogo.Lib

variable {ε κ α ι : Type} [DecidableEq κ]

/-- One step at the key of the input; `none` is an absent value. -/
def keyedStep (key : ι → κ) (step : Option α → ι → Except ε (Option α)) (m : FinMap κ α)
    (i : ι) : Except ε (FinMap κ α) := do
  let v ← step (m.get? (key i)) i
  .ok (m.put (key i) v)

variable {key : ι → κ} {step : Option α → ι → Except ε (Option α)}

variable {m m' : FinMap κ α} {l : List ι}

lemma keyedStep_eq_ok {i : ι} :
    keyedStep key step m i = .ok m' ↔
      ∃ v, step (m.get? (key i)) i = .ok v ∧ m.put (key i) v = m' := by
  simp [keyedStep, bind_eq_ok]

/-- **After a run, the value at a key is the result of the inputs of that key alone.** -/
theorem run_keyedStep_get? (h : run (keyedStep key step) m l = .ok m') (k : κ) :
    run step (m.get? k) (l.filter fun i => key i = k) = .ok (m'.get? k) := by
  induction l generalizing m with
  | nil =>
    rw [run_nil, Except.ok.injEq] at h
    simp [h]
  | cons i rest ih =>
    obtain ⟨m₁, hstep, hrest⟩ := run_cons_eq_ok.mp h
    obtain ⟨v, hv, rfl⟩ := keyedStep_eq_ok.mp hstep
    have ih := ih hrest
    rw [FinMap.get?_put] at ih
    by_cases hk : key i = k
    · subst hk
      rw [if_pos rfl] at ih
      rw [List.filter_cons_of_pos (by simp)]
      exact run_cons_eq_ok.mpr ⟨v, hv, ih⟩
    · rw [if_neg hk] at ih
      rw [List.filter_cons_of_neg (by simpa using hk)]
      exact ih

/-- **A run succeeds when the inputs of every key succeed on their own.** -/
theorem run_keyedStep_exists
    (h : ∀ k, ∃ v, run step (m.get? k) (l.filter fun i => key i = k) = .ok v) :
    ∃ m', run (keyedStep key step) m l = .ok m' := by
  induction l generalizing m with
  | nil => exact ⟨m, rfl⟩
  | cons i rest ih =>
    obtain ⟨v, hv⟩ := h (key i)
    rw [List.filter_cons_of_pos (by simp)] at hv
    obtain ⟨w, hw, hrest⟩ := run_cons_eq_ok.mp hv
    have hput : ∀ k, ∃ v, run step ((m.put (key i) w).get? k)
        (rest.filter fun i => key i = k) = .ok v := by
      intro k
      rw [FinMap.get?_put]
      by_cases hk : key i = k
      · subst hk
        rw [if_pos rfl]
        exact ⟨v, hrest⟩
      · rw [if_neg hk]
        obtain ⟨u, hu⟩ := h k
        rw [List.filter_cons_of_neg (by simpa using hk)] at hu
        exact ⟨u, hu⟩
    obtain ⟨m', hm'⟩ := ih hput
    exact ⟨m', run_cons_eq_ok.mpr ⟨_, keyedStep_eq_ok.mpr ⟨w, hw, rfl⟩, hm'⟩⟩

end Gogo.Lib

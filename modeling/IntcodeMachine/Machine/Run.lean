/-
**Runs.**

A run makes steps until the program halts or a step fails.  A program need not stop, so a run is
given a number of steps that it may make; a run that is still going after them has no outcome.
More steps never change an outcome.

Main definitions:

* `Machine.Outcome` — how a run ended;
* `Machine.run` — **a run of at most `n` steps**;
* `Machine.runValues`, `Machine.runText` — a run that yields the output, as values or as text.

Main results:

* `Machine.run_mono` — more steps keep an outcome.
-/

import IntcodeMachine.Machine.Step
import IntcodeMachine.Text.CodePoint

set_option relaxedAutoImplicit false
set_option autoImplicit false

namespace IntcodeMachine

namespace Machine

/-- How an action on the machine ended: with a value or a fault, and the state reached. -/
abbrev Outcome (α : Type) := EStateM.Result Fault Machine α

/-- A run of at most `n` steps, which ends when the program halts or a step fails. -/
def run : Nat → Machine → Option (Outcome Unit)
  | 0, _ => none
  | n + 1, m =>
      match step m with
      | .ok .running m => run n m
      | .ok .halted m => some (.ok () m)
      | .error fault m => some (.error fault m)

/-- The outcome of a run whose program has halted, followed by a computation on the output. -/
def finish {α : Type} (result : Array Cell → Except Fault α) : Outcome Unit → Outcome α
  | .ok () m =>
      match result m.output with
      | .ok value => .ok value m
      | .error fault => .error fault m
  | .error fault m => .error fault m

/-- A run of at most `n` steps that yields all values of the output. -/
def runValues (n : Nat) (m : Machine) : Option (Outcome (Array Cell)) :=
  (run n m).map (finish .ok)

/-- A run of at most `n` steps that yields the output as text. -/
def runText (n : Nat) (m : Machine) : Option (Outcome String) :=
  (run n m).map (finish fun output => Text.decode output.toList)

@[simp] theorem run_zero (m : Machine) : run 0 m = none := rfl

/-- More steps keep an outcome. -/
theorem run_mono {n k : Nat} {m : Machine} {r : Outcome Unit} (h : run n m = some r)
    (hk : n ≤ k) : run k m = some r := by
  induction n generalizing k m with
  | zero => cases h
  | succ n ih =>
      obtain ⟨k, rfl⟩ : ∃ j, k = j + 1 := ⟨k - 1, by omega⟩
      unfold run at h ⊢
      split at h
      · exact ih h (by omega)
      · exact h
      · exact h

end Machine

end IntcodeMachine

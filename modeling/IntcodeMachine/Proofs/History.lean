/-
**Histories.**

A machine is driven from outside by commands: make a step, overwrite a cell, feed the input.  A
history is what comes of a list of commands, the answer to each and the state after it.  A command
that fails is answered with its fault, and the history goes on from the state that it has left.

Main definitions:

* `Command`, `Reply` — what can be asked of a machine, and what it answers;
* `Machine.perform` — **one command**;
* `Machine.history` — the answers to several commands and the states after them;
* `Machine.after` — the state after several commands;
* `Machine.starts` — the states in which several steps begin.

Main results:

* `Machine.forall₂_history` — a relation that every command keeps is kept throughout a history, and
  the two sides cannot be told apart by their answers.
-/

import IntcodeMachine.Machine.Step
import Mathlib.Data.List.Forall2

set_option relaxedAutoImplicit false
set_option autoImplicit false

namespace IntcodeMachine

/-- What can be asked of a machine from outside. -/
inductive Command where
  | step
  | patch (a : Nat) (v : Cell)
  | feed (vs : List Cell)
deriving DecidableEq

/-- The answer to a command. -/
inductive Reply where
  /-- A step was made. -/
  | status (s : Machine.Status)
  /-- A change from outside was made. -/
  | done
  | fault (e : Fault)
deriving DecidableEq

namespace Machine

/-- **One command**: the answer, and the state after it. -/
def perform (m : Machine) : Command → Reply × Machine
  | .step =>
      match step m with
      | .ok s m' => (.status s, m')
      | .error e m' => (.fault e, m')
  | .patch a v =>
      match patch a v m with
      | .ok _ m' => (.done, m')
      | .error e m' => (.fault e, m')
  | .feed vs => (.done, m.feed vs)

theorem perform_of_ok {m m' : Machine} {s : Status} (h : step m = .ok s m') :
    m.perform .step = (.status s, m') := by
  simp only [perform, h]

/-- A step that is answered with what it says about the program has been made. -/
theorem step_of_perform {m : Machine} {s : Status} (h : (m.perform .step).1 = .status s) :
    step m = .ok s (m.perform .step).2 := by
  cases hs : step m with
  | ok s' m' =>
      rw [perform_of_ok hs] at h ⊢
      cases h
      rfl
  | error e m' =>
      simp only [perform, hs] at h
      cases h

/-- The answers to several commands, each with the state after it. -/
def history (m : Machine) : List Command → List (Reply × Machine)
  | [] => []
  | c :: cs => m.perform c :: (m.perform c).2.history cs

/-- The state after several commands. -/
def after (m : Machine) : List Command → Machine
  | [] => m
  | c :: cs => (m.perform c).2.after cs

/-- The states in which the first `n` steps begin, whether or not they succeed. -/
def starts : Nat → Machine → List Machine
  | 0, _ => []
  | n + 1, m => m :: starts n (m.perform .step).2

/-- **A relation that every command keeps is kept throughout a history**, with equal answers. -/
theorem forall₂_history {R : Machine → Machine → Prop}
    (hR : ∀ m n c, R m n → (m.perform c).1 = (n.perform c).1 ∧ R (m.perform c).2 (n.perform c).2)
    {m n : Machine} (h : R m n) (cs : List Command) :
    List.Forall₂ (fun x y => x.1 = y.1 ∧ R x.2 y.2) (m.history cs) (n.history cs) := by
  induction cs generalizing m n with
  | nil => exact .nil
  | cons c cs ih =>
      have hc := hR m n c h
      exact .cons hc (ih hc.2)

end Machine

end IntcodeMachine

/-
**Input as a sequence of answers.**

A source of input matters only through the answers that it gives.  Two sources of whatever kind that
give the same first answers cannot be told apart by a program, as long as it does not ask more
often: the answers to the steps are the same, and so are the states, but for the sources themselves.
How often a program asks is decided by the program, and a step that fails may have asked as well.

Main definitions:

* `Input.answers` — the answers to the next requests;
* `Machine.requests` — how often the first steps ask for a value;
* `Machine.SameRun` — the first steps of two machines are the same but for the input.

Main results:

* `Machine.sameRun_of_answers` — sources with the same answers give the same steps;
* `Input.answers_replicate`, `Input.answers_append` — a constant answers like a queue of copies, and
  the front of a queue hides what is behind it;
* `Machine.run_determined_by_answers` — **input matters only through its answers**.
-/

import IntcodeMachine.Proofs.Step.Dependence

set_option relaxedAutoImplicit false
set_option autoImplicit false

namespace IntcodeMachine

/-! ### Answers -/

namespace Input

/-- The answers to the next `n` requests; a request in vain is answered with nothing. -/
def answers : Nat → Input → List (Option Cell)
  | 0, _ => []
  | n + 1, source => source.next.map Prod.fst :: answers n source.rest

theorem answers_succ (n : Nat) (source : Input) :
    source.answers (n + 1) = source.next.map Prod.fst :: source.rest.answers n := rfl

@[simp] theorem answers_constant_succ (n : Nat) (v : Cell) :
    (constant v).answers (n + 1) = some v :: (constant v).answers n := rfl

@[simp] theorem answers_queue_cons (n : Nat) (v : Cell) (vs : List Cell) :
    (queue (v :: vs)).answers (n + 1) = some v :: (queue vs).answers n := rfl

/-- A constant answers like a queue of sufficiently many copies. -/
theorem answers_replicate (v : Cell) (n : Nat) (rest : List Cell) :
    (constant v).answers n = (queue (List.replicate n v ++ rest)).answers n := by
  induction n with
  | zero => rfl
  | succ n ih =>
      rw [List.replicate_succ, List.cons_append, answers_constant_succ, answers_queue_cons, ih]

/-- What is behind the first values of a queue has no part in the answers to as many requests. -/
theorem answers_append (vs ws ws' : List Cell) :
    (queue (vs ++ ws)).answers vs.length = (queue (vs ++ ws')).answers vs.length := by
  induction vs with
  | nil => rfl
  | cons v vs ih =>
      rw [List.cons_append, List.cons_append, List.length_cons, answers_queue_cons,
        answers_queue_cons, ih]

end Input

namespace Machine

/-! ### Machines that differ in their input -/

/-- The machine with another source of input. -/
def withInput (m : Machine) (source : Input) : Machine := { m with input := source }

/-- How often the first `k` steps ask for a value of the input. -/
def requests (k : Nat) (m : Machine) : Nat := (m.starts k).countP asks

/-- The first `k` steps of two machines are **the same but for the input**: each is answered alike,
and leaves states that differ at most in their sources. -/
def SameRun (k : Nat) (m n : Machine) : Prop :=
  List.Forall₂ (fun x y => x.1 = y.1 ∧ y.2 = x.2.withInput y.2.input)
    (m.history (List.replicate k .step)) (n.history (List.replicate k .step))

variable {m : Machine}

/-- The source of the input decides nothing but the answer. -/
theorem agrees_withInput {source : Input}
    (h : m.asks = true → source.next.map Prod.fst = m.input.next.map Prod.fst) :
    Agrees m (m.withInput source) where
  pc := rfl
  relativeBase := rfl
  halted := rfl
  inRange _ := Iff.rfl
  get _ _ := rfl
  answer := h

theorem apply_withInput (e : Effect) (m : Machine) (source : Input) :
    e.apply (m.withInput source) = (e.apply m).withInput (e.onInput source) := rfl

/-- A step that gets the same answer is the same but for the input. -/
theorem perform_withInput {source : Input}
    (h : m.asks = true → source.next.map Prod.fst = m.input.next.map Prod.fst) :
    (m.withInput source).perform .step =
      ((m.perform .step).1, (m.perform .step).2.withInput (m.effect.onInput source)) := by
  rw [(agrees_withInput h).perform_step, apply_withInput, perform_step]

theorem requests_succ (k : Nat) (m : Machine) :
    m.requests (k + 1) = (m.perform .step).2.requests k + if m.asks then 1 else 0 :=
  List.countP_cons

/-- **Sources with the same answers give the same steps**, as long as there is no further
request. -/
theorem sameRun_of_answers {source : Input} {n k : Nat}
    (h : m.input.answers n = source.answers n) (hk : m.requests k ≤ n) :
    SameRun k m (m.withInput source) := by
  induction k generalizing m source n with
  | zero => exact .nil
  | succ k ih =>
      rw [requests_succ] at hk
      -- a step that asks uses up one answer, and any other leaves the sources alone
      obtain ⟨n', hn', hnext, hrest⟩ : ∃ n', (m.perform .step).2.requests k ≤ n' ∧
          (m.asks = true → source.next.map Prod.fst = m.input.next.map Prod.fst) ∧
          (m.effect.onInput m.input).answers n' = (m.effect.onInput source).answers n' := by
        cases hasks : m.asks with
        | false =>
            refine ⟨n, ?_, ?_, ?_⟩
            · rw [hasks] at hk
              simpa using hk
            · intro hfalse
              cases hfalse
            · simpa [Effect.onInput, hasks] using h
        | true =>
            rw [hasks, if_pos rfl] at hk
            obtain ⟨n, rfl⟩ : ∃ j, n = j + 1 := ⟨n - 1, by omega⟩
            rw [Input.answers_succ, Input.answers_succ, List.cons.injEq] at h
            refine ⟨n, by omega, fun _ => h.1.symm, ?_⟩
            simpa [Effect.onInput, hasks] using h.2
      have hstep := perform_withInput hnext
      rw [← input_step] at hrest
      have hsteps := ih hrest hn'
      refine .cons ?_ ?_
      · rw [hstep]
        exact ⟨rfl, rfl⟩
      · rw [hstep]
        exact hsteps

/-- **Input matters only through its answers.**  Sources that give the same first `n` answers lead
to the same `k` steps, if those ask at most `n` times.  So a constant cannot be told from a queue
with enough copies of it in front, and the values of a queue behind those that are asked for have no
influence. -/
theorem run_determined_by_answers (m : Machine) (k : Nat) :
    (∀ (source source' : Input) (n : Nat), source.answers n = source'.answers n →
      (m.withInput source).requests k ≤ n →
      SameRun k (m.withInput source) (m.withInput source')) ∧
    (∀ (v : Cell) (n : Nat) (rest : List Cell), (m.withInput (.constant v)).requests k ≤ n →
      SameRun k (m.withInput (.constant v))
        (m.withInput (.queue (List.replicate n v ++ rest)))) ∧
    (∀ vs ws ws' : List Cell, (m.withInput (.queue (vs ++ ws))).requests k ≤ vs.length →
      SameRun k (m.withInput (.queue (vs ++ ws))) (m.withInput (.queue (vs ++ ws')))) := by
  have hgeneral : ∀ (source source' : Input) (n : Nat), source.answers n = source'.answers n →
      (m.withInput source).requests k ≤ n →
      SameRun k (m.withInput source) (m.withInput source') := by
    intro source source' n h hk
    exact @sameRun_of_answers (m.withInput source) source' n k h hk
  refine ⟨hgeneral, ?_, ?_⟩
  · intro v n rest hk
    exact hgeneral _ _ n (Input.answers_replicate v n rest) hk
  · intro vs ws ws' hk
    exact hgeneral _ _ vs.length (Input.answers_append vs ws ws') hk

/-- A program whose first request is lost to a store out of range, and whose second one is answered:
a constant, and a queue with two copies of it in front. -/
theorem run_determined_by_answers_lost_value :
    (history { memory := ⟨#[3, 134217728, 3, 0, 99]⟩, input := .constant 5 }
        (List.replicate 3 .step)).map Prod.fst =
        [.fault (.addressOutOfRange 134217728), .status .running, .status .halted] ∧
      requests 3 { memory := ⟨#[3, 134217728, 3, 0, 99]⟩, input := .constant 5 } = 2 ∧
      SameRun 3 { memory := ⟨#[3, 134217728, 3, 0, 99]⟩, input := .constant 5 }
        { memory := ⟨#[3, 134217728, 3, 0, 99]⟩, input := .queue [5, 5, 8] } := by
  have hrequests :
      requests 3 { memory := ⟨#[3, 134217728, 3, 0, 99]⟩, input := .constant 5 } = 2 := rfl
  refine ⟨rfl, hrequests, ?_⟩
  exact (run_determined_by_answers
    { memory := ⟨#[3, 134217728, 3, 0, 99]⟩, input := .queue [] } 3).1
    (.constant 5) (.queue [5, 5, 8]) 2 rfl (Nat.le_of_eq hrequests)

end Machine

end IntcodeMachine

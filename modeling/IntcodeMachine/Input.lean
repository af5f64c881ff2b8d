/-
**Input.**

The machine takes its input one value at a time, from one of two kinds of source: a constant, which
answers every request with the same value, or a queue, which hands out its values first in, first
out and has no answer once it is empty.  A queue can be fed while the machine runs.

Main definitions:

* `Input` — the sources;
* `Input.next` — **the answer to one request**, and the source after it;
* `Input.take` — the answers to several requests;
* `Input.feed` — more values for a queue;
* `Input.pending` — the values waiting in a queue.

Main results:

* `Input.take_of_length_le` — as many requests as there are values empty a queue, in order.
-/

import IntcodeMachine.Cell

set_option relaxedAutoImplicit false
set_option autoImplicit false

namespace IntcodeMachine

/-- A source of input values. -/
inductive Input where
  /-- Every request is answered with `value`. -/
  | constant (value : Cell)
  /-- Requests are answered with the pending values in order. -/
  | queue (pending : List Cell)
deriving DecidableEq

namespace Input

/-- The answer to a request, with the source after it; an empty queue has none. -/
def next : Input → Option (Cell × Input)
  | constant value => some (value, constant value)
  | queue [] => none
  | queue (value :: rest) => some (value, queue rest)

/-- The answers to at most `n` requests, with the source after them; requests end when there is no
answer. -/
def take : Nat → Input → List Cell × Input
  | 0, source => ([], source)
  | n + 1, source =>
      match source.next with
      | none => ([], source)
      | some (value, source) =>
          let (values, source) := take n source
          (value :: values, source)

/-- Appends values to a queue; a constant stays as it is. -/
def feed (values : List Cell) : Input → Input
  | constant value => constant value
  | queue pending => queue (pending ++ values)

/-- The values waiting in a queue; none for a constant. -/
def pending : Input → List Cell
  | constant _ => []
  | queue pending => pending

@[simp] theorem next_constant (v : Cell) : (constant v).next = some (v, constant v) := rfl

@[simp] theorem next_queue_nil : (queue []).next = none := rfl

@[simp] theorem next_queue_cons (v : Cell) (vs : List Cell) :
    (queue (v :: vs)).next = some (v, queue vs) := rfl

@[simp] theorem pending_queue (vs : List Cell) : (queue vs).pending = vs := rfl

@[simp] theorem feed_queue (vs ws : List Cell) : (queue vs).feed ws = queue (vs ++ ws) := rfl

/-- As many requests as there are values empty a queue, in order; there is no answer to more. -/
theorem take_of_length_le {vs : List Cell} {n : Nat} (h : vs.length ≤ n) :
    take n (queue vs) = (vs, queue []) := by
  induction vs generalizing n with
  | nil => cases n <;> rfl
  | cons v vs ih =>
      rw [List.length_cons] at h
      obtain ⟨k, rfl⟩ : ∃ k, n = k + 1 := ⟨n - 1, by omega⟩
      simp only [take, next_queue_cons, ih (Nat.le_of_succ_le_succ h)]

end Input

end IntcodeMachine

/-
**Input that arrives while the program runs.**

A queue may be fed at any time, between any two steps.  Nothing is lost on the way: the values that
the program has taken, followed by those that are still pending, are the values of the queue at the
start followed by all that were fed, in order.  And the times at which they were fed do not matter,
as long as the program never asks in vain: to feed all values at the start, and then to make the
same steps, gives the same answers and ends in the same state.

Main definitions:

* `Command.fed`, `Command.isFeed` — the values that a command feeds, and whether it is a feeding;
* `Machine.taken`, `Machine.received` — the values that a command takes from the input, and those
  taken in the course of several commands;
* `Machine.replies` — the answers to the commands other than feedings.

Main results:

* `Machine.received_append_pending` — **nothing is lost, repeated or put out of order**;
* `Machine.perform_feed` — a command does not see the values behind those that are pending;
* `Machine.feed_first` — **to feed earlier changes nothing**;
* `Machine.fed_in_order` — both together.
-/

import IntcodeMachine.Proofs.Input.Answers

set_option relaxedAutoImplicit false
set_option autoImplicit false

namespace IntcodeMachine

namespace Command

/-- The values that a command feeds to the input. -/
def fed : Command → List Cell
  | feed vs => vs
  | _ => []

/-- Whether a command feeds the input. -/
def isFeed : Command → Bool
  | feed _ => true
  | _ => false

end Command

/-- What is fed to a source that has an answer does not change the answer. -/
theorem Input.next_feed {source rest : Input} {v : Cell} (h : source.next = some (v, rest))
    (vs : List Cell) : (source.feed vs).next = some (v, rest.feed vs) := by
  cases source with
  | constant w =>
      cases h
      rfl
  | queue q =>
      cases q with
      | nil => cases h
      | cons w q =>
          cases h
          rfl

namespace Machine

/-! ### What is taken from the input -/

/-- The values that a command takes from the input: a step takes one if it is an input instruction
that gets as far as to ask, and there is one. -/
def taken (m : Machine) : Command → List Cell
  | .step => if m.asks then (m.input.next.map Prod.fst).toList else []
  | _ => []

/-- The values taken from the input in the course of several commands, in order. -/
def received (m : Machine) : List Command → List Cell
  | [] => []
  | c :: cs => m.taken c ++ (m.perform c).2.received cs

/-- The answers to those commands that are not feedings. -/
def replies (m : Machine) : List Command → List Reply
  | [] => []
  | c :: cs =>
      if c.isFeed then (m.perform c).2.replies cs
      else (m.perform c).1 :: (m.perform c).2.replies cs

variable {m : Machine}

/-- A patch does not look at the input, and leaves it alone. -/
theorem perform_patch_withInput (m : Machine) (source : Input) (a : Nat) (v : Cell) :
    (m.withInput source).perform (.patch a v) =
      ((m.perform (.patch a v)).1, (m.perform (.patch a v)).2.withInput source) := by
  by_cases ha : m.memory.InRange a
  · have ha' : (m.withInput source).memory.InRange a := ha
    simp only [perform, patch, onMemory_write_of_inRange ha, onMemory_write_of_inRange ha']
    rfl
  · have ha' : ¬(m.withInput source).memory.InRange a := ha
    simp only [perform, patch, onMemory_write_of_not_inRange ha, onMemory_write_of_not_inRange ha']

theorem input_patch (m : Machine) (a : Nat) (v : Cell) :
    (m.perform (.patch a v)).2.input = m.input := by
  have h := perform_patch_withInput m m.input a v
  exact congrArg (fun r => r.2.input) h

/-- What a command takes comes from the front of the queue, and what it feeds goes to the end. -/
theorem taken_append_pending {q : List Cell} (hq : m.input = .queue q) (c : Command) :
    ∃ q', (m.perform c).2.input = .queue q' ∧ m.taken c ++ q' = q ++ c.fed := by
  cases c with
  | step =>
      rw [input_step]
      simp only [Effect.onInput, taken, effect_asks, hq, Command.fed, List.append_nil]
      split
      · cases q with
        | nil => exact ⟨[], rfl, rfl⟩
        | cons v vs => exact ⟨vs, rfl, rfl⟩
      · exact ⟨q, rfl, rfl⟩
  | patch a v =>
      refine ⟨q, ?_, ?_⟩
      · rw [input_patch, hq]
      · simp [taken, Command.fed]
  | feed vs =>
      refine ⟨q ++ vs, ?_, rfl⟩
      simp [perform, Machine.feed, hq]

/-- **Nothing is lost, repeated or put out of order**: what has been taken, followed by what is
pending, is what there was followed by what was fed. -/
theorem received_append_pending {q : List Cell} (hq : m.input = .queue q) (cs : List Command) :
    m.received cs ++ (m.after cs).input.pending = q ++ cs.flatMap Command.fed := by
  induction cs generalizing m q with
  | nil => simp [received, after, hq]
  | cons c cs ih =>
      obtain ⟨q', hq', htaken⟩ := taken_append_pending hq c
      calc m.received (c :: cs) ++ (m.after (c :: cs)).input.pending
          = m.taken c ++ ((m.perform c).2.received cs ++
              ((m.perform c).2.after cs).input.pending) := by
            rw [received, after, List.append_assoc]
        _ = m.taken c ++ q' ++ cs.flatMap Command.fed := by rw [ih hq', List.append_assoc]
        _ = q ++ (c :: cs).flatMap Command.fed := by
            rw [htaken, List.flatMap_cons, List.append_assoc]

/-! ### Feeding ahead -/

theorem feed_feed (m : Machine) (vs ws : List Cell) :
    (m.feed vs).feed ws = m.feed (vs ++ ws) := by
  obtain ⟨memory, pc, base, input, output, halted⟩ := m
  cases input with
  | constant v => rfl
  | queue q => simp [Machine.feed]

@[simp] theorem feed_nil (m : Machine) : m.feed [] = m := by
  obtain ⟨memory, pc, base, input, output, halted⟩ := m
  cases input with
  | constant v => rfl
  | queue q => simp [Machine.feed]

/-- A step that asks is answered, unless it says that it was not. -/
theorem next_of_asks (h : ∀ pc, (m.perform .step).1 ≠ .fault (.inputExhausted pc))
    (hasks : m.asks = true) : ∃ v rest, m.input.next = some (v, rest) := by
  cases hnext : m.input.next with
  | some r => exact ⟨r.1, r.2, rfl⟩
  | none =>
      have hfault : Check.input.fault? m = some (.inputExhausted m.pc) := by
        simp only [Check.fault?, hnext]
      have hfirst := firstFault_of_mem_tried (of_decide_eq_true hasks) hfault
      refine absurd ?_ (h m.pc)
      rw [perform_step]
      simp only [reply, hfirst]

/-- A step that does not ask in vain does not see the values behind those that are pending. -/
theorem perform_step_feed (h : ∀ pc, (m.perform .step).1 ≠ .fault (.inputExhausted pc))
    (vs : List Cell) :
    (m.feed vs).perform .step = ((m.perform .step).1, (m.perform .step).2.feed vs) := by
  have hanswer : m.asks = true →
      (m.input.feed vs).next.map Prod.fst = m.input.next.map Prod.fst := by
    intro hasks
    obtain ⟨v, rest, hnext⟩ := next_of_asks h hasks
    rw [Input.next_feed hnext vs, hnext]
    rfl
  have hinput : m.effect.onInput (m.input.feed vs) = (m.effect.onInput m.input).feed vs := by
    simp only [Effect.onInput, effect_asks]
    split
    · next hasks =>
        obtain ⟨v, rest, hnext⟩ := next_of_asks h hasks
        rw [Input.rest_of_next hnext, Input.rest_of_next (Input.next_feed hnext vs)]
    · rfl
  have hstep := perform_withInput hanswer
  rw [hinput, ← input_step] at hstep
  exact hstep

/-- No command that does not ask in vain sees the values behind those that are pending. -/
theorem perform_feed {c : Command} (hc : c.isFeed = false)
    (h : ∀ pc, (m.perform c).1 ≠ .fault (.inputExhausted pc)) (vs : List Cell) :
    (m.feed vs).perform c = ((m.perform c).1, (m.perform c).2.feed vs) := by
  cases c with
  | step => exact perform_step_feed h vs
  | patch a v =>
      have hfeed : (m.perform (.patch a v)).2.feed vs =
          (m.perform (.patch a v)).2.withInput (m.input.feed vs) := by
        rw [Machine.feed, input_patch, withInput]
      rw [hfeed]
      exact perform_patch_withInput m (m.input.feed vs) a v
  | feed ws => cases hc

/-- **To feed earlier changes nothing**, where no step asks in vain. -/
theorem feed_first {cs : List Command}
    (h : ∀ pc, .fault (.inputExhausted pc) ∉ m.replies cs) :
    (m.feed (cs.flatMap Command.fed)).replies (cs.filter fun c => !c.isFeed) = m.replies cs ∧
      (m.feed (cs.flatMap Command.fed)).after (cs.filter fun c => !c.isFeed) = m.after cs := by
  induction cs generalizing m with
  | nil => exact ⟨rfl, feed_nil m⟩
  | cons c cs ih =>
      cases hc : c.isFeed with
      | true =>
          -- the feeding is done already, together with those that follow
          obtain ⟨vs, rfl⟩ : ∃ vs, c = .feed vs := by
            cases c with
            | feed vs => exact ⟨vs, rfl⟩
            | _ => cases hc
          have hrest := ih (m := m.feed vs) h
          rw [feed_feed] at hrest
          exact hrest
      | false =>
          have hfed : c.fed = [] := by
            cases c with
            | feed vs => cases hc
            | _ => rfl
          have hreply : ∀ pc, (m.perform c).1 ≠ .fault (.inputExhausted pc) := by
            intro pc hpc
            refine h pc ?_
            rw [replies, hc, hpc]
            exact List.mem_cons_self
          have hrest := ih (m := (m.perform c).2) fun pc hpc => h pc (by
            rw [replies, hc]
            exact List.mem_cons_of_mem _ hpc)
          have hperform := perform_feed hc hreply (cs.flatMap Command.fed)
          rw [List.flatMap_cons, hfed, List.nil_append, List.filter_cons, hc]
          simp only [Bool.not_false, if_true, replies, after, hc, hperform, hrest.1, hrest.2]
          exact ⟨trivial, trivial⟩

/-- **Input arrives in order, and its times do not matter.**  What a program has taken and what is
still pending make up the queue and all that was fed.  If no step has asked in vain, to feed all
values first and then to give the other commands leads to the same answers and the same state. -/
theorem fed_in_order {m : Machine} {q : List Cell} (hq : m.input = .queue q) (cs : List Command) :
    m.received cs ++ (m.after cs).input.pending = q ++ cs.flatMap Command.fed ∧
      ((∀ pc, .fault (.inputExhausted pc) ∉ m.replies cs) →
        m.replies (.feed (cs.flatMap Command.fed) :: cs.filter fun c => !c.isFeed) =
            m.replies cs ∧
          m.after (.feed (cs.flatMap Command.fed) :: cs.filter fun c => !c.isFeed) =
            m.after cs) :=
  ⟨received_append_pending hq cs, fun h => feed_first h⟩

/-- Two values are read and the second one is output, which arrives after the first step together
with a third. -/
theorem fed_in_order_between_steps :
    received { memory := ⟨#[3, 7, 3, 7, 4, 7, 99]⟩, input := .queue [1] }
        [.step, .feed [2, 3], .step, .step] = [1, 2] ∧
      replies { memory := ⟨#[3, 7, 3, 7, 4, 7, 99]⟩, input := .queue [1] }
          [.feed [2, 3], .step, .step, .step] =
        replies { memory := ⟨#[3, 7, 3, 7, 4, 7, 99]⟩, input := .queue [1] }
          [.step, .feed [2, 3], .step, .step] ∧
      after { memory := ⟨#[3, 7, 3, 7, 4, 7, 99]⟩, input := .queue [1] }
          [.feed [2, 3], .step, .step, .step] =
        after { memory := ⟨#[3, 7, 3, 7, 4, 7, 99]⟩, input := .queue [1] }
          [.step, .feed [2, 3], .step, .step] := by
  have hreplies : replies { memory := ⟨#[3, 7, 3, 7, 4, 7, 99]⟩, input := .queue [1] }
      [.step, .feed [2, 3], .step, .step] = List.replicate 3 (.status .running) := rfl
  refine ⟨rfl, (fed_in_order rfl [.step, .feed [2, 3], .step, .step]).2 fun pc hpc => ?_⟩
  rw [hreplies] at hpc
  simp at hpc

end Machine

end IntcodeMachine

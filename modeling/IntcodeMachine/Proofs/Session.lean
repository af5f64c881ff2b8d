/-
**Sessions.**

A machine is used through four calls: make a step, run and yield the output as text, run and yield
it as values, and patch a cell.  A session is any finite sequence of calls that return, whether with
a result or with a fault.  Whatever is called, memory never becomes shorter nor longer than it may,
the output only grows at its end, a program halts only by an instruction to halt, and a program that
has halted is done: only patches still change the machine, and only its memory.

A call that runs is a number of steps, so it is enough to know what one step does and what a patch
does, and to follow both through the calls (`Machine.Progresses`).

Main definitions:

* `Call`, `Answer`, `Machine.call` — the calls, and what they return;
* `Event`, `Machine.Session` — **sessions**, as lists of calls with their answers and states;
* `Machine.emitted`, `Machine.Halts` — what a step appends to the output, and whether the program
  halts in it;
* `Machine.Progresses` — how a state may change in the course of given steps.

Main results:

* `Machine.progresses_step`, `Machine.progresses_patch` — a step and a patch;
* `Machine.progresses_call`, `Machine.Session.progresses` — a call, and a whole session;
* `Machine.call_of_idle` — calls on a machine whose step fails and leaves it as it is;
* `Machine.session_invariants` — **what holds throughout every session**.
-/

import IntcodeMachine.Machine.Trace
import IntcodeMachine.Proofs.Step.Effect

set_option relaxedAutoImplicit false
set_option autoImplicit false

namespace IntcodeMachine

/-! ### Calls -/

/-- What can be called on a machine. -/
inductive Call where
  | step
  | run
  | runValues
  | patch (a : Nat) (v : Cell)
deriving DecidableEq

/-- What a call returns. -/
inductive Answer where
  | status (s : Machine.Status)
  | text (s : String)
  | values (vs : Array Cell)
  | done
  | fault (e : Fault)
deriving DecidableEq

namespace Machine

/-- The state in which an action has ended. -/
def endState {α : Type} : Outcome α → Machine
  | .ok _ m => m
  | .error _ m => m

/-- The answer of a call that has ended, with the state that it leaves. -/
def answered {α : Type} (answer : α → Answer) : Outcome α → Answer × Machine
  | .ok a m => (answer a, m)
  | .error e m => (.fault e, m)

/-- **A call**, with the answer and the state after it.  A run that is not over after `n` steps has
not returned. -/
def call (n : Nat) (m : Machine) : Call → Option (Answer × Machine)
  | .step => some (answered .status (step m))
  | .run => (runText n m).map (answered .text)
  | .runValues => (runValues n m).map (answered .values)
  | .patch a v => some (answered (fun _ => .done) (patch a v m))

/-- The number of steps that a run makes, if it is over after at most `n` of them. -/
def runLength : Nat → Machine → Nat
  | 0, _ => 0
  | n + 1, m =>
      match step m with
      | .ok .running m' => runLength n m' + 1
      | _ => 1

/-- The number of steps that a call makes. -/
def callLength (n : Nat) (m : Machine) : Call → Nat
  | .step => 1
  | .run => m.runLength n
  | .runValues => m.runLength n
  | .patch _ _ => 0

end Machine

/-- A call in a session. -/
structure Event where
  before : Machine
  call : Call
  /-- The number of steps that the call makes. -/
  steps : Nat
  answer : Answer
  after : Machine

/-- The states in which the steps of a call begin. -/
def Event.starts (e : Event) : List Machine := e.before.starts e.steps

namespace Machine

/-- **A session**: calls that return, one after the other, whatever they return. -/
inductive Session : Machine → List Event → Machine → Prop
  | nil (m : Machine) : Session m [] m
  | cons {m m' m'' : Machine} {n : Nat} {c : Call} {r : Answer} {es : List Event}
      (h : m.call n c = some (r, m')) (hs : Session m' es m'') :
      Session m (⟨m, c, m.callLength n c, r, m'⟩ :: es) m''

/-! ### What a step does -/

/-- The value that a step appends to the output, if it executes an output instruction without a
fault; any other step appends none. -/
def emitted (m : Machine) : List Cell :=
  match step m, m.instruction? with
  | .ok _ _, some (.output operand) => [m.value 1 operand]
  | _, _ => []

/-- The program **halts** in the step from `m`. -/
def Halts (m : Machine) : Prop := m.halted = false ∧ (m.perform .step).2.halted = true

variable {m m' m'' : Machine} {ss ts : List Machine}

/-- A step that succeeds has found an instruction. -/
theorem instruction?_of_step {s : Status} {i : Instruction} (h : step m = .ok s m')
    (hd : Instruction.decode m.pc (m.memory.get m.pc) = .ok i) : m.instruction? = some i := by
  have hcs := holds_of_step h
  have hrunning : m.halted = false := hcs .running (by simp [checks, wordChecks])
  have hword : m.memory.InRange m.pc := hcs (.word m.pc) (by simp [checks, wordChecks])
  rw [instruction?, if_pos ⟨hrunning, hword⟩, hd]
  rfl

theorem emits_effect (m : Machine) : m.effect.emits = m.emitted := by
  cases h : step m with
  | ok s m' =>
      obtain ⟨i, hd, -⟩ := transition_of_step h
      have hfault := firstFault_eq_none_iff.2 (holds_of_step h)
      simp only [effect, emitted, executed?_of_decode hfault hd, h, instruction?_of_step h hd]
      cases i <;> rfl
  | error e m' =>
      have hfault := (step_error_iff.1 h).1
      simp only [effect, emitted, executed?_of_fault hfault, h]
      rfl

/-- **A program halts only by an instruction to halt**, and moves past its word. -/
theorem word_of_halts (h : m.Halts) :
    0 ≤ (m.memory.get m.pc).toInt ∧ (m.memory.get m.pc).toInt % 100 = 99 ∧
      (m.perform .step).2.pc = m.pc + 1 := by
  obtain ⟨hrunning, hhalted⟩ := h
  rw [perform_step] at hhalted ⊢
  simp only [Effect.apply, hrunning, Bool.false_or] at hhalted ⊢
  unfold effect at hhalted ⊢
  cases hi : m.executed? with
  | none =>
      rw [hi] at hhalted
      cases hhalted
  | some i =>
      rw [hi] at hhalted
      obtain ⟨hcs, hd⟩ := decode_of_executed? hi
      cases i with
      | halt =>
          have hcode := Instruction.code_of_decodeOpcode (Instruction.decodeOpcode_of_decode hd)
          have hpc : m.progress.pc = m.past .halt := by
            rw [progress_of_holds hcs]
            refine pc_past hd ?_
            intro test condition target h
            cases h
          simp only [Instruction.opcode, Opcode.code] at hcode
          exact ⟨hcode.1, by omega, hpc⟩
      | _ => cases hhalted

/-! ### How a state changes -/

/-- **How a state may change** from `m` to `m'`, in the course of steps that begin in the states
`ss`, and of patches between them. -/
structure Progresses (m : Machine) (ss : List Machine) (m' : Machine) : Prop where
  size_le : m.memory.size ≤ m'.memory.size
  size_bounded : m'.memory.size ≤ max m.memory.size Memory.maxCells
  output : m'.output.toList = m.output.toList ++ ss.flatMap emitted
  halts : m.halted = false → m'.halted = true → ∃ s ∈ ss, s.Halts
  unchanged : m.halted = true → m' = { m with memory := m'.memory }

theorem Progresses.refl (m : Machine) : Progresses m [] m where
  size_le := Nat.le_refl _
  size_bounded := Nat.le_max_left _ _
  output := by simp
  halts := by
    intro hm hm'
    rw [hm] at hm'
    cases hm'
  unchanged := fun _ => rfl

theorem Progresses.halted (h : Progresses m ss m') (hm : m.halted = true) : m'.halted = true := by
  rw [h.unchanged hm]
  exact hm

theorem Progresses.trans (h : Progresses m ss m')
    (h' : Progresses m' ts m'') : Progresses m (ss ++ ts) m'' where
  size_le := Nat.le_trans h.size_le h'.size_le
  size_bounded := by
    have hle := h.size_bounded
    have hle' := h'.size_bounded
    omega
  output := by rw [h'.output, h.output, List.flatMap_append, List.append_assoc]
  halts := by
    intro hm hm''
    -- the program came to its halt in the one half or in the other
    cases hm' : m'.halted with
    | true =>
        obtain ⟨s, hs, hhalts⟩ := h.halts hm hm'
        exact ⟨s, List.mem_append_left ts hs, hhalts⟩
    | false =>
        obtain ⟨s, hs, hhalts⟩ := h'.halts hm' hm''
        exact ⟨s, List.mem_append_right ss hs, hhalts⟩
  unchanged := by
    intro hm
    have hm' := h.unchanged hm
    have hm'' := h'.unchanged (h.halted hm)
    rw [hm'] at hm''
    exact hm''

theorem perform_step_of_halted (h : m.halted = true) :
    m.perform .step = (.fault .alreadyHalted, m) := by
  simp only [perform, step_of_halted h]

/-- **A step.** -/
theorem progresses_step (m : Machine) : Progresses m [m] (m.perform .step).2 where
  size_le := by
    rw [perform_step]
    exact m.effect.size_le_size_onCells m.memory
  size_bounded := by
    rw [perform_step]
    have hcover := Memory.size_cover_le fun a ha => inRange_of_mem_effect_cells (m := m) ha
    simp only [Effect.apply, Effect.onCells]
    split
    · next a v hstore =>
        have ha : a < max m.memory.size Memory.maxCells :=
          inRange_of_mem_effect_cells (mem_cells_of_store hstore)
        rw [Memory.size_set]
        omega
    · exact hcover
  output := by
    rw [perform_step]
    simp [Effect.apply, emits_effect]
  halts := fun hm hm' => ⟨m, List.mem_cons_self, hm, hm'⟩
  unchanged := by
    intro hm
    rw [perform_step_of_halted hm]

/-- **A patch.** -/
theorem progresses_patch (m : Machine) (a : Nat) (v : Cell) :
    Progresses m [] (endState (patch a v m)) := by
  by_cases ha : m.memory.InRange a
  · have hpatch : patch a v m = .ok () { m with memory := m.memory.set a v } :=
      onMemory_write_of_inRange ha
    have hlt : a < max m.memory.size Memory.maxCells := ha
    rw [hpatch]
    exact {
      size_le := by
        simp only [endState, Memory.size_set]
        omega
      size_bounded := by
        simp only [endState, Memory.size_set]
        omega
      output := by simp [endState]
      halts := by
        intro hm hm'
        rw [show m.halted = true from hm'] at hm
        cases hm
      unchanged := fun _ => rfl }
  · have hpatch : patch a v m = .error (.addressOutOfRange a) m := onMemory_write_of_not_inRange ha
    rw [hpatch]
    exact .refl m

/-- Several steps. -/
theorem progresses_steps (k : Nat) (m : Machine) :
    Progresses m (m.starts k) (m.after (List.replicate k .step)) := by
  induction k generalizing m with
  | zero => exact .refl m
  | succ k ih => exact (progresses_step m).trans (ih (m.perform .step).2)

/-! ### Calls and sessions -/

theorem perform_step_snd (m : Machine) : (m.perform .step).2 = endState (step m) := by
  unfold perform
  cases step m <;> rfl

/-- **A run is a number of steps.** -/
theorem endState_of_run {n : Nat} {o : Outcome Unit} (h : run n m = some o) :
    endState o = m.after (List.replicate (m.runLength n) .step) := by
  induction n generalizing m with
  | zero => cases h
  | succ n ih =>
      unfold run at h
      unfold runLength
      have hperform := perform_step_snd m
      cases hs : step m with
      | ok s m' =>
          rw [hs] at h hperform
          cases s with
          | running =>
              -- what is left of the run is a run from the state after the step
              simp only [List.replicate_succ, after, hperform]
              exact ih h
          | halted =>
              cases h
              exact hperform.symm
      | error e m' =>
          rw [hs] at h hperform
          cases h
          exact hperform.symm

theorem endState_finish {α : Type} (result : Array Cell → Except Fault α) (o : Outcome Unit) :
    endState (finish result o) = endState o := by
  cases o with
  | ok u m =>
      simp only [finish]
      split <;> rfl
  | error e m => rfl

theorem endState_of_answered {α : Type} {answer : α → Answer} {o : Outcome α} {r : Answer}
    (h : answered answer o = (r, m')) : m' = endState o := by
  cases o <;> cases h <;> rfl

theorem progresses_of_run {α : Type} {n : Nat} {result : Array Cell → Except Fault α}
    {answer : α → Answer} {r : Answer}
    (h : ((run n m).map (finish result)).map (answered answer) = some (r, m')) :
    Progresses m (m.starts (m.runLength n)) m' := by
  rw [Option.map_map, Option.map_eq_some_iff] at h
  obtain ⟨o, ho, hr⟩ := h
  rw [endState_of_answered hr, endState_finish, endState_of_run ho]
  exact progresses_steps _ m

/-- **A call**, of whatever kind. -/
theorem progresses_call {n : Nat} {c : Call} {r : Answer} (h : m.call n c = some (r, m')) :
    Progresses m (m.starts (m.callLength n c)) m' := by
  cases c with
  | step =>
      rw [endState_of_answered (Option.some.inj h), ← perform_step_snd]
      exact progresses_steps 1 m
  | run => exact progresses_of_run h
  | runValues => exact progresses_of_run h
  | patch a v =>
      rw [endState_of_answered (Option.some.inj h)]
      exact progresses_patch m a v

/-- **A session.** -/
theorem Session.progresses {es : List Event} (h : Session m es m') :
    Progresses m (es.flatMap Event.starts) m' := by
  induction h with
  | nil m => exact .refl m
  | cons h _ ih => exact (progresses_call h).trans ih

/-- **On a machine whose step fails and leaves it as it is**, every call but a patch fails in the
same way. -/
theorem call_of_idle {e : Fault} {c : Call} (hstep : step m = .error e m)
    (hc : ∀ a v, c ≠ .patch a v) (n : Nat) : m.call (n + 1) c = some (.fault e, m) := by
  have hrun : run (n + 1) m = some (.error e m) := by rw [run, hstep]
  cases c with
  | step =>
      rw [call, hstep]
      rfl
  | run =>
      rw [call, runText, hrun]
      rfl
  | runValues =>
      rw [call, runValues, hrun]
      rfl
  | patch a v => exact absurd rfl (hc a v)

/-- What such a call has returned, whatever number of steps it was allowed. -/
theorem answer_of_idle {e : Fault} {n : Nat} {c : Call} {r : Answer} (hstep : step m = .error e m)
    (hc : ∀ a v, c ≠ .patch a v) (h : m.call n c = some (r, m')) : r = .fault e ∧ m' = m := by
  cases n with
  | zero =>
      -- without a step a run does not return, and a call of the step is always allowed one
      cases c with
      | step =>
          cases h.symm.trans (call_of_idle hstep hc 0)
          exact ⟨rfl, rfl⟩
      | run => cases h
      | runValues => cases h
      | patch a v => exact absurd rfl (hc a v)
  | succ n =>
      cases h.symm.trans (call_of_idle hstep hc n)
      exact ⟨rfl, rfl⟩

/-- Once the program has halted, every later call but a patch is refused, and changes nothing. -/
theorem Session.refused {es : List Event} (h : Session m es m') (hm : m.halted = true) :
    ∀ e ∈ es, (∀ a v, e.call ≠ .patch a v) →
      e.answer = .fault .alreadyHalted ∧ e.after = e.before := by
  induction h with
  | nil m =>
      intro e he
      cases he
  | cons h _ ih =>
      intro e he hc
      rcases List.mem_cons.1 he with rfl | he
      · exact answer_of_idle (step_of_halted hm) hc h
      · exact ih ((progresses_call h).halted hm) e he hc

/-- **What holds throughout a session** from `m` to `m'` of a machine that was built from the
program `p`. -/
structure Lasting (p : List Cell) (m : Machine) (es : List Event) (m' : Machine) : Prop where
  /-- Memory never becomes shorter. -/
  size_le : m.memory.size ≤ m'.memory.size
  /-- Memory is never longer than the program or the size that it may grow to. -/
  size_bounded : m'.memory.size ≤ max p.length Memory.maxCells
  /-- The output grows at its end, by one value for each step that executes an output instruction
  without a fault. -/
  output : m'.output.toList = m.output.toList ++ (es.flatMap Event.starts).flatMap emitted
  /-- A program that has come to a halt has done so in one of the steps. -/
  halts : m.halted = false → m'.halted = true → ∃ s ∈ es.flatMap Event.starts, s.Halts
  /-- A step in which the program halts has found an instruction to halt, and moves past it. -/
  halt_word : ∀ s ∈ es.flatMap Event.starts, s.Halts →
    0 ≤ (s.memory.get s.pc).toInt ∧ (s.memory.get s.pc).toInt % 100 = 99 ∧
      (s.perform .step).2.pc = s.pc + 1
  /-- Once the program has halted it stays so, and at most memory changes. -/
  unchanged : m.halted = true → m'.halted = true ∧ m' = { m with memory := m'.memory }
  /-- Once the program has halted, every call but a patch is refused, and changes nothing. -/
  refused : m.halted = true → ∀ e ∈ es, (∀ a v, e.call ≠ .patch a v) →
    e.answer = .fault .alreadyHalted ∧ e.after = e.before

theorem size_of_load {p : List Cell} {input : Input} (h : load p input = .ok m) :
    m.memory.size = p.length := by
  unfold load Memory.ofProgram? at h
  split at h
  · next memory hmemory =>
      split at hmemory
      · cases hmemory
      · cases hmemory
        cases h
        exact List.size_toArray
  · cases h

/-- **What holds throughout every session**: from any state `m` that a session has reached, in any
further session. -/
theorem session_invariants {p : List Cell} {input : Input} {m₀ m m' : Machine}
    {es fs : List Event} (hload : load p input = .ok m₀) (hreached : Session m₀ es m)
    (hs : Session m fs m') : Lasting p m fs m' := by
  have hfirst := hreached.progresses
  have hthen := hs.progresses
  exact {
    size_le := hthen.size_le
    size_bounded := by
      have hsize := (hfirst.trans hthen).size_bounded
      rwa [size_of_load hload] at hsize
    output := hthen.output
    halts := hthen.halts
    halt_word := fun s _ hhalts => word_of_halts hhalts
    unchanged := fun hm => ⟨hthen.halted hm, hthen.unchanged hm⟩
    refused := hs.refused }

/-- A program that outputs a cell beyond its end and then a literal: a step, a run that halts, a
patch beyond the end, and a run that is refused. -/
theorem session_invariants_refused :
    ∃ m₀ m es, load [4, 6, 104, 65, 99] (.queue []) = .ok m₀ ∧ Session m₀ es m ∧
      es.map Event.call = [.step, .runValues, .patch 9 5, .run] ∧
      es.map Event.answer =
        [.status .running, .values #[0, 65], .done, .fault .alreadyHalted] ∧
      Lasting [4, 6, 104, 65, 99] m₀ es m := by
  have hload : load [4, 6, 104, 65, 99] (.queue []) =
      .ok { memory := ⟨#[4, 6, 104, 65, 99]⟩, input := .queue [] } := rfl
  have hs := Session.cons (m := { memory := ⟨#[4, 6, 104, 65, 99]⟩, input := .queue [] })
    (n := 0) (c := .step) rfl (.cons (n := 2) (c := .runValues) rfl
      (.cons (n := 0) (c := .patch 9 5) rfl (.cons (n := 1) (c := .run) rfl (.nil _))))
  exact ⟨_, _, _, hload, hs, rfl, rfl, session_invariants hload (.nil _) hs⟩

end Machine

end IntcodeMachine

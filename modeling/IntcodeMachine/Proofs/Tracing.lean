/-
**Runs with a trace.**

A step that keeps a trace makes its entry in the middle: after the instruction was decoded, and before
its operands are fetched.  Nothing that the entry needs is changed in between, so the entry can be
told from the state in which the step begins, and nothing of the machine is changed by it.  Whether
the step then succeeds, halts or fails makes no difference to the entry; a step that fails to decode
an instruction has made none.

From one step this goes over to runs: a run that keeps a trace ends as the plain run does, and the
entries that it makes are those of its steps, in order, the last step included.

Main definitions:

* `Machine.Decodes` — the instruction that a step decodes;
* `Machine.ShowsStep`, `Machine.TraceLines` — **the line of a step, and the lines of several**;
* `Machine.entered?`, `Machine.traceEntries` — the entries of steps, told from the states in
  which they begin.

Main results:

* `Machine.stepTraced_eq` — **what a step with a trace does**;
* `Machine.runTraced_eq` — **what a run with a trace does**;
* `Machine.traceLines_traceEntries` — its entries are printed as the lines of its steps.
-/

import IntcodeMachine.Proofs.Runs
import IntcodeMachine.Proofs.Text.Table

set_option relaxedAutoImplicit false
set_option autoImplicit false

namespace IntcodeMachine

namespace Machine

/-! ### The lines of a trace -/

/-- The step from `m` **decodes** an instruction: the program has not halted, and the word at the
program counter is read and decoded. -/
def Decodes (m : Machine) (i : Instruction) : Prop :=
  m.halted = false ∧ ∃ operands memory, Memory.decodeAt m.pc m.memory = .ok (i, operands) memory

/-- The line of a step that decodes the instruction `i` in the state `m`: the address of the
instruction, set flush right, its text, set flush left, and the relative base. -/
def ShowsStep (m : Machine) (i : Instruction) (line : String) : Prop :=
  ∃ lead trail, Text.Spaces lead ∧ Text.Spaces trail ∧
    (lead ++ Address.text m.pc).length = max 12 (Address.text m.pc).length ∧
    (i.text ++ trail).length = max 44 i.text.length ∧
    line = lead ++ Address.text m.pc ++ " │ " ++ i.text ++ trail ++ " │ RB = " ++
      m.relativeBase.text ++ "\n"

/-- **The lines of some steps**, given by the states in which they begin: one for each that decodes
an instruction, in order, and none for the others. -/
inductive TraceLines : List Machine → List String → Prop
  | nil : TraceLines [] []
  | decoded {m : Machine} {ms : List Machine} {i : Instruction} {l : String} {ls : List String} :
      m.Decodes i → m.ShowsStep i l → TraceLines ms ls → TraceLines (m :: ms) (l :: ls)
  | undecoded {m : Machine} {ms : List Machine} {ls : List String} :
      (∀ i, ¬m.Decodes i) → TraceLines ms ls → TraceLines (m :: ms) ls

variable {m : Machine} {i : Instruction} {trace : Array TraceEntry}

/-- A step decodes the instruction that it goes on to execute. -/
theorem decodes_iff : m.Decodes i ↔ m.instruction? = some i := by
  rw [instruction?_eq_some_iff]
  constructor
  · rintro ⟨hrunning, operands, memory, hdecode⟩
    by_cases hword : m.memory.InRange m.pc
    · cases hd : Instruction.decode m.pc (m.memory.get m.pc) with
      | ok j =>
          rw [Memory.decodeAt_of_decode hword hd] at hdecode
          cases hdecode
          exact ⟨⟨hrunning, hword⟩, rfl⟩
      | error e =>
          rw [Memory.decodeAt_of_undecodable hword hd] at hdecode
          cases hdecode
    · rw [Memory.decodeAt_of_not_inRange hword] at hdecode
      cases hdecode
  · rintro ⟨⟨hrunning, hword⟩, hd⟩
    exact ⟨hrunning, _, _, Memory.decodeAt_of_decode hword hd⟩

/-- The line of an entry shows its step. -/
theorem showsStep_line (m : Machine) (i : Instruction) :
    m.ShowsStep i (TraceEntry.line ⟨m.pc, i, m.relativeBase⟩) := by
  obtain ⟨lead, haddress, hlead⟩ := Align.pad_right_eq 12 (Address.text m.pc)
  obtain ⟨trail, htext, htrail⟩ := Align.pad_left_eq 44 i.text
  refine ⟨lead, trail, hlead, htrail, ?_, ?_, ?_⟩
  · rw [← haddress, Align.length_pad]
  · rw [← htext, Align.length_pad]
  · rw [TraceEntry.line, haddress, htext]
    simp only [String.append_assoc]

/-! ### One step -/

/-- The entry of the step from `m`, if it makes one. -/
def entered? (m : Machine) : Option TraceEntry :=
  m.instruction?.map fun i => ⟨m.pc, i, m.relativeBase⟩

theorem untraced_bind_of_ok {α β : Type} {x : Exec α} {f : α → TracedExec β} {m' : Machine} {a : α}
    (h : x m = .ok a m') : (untraced x >>= f) (m, trace) = f a (m', trace) := by
  simp only [bind, EStateM.bind, untraced, h, besideTrace]

theorem untraced_bind_of_error {α β : Type} {x : Exec α} {f : α → TracedExec β} {m' : Machine}
    {e : Fault} (h : x m = .error e m') :
    (untraced x >>= f) (m, trace) = .error e (m', trace) := by
  simp only [bind, EStateM.bind, untraced, h, besideTrace]

theorem stepTraced_of_halted (h : m.halted = true) :
    stepTraced (m, trace) = besideTrace trace (step m) := by
  have hrefused : requireRunning m = .error .alreadyHalted m := if_pos h
  rw [step_of_halted h, stepTraced, untraced_bind_of_error hrefused]
  rfl

private theorem stepTraced_of_running (h : m.halted = false) :
    stepTraced (m, trace) = (untraced (onMemory (Memory.decodeAt m.pc)) >>= fun r => do
      untraced (jumpTo r.2)
      let base ← untraced base
      record ⟨m.pc, r.1, base⟩
      untraced (execute m.pc r.1)) (m, trace) := by
  have hallowed : requireRunning m = .ok () m := if_neg (by simp [h])
  rw [stepTraced, untraced_bind_of_ok hallowed,
    untraced_bind_of_ok (show counter m = .ok m.pc m from rfl)]

theorem stepTraced_of_not_inRange (h : m.halted = false) (hr : ¬m.memory.InRange m.pc) :
    stepTraced (m, trace) = besideTrace trace (step m) := by
  rw [step_of_not_inRange h hr, stepTraced_of_running h,
    untraced_bind_of_error (onMemory_of_error (Memory.decodeAt_of_not_inRange hr))]
  rfl

theorem stepTraced_of_undecodable {e : Fault} (h : m.halted = false) (hr : m.memory.InRange m.pc)
    (hd : Instruction.decode m.pc (m.memory.get m.pc) = .error e) :
    stepTraced (m, trace) = besideTrace trace (step m) := by
  rw [step_of_undecodable h hr hd, stepTraced_of_running h,
    untraced_bind_of_error (onMemory_of_error (Memory.decodeAt_of_undecodable hr hd))]
  rfl

/-- A step that decodes its instruction makes an entry, whatever becomes of the execution. -/
theorem stepTraced_of_decode (h : m.halted = false) (hr : m.memory.InRange m.pc)
    (hd : Instruction.decode m.pc (m.memory.get m.pc) = .ok i) :
    stepTraced (m, trace) = besideTrace (trace.push ⟨m.pc, i, m.relativeBase⟩) (step m) := by
  rw [step_of_decode h hr hd, stepTraced_of_running h,
    untraced_bind_of_ok (onMemory_of_ok (Memory.decodeAt_of_decode hr hd))]
  rfl

/-- **A step with a trace does what the plain step does**, and makes the entry of the instruction
that it decodes, if it does. -/
theorem stepTraced_eq (m : Machine) (trace : Array TraceEntry) :
    stepTraced (m, trace) = besideTrace (trace ++ m.entered?.toArray) (step m) := by
  cases hi : m.instruction? with
  | some i =>
      obtain ⟨⟨hrunning, hword⟩, hd⟩ := instruction?_eq_some_iff.1 hi
      rw [stepTraced_of_decode hrunning hword hd, entered?, hi, Array.push_eq_append]
      rfl
  | none =>
      rw [entered?, hi, Option.map_none, Option.toArray_none, Array.append_empty]
      cases hrunning : m.halted with
      | true => exact stepTraced_of_halted hrunning
      | false =>
          by_cases hword : m.memory.InRange m.pc
          · cases hd : Instruction.decode m.pc (m.memory.get m.pc) with
            | ok i =>
                rw [instruction?_eq_some_iff.2 ⟨⟨hrunning, hword⟩, hd⟩] at hi
                cases hi
            | error e => exact stepTraced_of_undecodable hrunning hword hd
          · exact stepTraced_of_not_inRange hrunning hword

/-! ### Runs -/

/-- The entries of some steps, given by the states in which they begin. -/
def traceEntries (ms : List Machine) : List TraceEntry := ms.filterMap entered?

theorem traceEntries_cons (m : Machine) (ms : List Machine) :
    traceEntries (m :: ms) = m.entered?.toList ++ traceEntries ms := by
  rw [traceEntries, List.filterMap_cons]
  cases m.entered? <;> rfl

/-- The entries of some steps are printed as their lines. -/
theorem traceLines_traceEntries (ms : List Machine) :
    TraceLines ms ((traceEntries ms).map TraceEntry.line) := by
  induction ms with
  | nil => exact .nil
  | cons m ms ih =>
      rw [traceEntries_cons, entered?]
      cases hi : m.instruction? with
      | none =>
          refine .undecoded ?_ ih
          intro i hdecodes
          rw [decodes_iff, hi] at hdecodes
          cases hdecodes
      | some i => exact .decoded (decodes_iff.2 hi) (showsStep_line m i) ih

/-- **A run with a trace ends as the plain run does**, and makes the entries of its steps. -/
theorem runTraced_eq (k : Nat) (m : Machine) (trace : Array TraceEntry) :
    runTraced k trace m =
      (run k m).map fun o => (trace ++ (traceEntries (m.starts (m.runLength k))).toArray, o) := by
  induction k generalizing m trace with
  | zero => rfl
  | succ k ih =>
      -- the entry of the first step comes first, whether or not the run goes on
      have hfirst : ∀ n, trace ++ (traceEntries (m.starts (n + 1))).toArray =
          trace ++ m.entered?.toArray ++
            (traceEntries ((m.perform .step).2.starts n)).toArray := by
        intro n
        rw [starts, traceEntries_cons, Array.append_assoc]
        cases m.entered? <;> simp
      have hlast : trace ++ (traceEntries (m.starts 1)).toArray =
          trace ++ m.entered?.toArray := (hfirst 0).trans Array.append_empty
      rw [runTraced, stepTraced_eq, run, runLength]
      cases hstep : step m with
      | ok s m' =>
          cases s with
          | running =>
              have hperform := perform_of_ok hstep
              simp only [besideTrace, ih, hfirst, hperform]
          | halted => simp only [besideTrace, Option.map_some, hlast]
      | error e m' => simp only [besideTrace, Option.map_some, hlast]

/-- A run that the steps conclude makes all of them. -/
theorem Concludes.runLength_eq {n k : Nat} {o : Outcome Unit} (h : Concludes m n o) (hk : n < k) :
    m.runLength k = n + 1 := by
  induction n generalizing m k with
  | zero =>
      obtain ⟨k, rfl⟩ : ∃ j, k = j + 1 := ⟨k - 1, by omega⟩
      have hlast := h.last
      rw [stepped_zero] at hlast
      rw [runLength]
      generalize step m = x at hlast
      cases hlast <;> rfl
  | succ n ih =>
      obtain ⟨k, rfl⟩ : ∃ j, k = j + 1 := ⟨k - 1, by omega⟩
      have hstep := step_of_perform (h.goesOn 0 (by omega))
      rw [stepped_zero] at hstep
      rw [runLength, hstep]
      exact congrArg (· + 1) (ih ((concludes_succ hstep).1 h) (by omega))

end Machine

end IntcodeMachine

/-
**Traces.**

A trace tells which instructions a run executes.  A step makes an entry once it has decoded its
instruction, before it executes it: the address of the instruction, the instruction itself, and the
relative base at that moment.  A step that cannot decode its instruction makes none, and a step that
fails later has made one.

Main definitions:

* `Machine.instruction?` — the instruction that the next step executes, if it can be decoded;
* `TraceEntry`, `TraceEntry.line` — an entry, and its line;
* `Machine.TracedExec` — an action on the machine that may make entries;
* `Machine.stepTraced` — **a step that makes its entry**;
* `Machine.runTraced` — **a run that keeps a trace**.

Main results:

* `Machine.instruction?_eq_some_iff` — when there is an instruction that the next step executes.
-/

import IntcodeMachine.Machine.Run
import IntcodeMachine.Text.Table

set_option relaxedAutoImplicit false
set_option autoImplicit false

namespace IntcodeMachine

/-- An entry of a trace. -/
structure TraceEntry where
  /-- The address of the instruction. -/
  pc : Nat
  /-- The instruction. -/
  instruction : Instruction
  /-- The relative base before the instruction is executed. -/
  relativeBase : Cell
deriving DecidableEq

namespace TraceEntry

/-- The line of an entry. -/
def line (e : TraceEntry) : String :=
  Align.right.pad 12 (Address.text e.pc) ++ " │ " ++ Align.left.pad 44 e.instruction.text ++
    " │ RB = " ++ e.relativeBase.text ++ "\n"

end TraceEntry

namespace Machine

/-- The instruction that the next step executes.  There is none when the program has halted, when
its word cannot be read, or when the word stands for no instruction. -/
def instruction? (m : Machine) : Option Instruction :=
  if m.halted = false ∧ m.memory.InRange m.pc then
    (Instruction.decode m.pc (m.memory.get m.pc)).toOption
  else none

/-- The next step executes an instruction when the program runs, and the word at the program
counter can be read and stands for it. -/
theorem instruction?_eq_some_iff {m : Machine} {i : Instruction} :
    m.instruction? = some i ↔
      (m.halted = false ∧ m.memory.InRange m.pc) ∧
        Instruction.decode m.pc (m.memory.get m.pc) = .ok i := by
  unfold instruction?
  split
  · next h =>
      cases hd : Instruction.decode m.pc (m.memory.get m.pc) with
      | ok j => simp [h, Except.toOption]
      | error e => simp [Except.toOption]
  · next h => simp [h]

/-! ### Actions with a trace -/

/-- An action on the machine that may also make entries in a trace; a fault does not take back those
made before it. -/
abbrev TracedExec := EStateM Fault (Machine × Array TraceEntry)

/-- How an action ended, with the trace beside the state. -/
def besideTrace {α : Type} (trace : Array TraceEntry) :
    Outcome α → EStateM.Result Fault (Machine × Array TraceEntry) α
  | .ok value m => .ok value (m, trace)
  | .error fault m => .error fault (m, trace)

/-- An action that makes no entry. -/
def untraced {α : Type} (action : Exec α) : TracedExec α
  | (m, trace) => besideTrace trace (action m)

/-- Makes an entry. -/
def record (entry : TraceEntry) : TracedExec Unit
  | (m, trace) => .ok () (m, trace.push entry)

/-- **One step that makes its entry**: it comes between decoding and execution. -/
def stepTraced : TracedExec Status := do
  untraced requireRunning
  let pc ← untraced counter
  let (instruction, operands) ← untraced (onMemory (Memory.decodeAt pc))
  untraced (jumpTo operands)
  let base ← untraced base
  record ⟨pc, instruction, base⟩
  untraced (execute pc instruction)

/-- A run of at most `n` steps that appends the entries of its steps to a trace. -/
def runTraced : Nat → Array TraceEntry → Machine → Option (Array TraceEntry × Outcome Unit)
  | 0, _, _ => none
  | n + 1, trace, m =>
      match stepTraced (m, trace) with
      | .ok .running (m, trace) => runTraced n trace m
      | .ok .halted (m, trace) => some (trace, .ok () m)
      | .error fault (m, trace) => some (trace, .error fault m)

end Machine

end IntcodeMachine

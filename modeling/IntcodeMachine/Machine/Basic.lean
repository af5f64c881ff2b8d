/-
**The machine.**

The state of the machine is its memory, the program counter, the relative base, the input that is
left, the output so far, and whether it has halted.  An action on the machine yields a value or a
fault, and in either case the state that it has reached: a fault does not undo what was done before
it.

Main definitions:

* `Machine` — the state;
* `Machine.load` — the state in which a program starts;
* `Machine.Exec` — **an action on the machine**;
* `Machine.onMemory` — a memory access as an action on the machine;
* `Machine.patch` — overwrites a cell from outside;
* `Machine.feed` — more values for the input from outside.
-/

import IntcodeMachine.Input
import IntcodeMachine.LoadError
import IntcodeMachine.Memory.Basic

set_option relaxedAutoImplicit false
set_option autoImplicit false

namespace IntcodeMachine

/-- The **state** of the machine. -/
structure Machine where
  /-- Program and data. -/
  memory : Memory
  /-- The address of the next cell to be fetched. -/
  pc : Nat := 0
  /-- The base of relative addresses. -/
  relativeBase : Cell := 0
  /-- The source of the values still to be read. -/
  input : Input
  /-- The values written so far, in order. -/
  output : Array Cell := #[]
  /-- Whether the program has halted. -/
  halted : Bool := false
deriving DecidableEq

namespace Machine

/-- The machine at the start of a program, with its input. -/
def load (program : List Cell) (input : Input) : Except LoadError Machine :=
  match Memory.ofProgram? program with
  | some memory => .ok { memory, input }
  | none => .error .emptyProgram

/-- An action on the machine.  It yields a value or a fault, and the state that it reaches. -/
abbrev Exec := EStateM Fault Machine

/-! ### Actions on one part of the machine -/

/-- A memory access as an action on the machine; the other parts stay as they are. -/
def onMemory {α : Type} (action : Memory.Action α) : Exec α
  | ⟨memory, pc, relativeBase, input, output, halted⟩ =>
      match action memory with
      | .ok value memory => .ok value ⟨memory, pc, relativeBase, input, output, halted⟩
      | .error fault memory => .error fault ⟨memory, pc, relativeBase, input, output, halted⟩

/-- The value of a computation on its own, or its fault. -/
def ofExcept {α : Type} : Except Fault α → Exec α
  | .ok value => fun m => .ok value m
  | .error fault => fun m => .error fault m

/-- The value, or the fault given for its absence. -/
def orFault {α : Type} (fault : Fault) : Option α → Exec α
  | some value => fun m => .ok value m
  | none => fun m => .error fault m

/-- The program counter. -/
def counter : Exec Nat := fun m => .ok m.pc m

/-- Sets the program counter. -/
def jumpTo (a : Nat) : Exec Unit := fun m => .ok () { m with pc := a }

/-- The relative base. -/
def base : Exec Cell := fun m => .ok m.relativeBase m

/-- Sets the relative base. -/
def setBase (value : Cell) : Exec Unit := fun m => .ok () { m with relativeBase := value }

/-- Takes the next value of the input, for the instruction at `pc`. -/
def receive (pc : Nat) : Exec Cell := fun m =>
  match m.input.next with
  | some (value, input) => .ok value { m with input }
  | none => .error (.inputExhausted pc) m

/-- Appends a value to the output. -/
def emit (value : Cell) : Exec Unit := fun m => .ok () { m with output := m.output.push value }

/-- Marks the program as halted. -/
def stop : Exec Unit := fun m => .ok () { m with halted := true }

/-- Refuses to go on when the program has halted. -/
def requireRunning : Exec Unit := fun m =>
  if m.halted then .error .alreadyHalted m else .ok () m

/-! ### Changes from outside -/

/-- Overwrites the cell at the address `a`; allowed at any time. -/
def patch (a : Nat) (value : Cell) : Exec Unit := onMemory (Memory.patch a value)

/-- Appends values to the input; allowed at any time. -/
def feed (values : List Cell) (m : Machine) : Machine := { m with input := m.input.feed values }

end Machine

end IntcodeMachine

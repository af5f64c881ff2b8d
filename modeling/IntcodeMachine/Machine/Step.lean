/-
**One step.**

A step executes the instruction at the program counter.  The instruction word and the operand
cells are fetched one after the other, and the program counter moves past each cell as it is
fetched.  Operands are resolved in order, each before the next is fetched; the result is computed
once the destination is known, and is stored last.  A jump fetches its target only if it is taken;
otherwise the program counter moves over that cell, which is not looked at.

Main definitions:

* `Machine.Status` — whether the program goes on after a step;
* `Machine.fetch` — the cell at the program counter;
* `Machine.designate`, `Machine.source` — the address that an operand designates, and its value;
* `Machine.execute` — the effect of an instruction whose word has been fetched;
* `Machine.step` — **one step**.
-/

import IntcodeMachine.Instruction.Encoding
import IntcodeMachine.Machine.Basic

set_option relaxedAutoImplicit false
set_option autoImplicit false

namespace IntcodeMachine

namespace Machine

/-- What a step says about the program. -/
inductive Status where
  /-- There are further steps. -/
  | running
  /-- The program has halted in this step. -/
  | halted
deriving DecidableEq

/-! ### Operands -/

/-- Reads the cell at the program counter and moves past it. -/
def fetch : Exec Cell := do
  let a ← counter
  let value ← onMemory (Memory.read a)
  jumpTo (a + 1)
  return value

/-- Fetches an operand cell and gives the address that it designates, for the instruction at
`pc`. -/
def designate (pc : Nat) (place : Place) : Exec Nat := do
  let literal ← fetch
  let base ← base
  ofExcept (place.address base literal pc)

/-- Fetches an operand cell and gives the value that it stands for, for the instruction at `pc`. -/
def source (pc : Nat) : Mode → Exec Cell
  | .immediate => fetch
  | .stored place => do
      let a ← designate pc place
      onMemory (Memory.read a)

/-- Moves over an operand cell without looking at it. -/
def skip : Exec Unit := do
  let a ← counter
  jumpTo (a + 1)

/-! ### Instructions -/

/-- The effect of the instruction at `pc`, whose word has been fetched. -/
def execute (pc : Nat) : Instruction → Exec Status
  | .binary op left right destination => do
      let a ← source pc left
      let b ← source pc right
      let target ← designate pc destination
      let result ← orFault (.overflow pc) (op.apply a b)
      onMemory (Memory.write target result)
      return .running
  | .input destination => do
      let target ← designate pc destination
      let value ← receive pc
      onMemory (Memory.write target value)
      return .running
  | .output operand => do
      let value ← source pc operand
      emit value
      return .running
  | .jump test condition target => do
      let value ← source pc condition
      if test.holds value then
        let target ← source pc target
        let a ← ofExcept (Address.ofCell target)
        jumpTo a
      else
        skip
      return .running
  | .adjustBase operand => do
      let offset ← source pc operand
      let base ← base
      let sum ← orFault (.overflow pc) (Cell.add? base offset)
      setBase sum
      return .running
  | .halt => do
      stop
      return .halted

/-- **One step**: executes the instruction at the program counter. -/
def step : Exec Status := do
  requireRunning
  let pc ← counter
  let (instruction, operands) ← onMemory (Memory.decodeAt pc)
  jumpTo operands
  execute pc instruction

end Machine

end IntcodeMachine

/-
**The machine with bounded indices.**

Addresses are natural numbers, and a look into memory past its end gives zero, so the machine of
`IntcodeMachine.Machine.Step` cannot go wrong in these respects.  On a computer an index is a word
of 64 bits and a table has an end.  This module writes the machine down once more under these
conditions: a sum of indices may be too large for a word, a difference may be negative, an index may
lie outside its table.  Each of these is a crash, which is neither a result nor a fault.

Nothing is left out that computes an index: growth of memory, the access to a cell after it, the
mode digits of a word, the destination among the modes, the program counter, and the window of the
state table.  The other actions are those of the machine (`Bounded.lift`).  That no crash ever
happens is proved in `IntcodeMachine.Proofs.Bounded.Safety`.

Main definitions:

* `Bounded.Stop`, `Bounded.Action` — faults and crashes, and actions that may end in one;
* `Bounded.add?`, `Bounded.sub?` — **sums and differences of indices**, which may not exist;
* `Bounded.reserve`, `Bounded.read`, `Bounded.write` — accesses to memory;
* `Bounded.Decoded`, `Bounded.decode` — a decoded word as a table of modes;
* `Bounded.step`, `Bounded.run`, `Bounded.patch` — **the machine with bounded indices**;
* `Bounded.window` — the cells of the state table.
-/

import IntcodeMachine.Machine.Run
import IntcodeMachine.Machine.StateTable

set_option relaxedAutoImplicit false
set_option autoImplicit false

namespace IntcodeMachine

namespace Bounded

/-! ### Indices -/

/-- Why an action does not go on. -/
inductive Stop where
  /-- The machine refuses to go on, and says why. -/
  | fault (e : Fault)
  /-- An index could not be computed, or lay outside its table. -/
  | crash
deriving DecidableEq

/-- An action on a state that may end in a fault or in a crash. -/
abbrev Action (σ : Type) := EStateM Stop σ

/-- The number of indices: the 64th power of two. -/
def indexCount : Nat := 18446744073709551616

/-- The sum of two indices, if it is an index. -/
def add? (a b : Nat) : Option Nat := if a + b < indexCount then some (a + b) else none

/-- The difference of two indices, if it is not negative. -/
def sub? (a b : Nat) : Option Nat := if b ≤ a then some (a - b) else none

/-- The value, or a crash for its absence. -/
def orCrash {σ α : Type} : Option α → Action σ α
  | some value => fun s => .ok value s
  | none => fun s => .error .crash s

/-- The outcome of an action without crashes. -/
def liftResult {σ α : Type} : EStateM.Result Fault σ α → EStateM.Result Stop σ α
  | .ok value s => .ok value s
  | .error e s => .error (.fault e) s

/-- The outcome of a computation without crashes. -/
def liftExcept {α : Type} : Except Fault α → Except Stop α
  | .ok value => .ok value
  | .error e => .error (.fault e)

/-- An action that computes no index. -/
def lift {σ α : Type} (x : EStateM Fault σ α) : Action σ α := fun s => liftResult (x s)

/-! ### Memory -/

/-- The number of cells that memory lacks to have the address `a`. -/
def lacking? (m : Memory) (a : Nat) : Option Nat := (add? a 1).bind fun top => sub? top m.size

/-- Makes sure that memory has the address `a`. -/
def reserve (a : Nat) : Action Memory Unit := fun m =>
  if a < m.size then .ok () m
  else if Memory.maxCells ≤ a then .error (.fault (.addressOutOfRange a)) m
  else
    match lacking? m a with
    | some additional => .ok () ⟨m.cells ++ Array.replicate additional 0⟩
    | none => .error .crash m

/-- The cell at the index `a` of the table of cells. -/
def load (a : Nat) : Action Memory Cell := fun m =>
  match m.cells[a]? with
  | some value => .ok value m
  | none => .error .crash m

/-- Overwrites the cell at the index `a` of the table of cells. -/
def store (a : Nat) (v : Cell) : Action Memory Unit := fun m =>
  if a < m.cells.size then .ok () ⟨m.cells.setIfInBounds a v⟩ else .error .crash m

/-- Reads the cell at the address `a`. -/
def read (a : Nat) : Action Memory Cell := do
  reserve a
  load a

/-- Writes the value `v` at the address `a`. -/
def write (a : Nat) (v : Cell) : Action Memory Unit := do
  reserve a
  store a v

/-! ### Instruction words -/

/-- An instruction word that has been decoded: the operation, and three modes, of which those that
belong to no operand mean nothing. -/
structure Decoded where
  opcode : Opcode
  modes : Vector Mode 3
deriving DecidableEq

/-- The modes of the operands that the operation has. -/
def Decoded.operandModes? (d : Decoded) : Option (List Mode) :=
  if d.opcode.arity ≤ 3 then some (d.modes.toList.take d.opcode.arity) else none

/-- The values of the places of the mode digits, the first operand first. -/
def places : Vector Nat 3 := #v[100, 1000, 10000]

/-- The mode of the operand `k` in the word `n` at `pc`. -/
def decodeMode (pc n k : Nat) : Except Stop Mode :=
  match places[k]? with
  | some place => liftExcept (Instruction.decodeMode pc (n / place % 10))
  | none => .error .crash

/-- The table of modes, in which those of the first `arity` operands are filled in. -/
def decodeModes (pc n arity : Nat) : Except Stop (Vector Mode 3) :=
  (List.range (min arity 3)).foldlM (fun modes k => do
    let mode ← decodeMode pc n k
    return modes.setIfInBounds k mode) (Vector.replicate 3 (.stored .position))

/-- The mode of the last operand. -/
def lastMode? (arity : Nat) (modes : Vector Mode 3) : Option Mode :=
  (sub? arity 1).bind fun k => modes[k]?

/-- Refuses a table of modes in which the destination is a literal. -/
def checkDestination (pc : Nat) (op : Opcode) (modes : Vector Mode 3) : Except Stop Unit :=
  if op.writes then
    match lastMode? op.arity modes with
    | some .immediate => .error (.fault (.immediateDestination pc))
    | some (.stored _) => .ok ()
    | none => .error .crash
  else .ok ()

/-- Decodes the word at `pc`. -/
def decode (pc : Nat) (word : Cell) : Except Stop Decoded := do
  let op ← liftExcept (Instruction.decodeOpcode pc word)
  let modes ← decodeModes pc word.toInt.toNat op.arity
  checkDestination pc op modes
  return ⟨op, modes⟩

/-- Reads and decodes the word at `pc`, and gives it together with the address of its first
operand. -/
def decodeAt (pc : Nat) : Action Memory (Decoded × Nat) := do
  let word ← read pc
  match decode pc word with
  | .ok d =>
      let next ← orCrash (add? pc 1)
      return (d, next)
  | .error stop => throw stop

/-! ### Operands -/

/-- An action on the machine. -/
abbrev Exec := Action Machine

/-- An access to memory as an action on the machine. -/
def onMemory {α : Type} (action : Action Memory α) : Exec α := fun m =>
  match action m.memory with
  | .ok value memory => .ok value { m with memory }
  | .error stop memory => .error stop { m with memory }

/-- Moves the program counter past the cell where it stands. -/
def skip : Exec Unit := do
  let a ← lift Machine.counter
  let next ← orCrash (add? a 1)
  lift (Machine.jumpTo next)

/-- Reads the cell at the program counter and moves past it. -/
def fetch : Exec Cell := do
  let a ← lift Machine.counter
  let value ← onMemory (read a)
  skip
  return value

/-- Fetches an operand cell and gives the address that it designates. -/
def designate (pc : Nat) (place : Place) : Exec Nat := do
  let literal ← fetch
  let base ← lift Machine.base
  lift (Machine.ofExcept (place.address base literal pc))

/-- Fetches an operand cell and gives the value that it stands for. -/
def source (pc : Nat) : Mode → Exec Cell
  | .immediate => fetch
  | .stored place => do
      let a ← designate pc place
      onMemory (read a)

/-- Fetches an operand cell and gives the address of the destination; a literal is none. -/
def destination (pc : Nat) : Mode → Exec Nat
  | .stored place => designate pc place
  | .immediate => do
      let _ ← fetch
      throw (.fault (.immediateDestination pc))

/-! ### The machine -/

/-- The effect of the instruction at `pc`, whose word has been fetched. -/
def execute (pc : Nat) (d : Decoded) : Exec Machine.Status :=
  match d.opcode with
  | .binary op => do
      let a ← source pc (d.modes.get 0)
      let b ← source pc (d.modes.get 1)
      let target ← destination pc (d.modes.get 2)
      let result ← lift (Machine.orFault (.overflow pc) (op.apply a b))
      onMemory (write target result)
      return .running
  | .input => do
      let target ← destination pc (d.modes.get 0)
      let value ← lift (Machine.receive pc)
      onMemory (write target value)
      return .running
  | .output => do
      let value ← source pc (d.modes.get 0)
      lift (Machine.emit value)
      return .running
  | .jump test => do
      let value ← source pc (d.modes.get 0)
      if test.holds value then
        let target ← source pc (d.modes.get 1)
        let a ← lift (Machine.ofExcept (Address.ofCell target))
        lift (Machine.jumpTo a)
      else
        skip
      return .running
  | .adjustBase => do
      let offset ← source pc (d.modes.get 0)
      let base ← lift Machine.base
      let sum ← lift (Machine.orFault (.overflow pc) (Cell.add? base offset))
      lift (Machine.setBase sum)
      return .running
  | .halt => do
      lift Machine.stop
      return .halted

/-- **One step.**  The modes of the operands are looked up for the trace. -/
def step : Exec Machine.Status := do
  lift Machine.requireRunning
  let pc ← lift Machine.counter
  let (d, operands) ← onMemory (decodeAt pc)
  lift (Machine.jumpTo operands)
  let _ ← orCrash d.operandModes?
  execute pc d

/-- A run of at most `n` steps, which ends when the program halts or a step does not go on. -/
def run : Nat → Machine → Option (EStateM.Result Stop Machine Unit)
  | 0, _ => none
  | n + 1, m =>
      match step m with
      | .ok .running m => run n m
      | .ok .halted m => some (.ok () m)
      | .error stop m => some (.error stop m)

/-- Overwrites the cell at the address `a` from outside. -/
def patch (a : Nat) (v : Cell) : Exec Unit := onMemory (write a v)

/-! ### The state table -/

/-- The part of a table from the index `start` up to `stop`, which must be in order and within
it. -/
def slice? (cells : Array Cell) (start stop : Nat) : Option (List Cell) :=
  if start ≤ stop ∧ stop ≤ cells.size then some ((cells.toList.drop start).take (stop - start))
  else none

/-- The cells shown in the state table, each with its address. -/
def window (m : Machine) : Option (List (Nat × Cell)) := do
  let start := min (m.pc - Machine.windowRadius) m.memory.size
  let last ← add? m.pc Machine.windowRadius
  let past ← add? last 1
  let shown ← slice? m.memory.cells start (min past m.memory.size)
  shown.zipIdx.mapM fun (value, i) => (add? i start).map fun a => (a, value)

end Bounded

end IntcodeMachine

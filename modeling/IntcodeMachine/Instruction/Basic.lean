/-
**Instructions.**

An instruction is an operation together with the way in which each of its operands is to be read.
Sources may be literals or stored cells; a destination is always stored, so that an instruction
that would write into a literal cannot be formed.

Main definitions:

* `BinaryOp`, `Condition` — the computations, and the tests of jumps;
* `Opcode` — the operations without their operands, with `Opcode.code`, `Opcode.arity` and
  `Opcode.writes`;
* `Mode` — how an operand is read: as a literal, or from a `Place`;
* `Instruction` — **a well-formed instruction**;
* `Instruction.opcode`, `Instruction.modes` — its two parts;
* `Instruction.text` — its text, as in `Add(Immediate, Position, Relative)`.
-/

import IntcodeMachine.Addressing

set_option relaxedAutoImplicit false
set_option autoImplicit false

namespace IntcodeMachine

/-! ### Operations -/

/-- The operations that combine two values and store the result. -/
inductive BinaryOp where
  | add
  | multiply
  | lessThan
  | equals
deriving DecidableEq

namespace BinaryOp

/-- The result of an operation.  Sums and products are exact, so they may have none; a comparison
gives one or zero. -/
def apply : BinaryOp → Cell → Cell → Option Cell
  | add, a, b => Cell.add? a b
  | multiply, a, b => Cell.mul? a b
  | lessThan, a, b => some (Cell.ofBool (decide (a < b)))
  | equals, a, b => some (Cell.ofBool (decide (a = b)))

end BinaryOp

/-- The tests that decide whether a jump is taken. -/
inductive Condition where
  | nonzero
  | zero
deriving DecidableEq

namespace Condition

/-- Whether a value takes the jump. -/
def holds : Condition → Cell → Bool
  | nonzero, a => decide (a ≠ 0)
  | zero, a => decide (a = 0)

end Condition

/-- The operations of the machine. -/
inductive Opcode where
  /-- Combine two values. -/
  | binary (op : BinaryOp)
  /-- Store a value of the input. -/
  | input
  /-- Append a value to the output. -/
  | output
  /-- Go on elsewhere if the test holds. -/
  | jump (test : Condition)
  /-- Add a value to the relative base. -/
  | adjustBase
  /-- Stop. -/
  | halt
deriving DecidableEq

namespace Opcode

/-- The two-digit code of an operation. -/
def code : Opcode → Nat
  | binary .add => 1
  | binary .multiply => 2
  | input => 3
  | output => 4
  | jump .nonzero => 5
  | jump .zero => 6
  | binary .lessThan => 7
  | binary .equals => 8
  | adjustBase => 9
  | halt => 99

/-- The operation with a given code. -/
def ofCode? : Nat → Option Opcode
  | 1 => some (binary .add)
  | 2 => some (binary .multiply)
  | 3 => some input
  | 4 => some output
  | 5 => some (jump .nonzero)
  | 6 => some (jump .zero)
  | 7 => some (binary .lessThan)
  | 8 => some (binary .equals)
  | 9 => some adjustBase
  | 99 => some halt
  | _ => none

/-- The number of operands. -/
def arity : Opcode → Nat
  | binary _ => 3
  | input => 1
  | output => 1
  | jump _ => 2
  | adjustBase => 1
  | halt => 0

/-- Whether the last operand is a destination. -/
def writes : Opcode → Bool
  | binary _ => true
  | input => true
  | output => false
  | jump _ => false
  | adjustBase => false
  | halt => false

/-- The name of an operation. -/
def name : Opcode → String
  | binary .add => "Add"
  | binary .multiply => "Multiply"
  | input => "Input"
  | output => "Output"
  | jump .nonzero => "JumpIfTrue"
  | jump .zero => "JumpIfFalse"
  | binary .lessThan => "LessThan"
  | binary .equals => "Equals"
  | adjustBase => "AdjustRelativeBase"
  | halt => "Halt"

@[simp] theorem ofCode?_code (op : Opcode) : ofCode? op.code = some op := by
  cases op with
  | binary op => cases op <;> rfl
  | jump test => cases test <;> rfl
  | _ => rfl

/-- A code names the operation that has it, and no other. -/
theorem ofCode?_eq_some_iff {n : Nat} {op : Opcode} : ofCode? n = some op ↔ op.code = n := by
  constructor
  · intro h
    unfold ofCode? at h
    split at h <;> cases h <;> rfl
  · rintro rfl
    exact ofCode?_code op

theorem code_lt (op : Opcode) : op.code < 100 := by
  cases op with
  | binary op => cases op <;> decide
  | jump test => cases test <;> decide
  | _ => decide

end Opcode

/-! ### Modes -/

/-- How an operand is read. -/
inductive Mode where
  /-- The operand cell is the value itself. -/
  | immediate
  /-- The operand cell designates the cell that holds the value. -/
  | stored (place : Place)
deriving DecidableEq

namespace Mode

/-- The digit of a mode. -/
def digit : Mode → Nat
  | stored .position => 0
  | immediate => 1
  | stored .relative => 2

/-- The mode with a given digit. -/
def ofDigit? : Nat → Option Mode
  | 0 => some (stored .position)
  | 1 => some immediate
  | 2 => some (stored .relative)
  | _ => none

/-- The name of a mode. -/
def name : Mode → String
  | stored .position => "Position"
  | immediate => "Immediate"
  | stored .relative => "Relative"

@[simp] theorem ofDigit?_digit (m : Mode) : ofDigit? m.digit = some m := by
  cases m with
  | immediate => rfl
  | stored place => cases place <;> rfl

/-- A digit names the mode that has it, and no other. -/
theorem ofDigit?_eq_some_iff {d : Nat} {m : Mode} : ofDigit? d = some m ↔ m.digit = d := by
  constructor
  · intro h
    unfold ofDigit? at h
    split at h <;> cases h <;> rfl
  · rintro rfl
    exact ofDigit?_digit m

theorem digit_lt (m : Mode) : m.digit < 3 := by
  cases m with
  | immediate => decide
  | stored place => cases place <;> decide

/-- The digits above two name no mode. -/
theorem ofDigit?_eq_none_iff {d : Nat} : ofDigit? d = none ↔ 2 < d := by
  match d with
  | 0 => simp [ofDigit?]
  | 1 => simp [ofDigit?]
  | 2 => simp [ofDigit?]
  | n + 3 => simp only [ofDigit?, true_iff]; omega

end Mode

/-! ### Instructions -/

/-- An **instruction**: an operation and the modes of its operands, in order. -/
inductive Instruction where
  /-- Combine two values and store the result. -/
  | binary (op : BinaryOp) (left right : Mode) (destination : Place)
  /-- Store a value of the input. -/
  | input (destination : Place)
  /-- Append a value to the output. -/
  | output (source : Mode)
  /-- Go on at the target if the test holds of the condition. -/
  | jump (test : Condition) (condition target : Mode)
  /-- Add a value to the relative base. -/
  | adjustBase (source : Mode)
  /-- Stop. -/
  | halt
deriving DecidableEq

namespace Instruction

/-- The operation of an instruction. -/
def opcode : Instruction → Opcode
  | binary op _ _ _ => .binary op
  | input _ => .input
  | output _ => .output
  | jump test _ _ => .jump test
  | adjustBase _ => .adjustBase
  | halt => .halt

/-- The modes of the operands, in order. -/
def modes : Instruction → List Mode
  | binary _ left right destination => [left, right, .stored destination]
  | input destination => [.stored destination]
  | output source => [source]
  | jump _ condition target => [condition, target]
  | adjustBase source => [source]
  | halt => []

@[simp] theorem length_modes (i : Instruction) : i.modes.length = i.opcode.arity := by
  cases i <;> rfl

/-- The operation and the modes determine the instruction. -/
theorem ext_opcode_modes {i j : Instruction} (hop : i.opcode = j.opcode)
    (hmodes : i.modes = j.modes) : i = j := by
  cases i <;> cases j <;> simp_all [opcode, modes]

/-- The text of an instruction: the name of the operation, and the names of the modes in
parentheses if there are operands. -/
def text (i : Instruction) : String :=
  match i.modes with
  | [] => i.opcode.name
  | modes => i.opcode.name ++ "(" ++ ", ".intercalate (modes.map Mode.name) ++ ")"

end Instruction

end IntcodeMachine

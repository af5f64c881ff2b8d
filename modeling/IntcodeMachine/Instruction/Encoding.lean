/-
**Instruction words.**

An instruction is written as a word in decimal digits: the last two digits are the code of the
operation, and above them stands one mode digit for each operand, the first operand lowest.  All
further digits are ignored.  A word is refused for the first reason that applies: it is negative or
its code names no operation; a mode digit names no mode, the lowest such digit being reported; the
destination is a literal.

Main definitions:

* `Instruction.modeDigit` — the digit of a word that belongs to an operand;
* `Instruction.decode` — **the instruction that a word stands for**, or the fault;
* `Instruction.encode` — the word of an instruction, without further digits;
* `Memory.decodeAt` — the instruction at an address of memory.

Main results:

* `Memory.decodeAt_of_not_inRange`, `Memory.decodeAt_of_undecodable`, `Memory.decodeAt_of_decode` —
  the ways in which decoding in memory can go.
-/

import IntcodeMachine.Instruction.Basic
import IntcodeMachine.Memory.Basic

set_option relaxedAutoImplicit false
set_option autoImplicit false

namespace IntcodeMachine

namespace Instruction

/-- The digit of the word `n` that belongs to the operand `k`, counted from zero. -/
def modeDigit (n k : Nat) : Nat := n / Nat.pow 10 (k + 2) % 10

/-! ### Decoding -/

/-- The operation that a word at `pc` names. -/
def decodeOpcode (pc : Nat) (word : Cell) : Except Fault Opcode :=
  if 0 ≤ word.toInt then
    match Opcode.ofCode? (word.toInt.toNat % 100) with
    | some op => .ok op
    | none => .error (.unknownOpcode pc word)
  else .error (.unknownOpcode pc word)

/-- The mode that a digit of the word at `pc` names. -/
def decodeMode (pc : Nat) (digit : Nat) : Except Fault Mode :=
  match Mode.ofDigit? digit with
  | some mode => .ok mode
  | none => .error (.invalidMode pc digit)

/-- The place of a destination, for the word at `pc`. -/
def decodePlace (pc : Nat) : Mode → Except Fault Place
  | .stored place => .ok place
  | .immediate => .error (.immediateDestination pc)

/-- The instruction that the word at `pc` stands for. -/
def decode (pc : Nat) (word : Cell) : Except Fault Instruction := do
  let op ← decodeOpcode pc word
  let mode := fun k => decodeMode pc (modeDigit word.toInt.toNat k)
  match op with
  | .binary op =>
      let left ← mode 0
      let right ← mode 1
      let result ← mode 2
      let destination ← decodePlace pc result
      return .binary op left right destination
  | .input =>
      let result ← mode 0
      let destination ← decodePlace pc result
      return .input destination
  | .output =>
      let source ← mode 0
      return .output source
  | .jump test =>
      let condition ← mode 0
      let target ← mode 1
      return .jump test condition target
  | .adjustBase =>
      let source ← mode 0
      return .adjustBase source
  | .halt => return .halt

/-! ### Encoding -/

/-- The value of a list of mode digits, the first digit lowest. -/
def encodeModes : List Mode → Nat
  | [] => 0
  | mode :: modes => mode.digit + 10 * encodeModes modes

/-- The word of an instruction: the mode digits above the two digits of the code. -/
def encode (i : Instruction) : Nat := i.opcode.code + 100 * encodeModes i.modes

end Instruction

/-- Reads the instruction at the address `pc`, and gives it together with the address of its first
operand. -/
def Memory.decodeAt (pc : Nat) : Memory.Action (Instruction × Nat) := do
  let word ← Memory.read pc
  match Instruction.decode pc word with
  | .ok instruction => return (instruction, pc + 1)
  | .error fault => throw fault

namespace Memory

theorem decodeAt_of_not_inRange {m : Memory} {pc : Nat} (h : ¬m.InRange pc) :
    decodeAt pc m = .error (.addressOutOfRange pc) m := by
  simp only [decodeAt, bind, EStateM.bind, read, if_neg h]

theorem decodeAt_of_undecodable {m : Memory} {pc : Nat} {e : Fault} (h : m.InRange pc)
    (hd : Instruction.decode pc (m.get pc) = .error e) :
    decodeAt pc m = .error e (m.extend pc) := by
  simp only [decodeAt, bind, EStateM.bind, read, if_pos h, hd]
  rfl

theorem decodeAt_of_decode {m : Memory} {pc : Nat} {i : Instruction} (h : m.InRange pc)
    (hd : Instruction.decode pc (m.get pc) = .ok i) :
    decodeAt pc m = .ok (i, pc + 1) (m.extend pc) := by
  simp only [decodeAt, bind, EStateM.bind, read, if_pos h, hd]
  rfl

end Memory

end IntcodeMachine

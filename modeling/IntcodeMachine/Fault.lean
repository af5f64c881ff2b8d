/-
**Faults.**

A fault is the cause for which a memory access, a step or a run is refused.  Each cause carries
what is needed to name it: the address of the instruction at fault, the value that was no address,
and so on.  The wording is fixed in one place, `Fault.message`.

Main definitions:

* `Fault` — the causes;
* `Fault.message` — the sentence that reports a cause.
-/

import IntcodeMachine.Address

set_option relaxedAutoImplicit false
set_option autoImplicit false

namespace IntcodeMachine

/-- The causes for which the machine refuses to go on.  Wherever a cause carries `pc`, it is the
address of the instruction word, not that of an operand. -/
inductive Fault where
  /-- The word at `pc` is negative or its last two digits name no operation. -/
  | unknownOpcode (pc : Nat) (word : Cell)
  /-- The instruction at `pc` has a mode digit that is no mode. -/
  | invalidMode (pc : Nat) (digit : Nat)
  /-- The instruction at `pc` would store its result into a literal. -/
  | immediateDestination (pc : Nat)
  /-- A negative value was used as an address. -/
  | negativeAddress (value : Cell)
  /-- The address lies beyond every cell that memory can have. -/
  | addressOutOfRange (address : Nat)
  /-- The instruction at `pc` asked for input and none was left. -/
  | inputExhausted (pc : Nat)
  /-- An output value is not the code point of a character. -/
  | notACharacter (value : Cell)
  /-- A result of the instruction at `pc` does not fit into a cell. -/
  | overflow (pc : Nat)
  /-- The program has halted before. -/
  | alreadyHalted
deriving DecidableEq

namespace Fault

/-- The sentence that reports a fault. -/
def message : Fault → String
  | unknownOpcode pc word => "unknown opcode in word " ++ word.text ++ " at " ++ Address.text pc
  | invalidMode pc digit =>
      "invalid addressing mode digit " ++ toString digit ++ " in instruction at " ++ Address.text pc
  | immediateDestination pc =>
      "immediate mode used for a destination operand in instruction at " ++ Address.text pc
  | negativeAddress value => "negative address " ++ value.text
  | addressOutOfRange address =>
      "address " ++ Address.text address ++ " is beyond the largest memory the machine can grow to"
  | inputExhausted pc => "input requested at " ++ Address.text pc ++ " but no input is left"
  | notACharacter value => "output value " ++ value.text ++ " is not a character"
  | overflow pc => "arithmetic overflow in instruction at " ++ Address.text pc
  | alreadyHalted => "the program has already halted"

end Fault

end IntcodeMachine

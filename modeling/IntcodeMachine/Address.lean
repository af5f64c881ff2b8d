/-
**Addresses.**

An address is a natural number, the index of a cell counted from zero.  A cell designates an
address when it is not negative.

Main definitions:

* `Address.ofCell?` — the address that a cell designates, when there is one;
* `Address.text` — the text of an address, as in `MEM[12]`.

Main results:

* `Address.ofCell?_eq_some_iff` — **a cell designates the address equal to its value**, and no
  other.
-/

import IntcodeMachine.Cell

set_option relaxedAutoImplicit false
set_option autoImplicit false

namespace IntcodeMachine

namespace Address

/-- The address that a cell designates; a negative cell designates none. -/
def ofCell? (a : Cell) : Option Nat :=
  if 0 ≤ a.toInt then some a.toInt.toNat else none

/-- The text of an address: its index in brackets. -/
def text (a : Nat) : String := "MEM[" ++ toString a ++ "]"

/-- **A cell designates the address equal to its value**, and no other. -/
theorem ofCell?_eq_some_iff {a : Cell} {i : Nat} : ofCell? a = some i ↔ a.toInt = (i : Int) := by
  unfold ofCell?
  split
  · next h => simp only [Option.some.injEq]; omega
  · next h => simp only [reduceCtorEq, false_iff]; omega

/-- A cell designates no address exactly when it is negative. -/
theorem ofCell?_eq_none_iff {a : Cell} : ofCell? a = none ↔ a.toInt < 0 := by
  unfold ofCell?
  split
  · next h => simp only [reduceCtorEq, false_iff]; omega
  · next h => simp only [true_iff]; omega

end Address

end IntcodeMachine

/-
**Addressing.**

An operand cell that is not itself the value designates the address of a cell, in one of two
ways: its literal is the address, or the address is the sum of the relative base and the literal.
The sum is exact.  A sum that is no cell is an overflow of the instruction; a negative result is
no address.

Main definitions:

* `Place` — the two ways;
* `Place.value?` — the exact value that is to be the address;
* `Place.address` — the address designated, or the fault;
* `Address.ofCell`, `Address.offset` — the address that a cell designates by itself, or as an
  offset from a base.
-/

import IntcodeMachine.Fault

set_option relaxedAutoImplicit false
set_option autoImplicit false

namespace IntcodeMachine

namespace Address

/-- The address that a cell designates; a negative cell is a fault. -/
def ofCell (value : Cell) : Except Fault Nat :=
  match ofCell? value with
  | some a => .ok a
  | none => .error (.negativeAddress value)

/-- The address at the distance `literal` from `base`, for the instruction at `pc`. -/
def offset (base literal : Cell) (pc : Nat) : Except Fault Nat :=
  match Cell.add? base literal with
  | some value => ofCell value
  | none => .error (.overflow pc)

end Address

/-- The ways in which an operand designates the address of a cell. -/
inductive Place where
  /-- The literal is the address. -/
  | position
  /-- The literal is an offset from the relative base. -/
  | relative
deriving DecidableEq

namespace Place

/-- The exact value that a literal gives for the address, under the relative base `base`. -/
def value? (base literal : Cell) : Place → Option Cell
  | position => some literal
  | relative => Cell.add? base literal

/-- The address that a literal designates, for the instruction at `pc`, under the relative base
`base`. -/
def address (base literal : Cell) (pc : Nat) : Place → Except Fault Nat
  | position => Address.ofCell literal
  | relative => Address.offset base literal pc

/-- An operand designates the address equal to the exact value that it gives. -/
theorem address_eq_ok_iff {p : Place} {base literal : Cell} {pc a : Nat} :
    p.address base literal pc = .ok a ↔
      ∃ v, p.value? base literal = some v ∧ v.toInt = (a : Int) := by
  cases p with
  | position =>
      simp only [address, value?, Address.ofCell, ← Address.ofCell?_eq_some_iff]
      cases h : Address.ofCell? literal <;> simp [h]
  | relative =>
      simp only [address, value?, Address.offset, ← Address.ofCell?_eq_some_iff]
      cases hs : Cell.add? base literal with
      | none => simp
      | some v => cases h : Address.ofCell? v <;> simp [Address.ofCell, h]

end Place

end IntcodeMachine

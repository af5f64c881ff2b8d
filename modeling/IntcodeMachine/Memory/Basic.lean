/-
**Memory.**

Program and data share one store, an array of cells.  The store grows on demand: any access to an
address that it could have, be it a read, a write or a reservation, first extends it with zeros so
that the address is one of its cells.  An address it could not have is refused, and nothing
changes.  The largest memory that can be grown to has `Memory.maxCells` cells; a program that is
longer than that from the start keeps all its cells.

Main definitions:

* `Memory` — the store;
* `Memory.get` — **the view**: the value at an address, zero past the end;
* `Memory.InRange` — the addresses at which an access succeeds;
* `Memory.extend`, `Memory.set` — growth, and growth with a new value;
* `Memory.Action` — an access: it may change the store and may be refused;
* `Memory.reserve`, `Memory.read`, `Memory.write`, `Memory.patch` — the accesses.

What each operation does to `Memory.get` and `Memory.size` is stated in
`IntcodeMachine.Memory.Lemmas`.
-/

import IntcodeMachine.Fault

set_option relaxedAutoImplicit false
set_option autoImplicit false

namespace IntcodeMachine

/-- A **memory**: the cells at the addresses below its size. -/
structure Memory where
  /-- The cells in address order. -/
  cells : Array Cell
deriving DecidableEq

namespace Memory

/-- The number of cells that memory can grow to: the 27th power of two. -/
def maxCells : Nat := 134217728

/-- The memory that holds a program, from address zero on; there is none for the empty program. -/
def ofProgram? (program : List Cell) : Option Memory :=
  if program.isEmpty then none else some ⟨program.toArray⟩

/-- The number of cells. -/
def size (m : Memory) : Nat := m.cells.size

/-- The value at an address; every cell past the end is zero. -/
def get (m : Memory) (a : Nat) : Cell := m.cells.getD a 0

/-- An address is **in range** when it is one of the cells, or memory can grow to have it. -/
def InRange (m : Memory) (a : Nat) : Prop := a < max m.size maxCells

instance (m : Memory) (a : Nat) : Decidable (m.InRange a) :=
  inferInstanceAs (Decidable (a < max m.size maxCells))

/-- Memory extended with zeros, as far as needed to have the address `a`. -/
def extend (m : Memory) (a : Nat) : Memory :=
  if a < m.size then m else ⟨m.cells ++ Array.replicate (a + 1 - m.size) 0⟩

/-- Memory extended to have the address `a`, with the value `v` there. -/
def set (m : Memory) (a : Nat) (v : Cell) : Memory :=
  ⟨(m.extend a).cells.setIfInBounds a v⟩

/-! ### Accesses -/

/-- An access to memory: it yields a value or a fault, and the memory after it. -/
abbrev Action := EStateM Fault Memory

/-- Makes sure that memory has the address `a`. -/
def reserve (a : Nat) : Action Unit := fun m =>
  if m.InRange a then .ok () (m.extend a) else .error (.addressOutOfRange a) m

/-- Reads the cell at the address `a`, which memory has afterwards. -/
def read (a : Nat) : Action Cell := fun m =>
  if m.InRange a then .ok (m.get a) (m.extend a) else .error (.addressOutOfRange a) m

/-- Writes the value `v` at the address `a`. -/
def write (a : Nat) (v : Cell) : Action Unit := fun m =>
  if m.InRange a then .ok () (m.set a v) else .error (.addressOutOfRange a) m

/-- Overwrites the cell at the address `a` from outside: a write like that of a program. -/
abbrev patch (a : Nat) (v : Cell) : Action Unit := write a v

end Memory

end IntcodeMachine

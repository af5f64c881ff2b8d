/-
**The state table.**

The state of the machine as a text for the reader: whether it has halted, the cells around the
program counter, and the registers.

Main definitions:

* `Machine.window` — **the cells shown**, eight on either side of the program counter as far as
  memory has them;
* `Machine.memoryTable`, `Machine.registerTable` — the two parts;
* `Machine.stateText` — the whole text.

Main results:

* `Machine.mem_window_iff` — the addresses shown are those within the distance that memory has.
-/

import IntcodeMachine.Machine.Basic
import IntcodeMachine.Text.Table

set_option relaxedAutoImplicit false
set_option autoImplicit false

namespace IntcodeMachine

namespace Machine

/-- The number of cells shown on either side of the program counter. -/
def windowRadius : Nat := 8

/-- The cells shown, in address order, each with its address. -/
def window (m : Machine) : List (Nat × Cell) :=
  let start := min (m.pc - windowRadius) m.memory.size
  let stop := min (m.pc + windowRadius + 1) m.memory.size
  (List.range' start (stop - start)).map fun a => (a, m.memory.get a)

/-- The addresses shown are those within the distance that memory has, each with its cell. -/
theorem mem_window_iff {m : Machine} {a : Nat} {v : Cell} :
    (a, v) ∈ m.window ↔
      m.pc ≤ a + windowRadius ∧ a ≤ m.pc + windowRadius ∧ a < m.memory.size ∧
        v = m.memory.get a := by
  simp only [window, List.mem_map, List.mem_range'_1, Prod.mk.injEq]
  constructor
  · rintro ⟨b, hb, rfl, rfl⟩
    refine ⟨?_, ?_, ?_, rfl⟩ <;> omega
  · rintro ⟨h₁, h₂, h₃, rfl⟩
    exact ⟨a, by omega, rfl, rfl⟩

/-- The label of an address, with an arrow at the program counter. -/
def label (m : Machine) (a : Nat) : String :=
  (if a = m.pc then "* --> " else "") ++ Address.text a ++ " ="

/-- The cells around the program counter. -/
def memoryTable (m : Machine) : Table where
  first := ⟨"Address", .right⟩
  second := ⟨"Contents", .left⟩
  rows := m.window.map fun cell => ([m.label cell.1], [cell.2.text])

/-- The registers and the sizes. -/
def registerTable (m : Machine) : Table where
  first := ⟨"Register", .right⟩
  second := ⟨"Value", .left⟩
  rows :=
    [(["PC ="], [Address.text m.pc]), (["RB ="], [m.relativeBase.text]),
      (["Memory size ="], [toString m.memory.size]),
      (["Output length ="], [toString m.output.size])]

/-- Both tables side by side. -/
def stateTable (m : Machine) : Table where
  first := ⟨"Memory", .left⟩
  second := ⟨"Registers", .left⟩
  rows := [(m.memoryTable.lines, m.registerTable.lines)]

/-- The state of the machine as a text. -/
def stateText (m : Machine) : String :=
  (if m.halted then "Halted.\n" else "Running.\n") ++ m.stateTable.text

end Machine

end IntcodeMachine

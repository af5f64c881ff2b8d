/-
**What the actions of a step do.**

Each action of which a step is made has one equation for each way in which it can go, so that
nothing later needs to look into how an action is written.  The state after an operand cell has been
fetched has a name, `Machine.advance`.

Main definitions:

* `Machine.advance` — the state after the cell at the program counter has been fetched.

Main results:

* `Machine.bind_of_ok`, `Machine.bind_of_error` — one action after another;
* `Machine.fetch_of_inRange`, `Machine.fetch_of_not_inRange` — fetching a cell;
* `Machine.designate_of_ok`, `Machine.source_stored_of_ok` — resolving an operand;
* `Machine.step_of_decode` — **a step executes the instruction at the program counter**;
* `Machine.step_of_halted`, `Machine.step_of_not_inRange`, `Machine.step_of_undecodable` — the
  steps that fail before any operand is fetched.
-/

import IntcodeMachine.Machine.Step
import IntcodeMachine.Memory.Lemmas

set_option relaxedAutoImplicit false
set_option autoImplicit false

namespace IntcodeMachine

namespace Machine

/-! ### One action after another -/

theorem bind_of_ok {α β : Type} {x : Exec α} {f : α → Exec β} {m n : Machine} {a : α}
    (h : x m = .ok a n) : (x >>= f) m = f a n := by
  simp only [bind, EStateM.bind, h]

theorem bind_of_error {α β : Type} {x : Exec α} {f : α → Exec β} {m n : Machine} {e : Fault}
    (h : x m = .error e n) : (x >>= f) m = .error e n := by
  simp only [bind, EStateM.bind, h]

/-! ### Memory accesses -/

theorem onMemory_of_ok {α : Type} {x : Memory.Action α} {m : Machine} {a : α} {memory : Memory}
    (h : x m.memory = .ok a memory) : onMemory x m = .ok a { m with memory } := by
  obtain ⟨memory₀, pc, base, input, output, halted⟩ := m
  simp only [onMemory] at *
  rw [h]

theorem onMemory_of_error {α : Type} {x : Memory.Action α} {m : Machine} {e : Fault}
    {memory : Memory} (h : x m.memory = .error e memory) :
    onMemory x m = .error e { m with memory } := by
  obtain ⟨memory₀, pc, base, input, output, halted⟩ := m
  simp only [onMemory] at *
  rw [h]

theorem onMemory_read_of_inRange {m : Machine} {a : Nat} (h : m.memory.InRange a) :
    onMemory (Memory.read a) m = .ok (m.memory.get a) { m with memory := m.memory.extend a } :=
  onMemory_of_ok (by rw [Memory.read, if_pos h])

theorem onMemory_read_of_not_inRange {m : Machine} {a : Nat} (h : ¬m.memory.InRange a) :
    onMemory (Memory.read a) m = .error (.addressOutOfRange a) m :=
  onMemory_of_error (by rw [Memory.read, if_neg h])

theorem onMemory_write_of_inRange {m : Machine} {a : Nat} {v : Cell} (h : m.memory.InRange a) :
    onMemory (Memory.write a v) m = .ok () { m with memory := m.memory.set a v } :=
  onMemory_of_ok (by rw [Memory.write, if_pos h])

theorem onMemory_write_of_not_inRange {m : Machine} {a : Nat} {v : Cell}
    (h : ¬m.memory.InRange a) :
    onMemory (Memory.write a v) m = .error (.addressOutOfRange a) m :=
  onMemory_of_error (by rw [Memory.write, if_neg h])

/-! ### Operands -/

/-- The state after the cell at the program counter has been fetched: memory has that cell, and the
program counter has moved past it. -/
def advance (m : Machine) : Machine :=
  { m with memory := m.memory.extend m.pc, pc := m.pc + 1 }

@[simp] theorem advance_pc (m : Machine) : m.advance.pc = m.pc + 1 := rfl

@[simp] theorem advance_memory (m : Machine) : m.advance.memory = m.memory.extend m.pc := rfl

@[simp] theorem advance_relativeBase (m : Machine) : m.advance.relativeBase = m.relativeBase := rfl

@[simp] theorem advance_input (m : Machine) : m.advance.input = m.input := rfl

@[simp] theorem advance_output (m : Machine) : m.advance.output = m.output := rfl

@[simp] theorem advance_halted (m : Machine) : m.advance.halted = m.halted := rfl

theorem fetch_of_inRange {m : Machine} (h : m.memory.InRange m.pc) :
    fetch m = .ok (m.memory.get m.pc) m.advance := by
  rw [fetch, bind_of_ok (show counter m = .ok m.pc m from rfl),
    bind_of_ok (onMemory_read_of_inRange h)]
  rfl

theorem fetch_of_not_inRange {m : Machine} (h : ¬m.memory.InRange m.pc) :
    fetch m = .error (.addressOutOfRange m.pc) m := by
  rw [fetch, bind_of_ok (show counter m = .ok m.pc m from rfl),
    bind_of_error (onMemory_read_of_not_inRange h)]

theorem skip_eq (m : Machine) : skip m = .ok () { m with pc := m.pc + 1 } := rfl

theorem designate_of_not_inRange {m : Machine} {pc : Nat} {p : Place}
    (h : ¬m.memory.InRange m.pc) :
    designate pc p m = .error (.addressOutOfRange m.pc) m := by
  rw [designate, bind_of_error (fetch_of_not_inRange h)]

theorem designate_of_error {m : Machine} {pc : Nat} {p : Place} {e : Fault}
    (h : m.memory.InRange m.pc)
    (ha : p.address m.relativeBase (m.memory.get m.pc) pc = .error e) :
    designate pc p m = .error e m.advance := by
  rw [designate, bind_of_ok (fetch_of_inRange h),
    bind_of_ok (show base m.advance = .ok m.relativeBase m.advance from rfl), ha]
  rfl

theorem designate_of_ok {m : Machine} {pc a : Nat} {p : Place} (h : m.memory.InRange m.pc)
    (ha : p.address m.relativeBase (m.memory.get m.pc) pc = .ok a) :
    designate pc p m = .ok a m.advance := by
  rw [designate, bind_of_ok (fetch_of_inRange h),
    bind_of_ok (show base m.advance = .ok m.relativeBase m.advance from rfl), ha]
  rfl

theorem source_immediate (pc : Nat) : source pc .immediate = fetch := rfl

theorem source_stored_of_error {m n : Machine} {pc : Nat} {p : Place} {e : Fault}
    (h : designate pc p m = .error e n) : source pc (.stored p) m = .error e n := by
  rw [source, bind_of_error h]

theorem source_stored_of_ok {m n : Machine} {pc a : Nat} {p : Place}
    (h : designate pc p m = .ok a n) (ha : n.memory.InRange a) :
    source pc (.stored p) m =
      .ok (n.memory.get a) { n with memory := n.memory.extend a } := by
  rw [source, bind_of_ok h, onMemory_read_of_inRange ha]

theorem source_stored_of_not_inRange {m n : Machine} {pc a : Nat} {p : Place}
    (h : designate pc p m = .ok a n) (ha : ¬n.memory.InRange a) :
    source pc (.stored p) m = .error (.addressOutOfRange a) n := by
  rw [source, bind_of_ok h, onMemory_read_of_not_inRange ha]

/-! ### Steps -/

theorem step_of_halted {m : Machine} (h : m.halted = true) :
    step m = .error .alreadyHalted m := by
  rw [step, bind_of_error (show requireRunning m = .error .alreadyHalted m from by
    rw [requireRunning, if_pos h])]

private theorem step_of_running {m : Machine} (h : m.halted = false) :
    step m = (onMemory (Memory.decodeAt m.pc) >>= fun r => do
      jumpTo r.2
      execute m.pc r.1) m := by
  rw [step, bind_of_ok (show requireRunning m = .ok () m from by
      rw [requireRunning, if_neg (by rw [h]; exact Bool.false_ne_true)]),
    bind_of_ok (show counter m = .ok m.pc m from rfl)]

theorem step_of_not_inRange {m : Machine} (h : m.halted = false) (hr : ¬m.memory.InRange m.pc) :
    step m = .error (.addressOutOfRange m.pc) m := by
  rw [step_of_running h, bind_of_error (onMemory_of_error (Memory.decodeAt_of_not_inRange hr))]

theorem step_of_undecodable {m : Machine} {e : Fault} (h : m.halted = false)
    (hr : m.memory.InRange m.pc)
    (hd : Instruction.decode m.pc (m.memory.get m.pc) = .error e) :
    step m = .error e { m with memory := m.memory.extend m.pc } := by
  rw [step_of_running h, bind_of_error (onMemory_of_error (Memory.decodeAt_of_undecodable hr hd))]

/-- **A step executes the instruction at the program counter**, in the state in which its word has
been fetched. -/
theorem step_of_decode {m : Machine} {i : Instruction} (h : m.halted = false)
    (hr : m.memory.InRange m.pc)
    (hd : Instruction.decode m.pc (m.memory.get m.pc) = .ok i) :
    step m = execute m.pc i m.advance := by
  rw [step_of_running h, bind_of_ok (onMemory_of_ok (Memory.decodeAt_of_decode hr hd))]
  rfl

end Machine

end IntcodeMachine

/-
**What a step demands of the state.**

A step looks at the state in a fixed order, and each look is a check that may refuse it: is the
program still running, can this cell be had, is this integer an address, and so on.  This module
writes the order down as a list, `Machine.checks`, without running anything: operands are evaluated
against memory as it stands before the step, and arithmetic is over the integers.  That a step does
make these checks, in this order, is `IntcodeMachine.Proofs.Step.Execution`.

Main definitions:

* `Place.exact`, `BinaryOp.exact` — addresses and results as exact integers;
* `Machine.value`, `Machine.address` — what an operand stands for in a state;
* `Machine.Check` — the kinds of checks, with `Check.Holds` and `Check.fault?`;
* `Machine.checks` — **the checks of a step, in order**;
* `Machine.firstFault`, `Machine.passing` — the first failure in a list of checks, and the checks
  before it;
* `Machine.reached` — the state that a step has reached when it has passed given checks.

Main results:

* `BinaryOp.apply_eq_ofInt?_exact` — an operation gives the cell of its exact result;
* `Machine.Check.fault?_eq_none_iff` — a check has no fault exactly when it holds;
* `Machine.reached_memory`, `Machine.reached_pc`, `Machine.reached_input` — **what passing checks
  does to the state**: memory grows, the program counter moves, and input is taken at most once.
-/

import IntcodeMachine.Machine.Step
import IntcodeMachine.Proofs.Memory.Growth
import Mathlib.Data.List.TakeWhile

set_option relaxedAutoImplicit false
set_option autoImplicit false

namespace IntcodeMachine

/-! ### Exact integers -/

/-- The exact integer that a literal gives for the address, under the relative base `base`. -/
def Place.exact (base literal : Cell) : Place → Int
  | position => literal.toInt
  | relative => base.toInt + literal.toInt

theorem Address.ofCell_eq (v : Cell) :
    Address.ofCell v =
      if 0 ≤ v.toInt then .ok v.toInt.toNat else .error (.negativeAddress v) := by
  by_cases h : 0 ≤ v.toInt <;> simp [Address.ofCell, Address.ofCell?, h]

/-- The exact result of an operation. -/
def BinaryOp.exact : BinaryOp → Cell → Cell → Int
  | add, a, b => a.toInt + b.toInt
  | multiply, a, b => a.toInt * b.toInt
  | lessThan, a, b => if a.toInt < b.toInt then 1 else 0
  | equals, a, b => if a.toInt = b.toInt then 1 else 0

theorem Cell.ofInt?_ofBool {p : Prop} [Decidable p] :
    Cell.ofInt? (if p then 1 else 0) = some (Cell.ofBool (decide p)) := by
  by_cases h : p
  · simp only [h, if_true, decide_true]
    rfl
  · simp only [h, if_false, decide_false]
    rfl

/-- An operation gives the cell of its exact result, if there is one. -/
theorem BinaryOp.apply_eq_ofInt?_exact (op : BinaryOp) (a b : Cell) :
    op.apply a b = Cell.ofInt? (op.exact a b) := by
  cases op with
  | add => rfl
  | multiply => rfl
  | lessThan =>
      simp only [apply, exact, Cell.ofInt?_ofBool, Int64.lt_iff_toInt_lt]
  | equals =>
      simp only [apply, exact, Cell.ofInt?_ofBool, Int64.toInt_inj]

/-- The input after one request; a source without an answer stays as it is. -/
def Input.rest (source : Input) : Input :=
  match source.next with
  | some (_, rest) => rest
  | none => source

theorem Input.rest_of_next {source rest : Input} {v : Cell} (h : source.next = some (v, rest)) :
    source.rest = rest := by
  simp only [Input.rest, h]

namespace Machine

/-! ### Operands -/

/-- The cell of the operand `k`, counted from one. -/
def literal (m : Machine) (k : Nat) : Cell := m.memory.get (m.pc + k)

/-- The exact integer that the operand `k` gives for an address. -/
def exactAddress (m : Machine) (k : Nat) (p : Place) : Int := p.exact m.relativeBase (m.literal k)

/-- The address that the operand `k` designates, when its exact integer is one. -/
def address (m : Machine) (k : Nat) (p : Place) : Nat := (m.exactAddress k p).toNat

/-- The value that the operand `k` stands for. -/
def value (m : Machine) (k : Nat) : Mode → Cell
  | .immediate => m.literal k
  | .stored p => m.memory.get (m.address k p)

/-! ### Checks -/

/-- The checks of which a step may be made. -/
inductive Check where
  /-- The program has not halted. -/
  | running
  /-- The instruction word, at the address `a`, can be read. -/
  | word (a : Nat)
  /-- The word `w` stands for an instruction. -/
  | decodable (w : Cell)
  /-- The operand cell at the address `a` can be fetched. -/
  | operand (a : Nat)
  /-- The exact integer `n` is an address. -/
  | address (n : Int)
  /-- The cell at the address `a` can be read or written. -/
  | cell (a : Nat)
  /-- The exact result `n` is a cell. -/
  | fits (n : Int)
  /-- There is a value of the input left. -/
  | input
deriving DecidableEq

namespace Check

/-- A check **holds** of the state in which the step begins. -/
def Holds (m : Machine) : Check → Prop
  | running => m.halted = false
  | word a => m.memory.InRange a
  | decodable w => ∃ i, Instruction.decode m.pc w = .ok i
  | operand a => m.memory.InRange a
  | address n => Cell.Fits n ∧ 0 ≤ n
  | cell a => m.memory.InRange a
  | fits n => Cell.Fits n
  | input => ∃ v rest, m.input.next = some (v, rest)

/-- The fault of a check that does not hold.  An integer that is to be an address is first to be a
cell, and only then not negative. -/
def fault? (m : Machine) : Check → Option Fault
  | running => if m.halted then some .alreadyHalted else none
  | word a => if m.memory.InRange a then none else some (.addressOutOfRange a)
  | decodable w =>
      match Instruction.decode m.pc w with
      | .ok _ => none
      | .error e => some e
  | operand a => if m.memory.InRange a then none else some (.addressOutOfRange a)
  | address n =>
      if Cell.Fits n then if 0 ≤ n then none else some (.negativeAddress (Int64.ofInt n))
      else some (.overflow m.pc)
  | cell a => if m.memory.InRange a then none else some (.addressOutOfRange a)
  | fits n => if Cell.Fits n then none else some (.overflow m.pc)
  | input =>
      match m.input.next with
      | some _ => none
      | none => some (.inputExhausted m.pc)

/-- A check has no fault exactly when it holds. -/
theorem fault?_eq_none_iff {m : Machine} {c : Check} : c.fault? m = none ↔ c.Holds m := by
  cases c with
  | running => simp [fault?, Holds]
  | word a => simp [fault?, Holds]
  | decodable w => cases h : Instruction.decode m.pc w <;> simp [fault?, Holds, h]
  | operand a => simp [fault?, Holds]
  | address n => by_cases h : Cell.Fits n <;> simp [fault?, Holds, h]
  | cell a => simp [fault?, Holds]
  | fits n => simp [fault?, Holds]
  | input =>
      cases h : m.input.next with
      | none => simp [fault?, Holds, h]
      | some r => simpa [fault?, Holds, h] using ⟨r.1, r.2, rfl⟩

theorem not_holds_of_fault? {m : Machine} {c : Check} {e : Fault} (h : c.fault? m = some e) :
    ¬c.Holds m := by
  intro hold
  rw [fault?_eq_none_iff.2 hold] at h
  cases h

instance (m : Machine) (c : Check) : Decidable (c.Holds m) := decidable_of_iff _ fault?_eq_none_iff

/-- The addresses that memory has once a check has been passed. -/
def cells : Check → List Nat
  | word a => [a]
  | operand a => [a]
  | cell a => [a]
  | _ => []

/-- A check that reaches for a cell has one fault: the address is out of range. -/
theorem fault?_of_mem_cells {m : Machine} {c : Check} {a : Nat} {e : Fault} (ha : a ∈ c.cells)
    (h : c.fault? m = some e) : ¬m.memory.InRange a ∧ e = .addressOutOfRange a := by
  cases c with
  | word b =>
      obtain rfl := List.mem_singleton.1 ha
      simpa [fault?, eq_comm] using h
  | operand b =>
      obtain rfl := List.mem_singleton.1 ha
      simpa [fault?, eq_comm] using h
  | cell b =>
      obtain rfl := List.mem_singleton.1 ha
      simpa [fault?, eq_comm] using h
  | _ => cases ha

theorem fault?_address {m : Machine} {n : Int} {e : Fault}
    (h : (address n).fault? m = some e) :
    (¬Cell.Fits n ∧ e = .overflow m.pc) ∨
      (Cell.Fits n ∧ n < 0 ∧ e = .negativeAddress (Int64.ofInt n)) := by
  by_cases hfits : Cell.Fits n
  · right
    simpa [fault?, hfits, eq_comm] using h
  · left
    simpa [fault?, hfits, eq_comm] using h

theorem fault?_fits {m : Machine} {n : Int} {e : Fault} (h : (fits n).fault? m = some e) :
    ¬Cell.Fits n ∧ e = .overflow m.pc := by
  simpa [fault?, eq_comm] using h

theorem fault?_input {m : Machine} {e : Fault} (h : input.fault? m = some e) :
    m.input.next = none ∧ e = .inputExhausted m.pc := by
  cases hnext : m.input.next with
  | none => simpa [fault?, hnext, eq_comm] using h
  | some r => simp [fault?, hnext] at h

/-- Whether a check, once passed, moves the program counter past a cell: past the word when it has
been decoded, and past an operand when it has been fetched. -/
def moves : Check → Bool
  | decodable _ => true
  | operand _ => true
  | _ => false

/-- Whether a check is the fetching of an operand. -/
def isOperand : Check → Bool
  | operand _ => true
  | _ => false

/-- The state after a check has been passed. -/
def advance (n : Machine) : Check → Machine
  | running => n
  | word a => { n with memory := n.memory.extend a }
  | decodable _ => { n with pc := n.pc + 1 }
  | operand a => { n with memory := n.memory.extend a, pc := n.pc + 1 }
  | address _ => n
  | cell a => { n with memory := n.memory.extend a }
  | fits _ => n
  | input => { n with input := n.input.rest }

end Check

/-! ### The checks of a step -/

/-- The checks of an operand that designates an address. -/
def designateChecks (m : Machine) (k : Nat) (p : Place) : List Check :=
  [.operand (m.pc + k), .address (m.exactAddress k p)]

/-- The checks of an operand that is read. -/
def sourceChecks (m : Machine) (k : Nat) : Mode → List Check
  | .immediate => [.operand (m.pc + k)]
  | .stored p => m.designateChecks k p ++ [.cell (m.address k p)]

/-- The checks of a result; a comparison has none. -/
def resultChecks (op : BinaryOp) (a b : Cell) : List Check :=
  match op with
  | .add => [.fits (op.exact a b)]
  | .multiply => [.fits (op.exact a b)]
  | .lessThan => []
  | .equals => []

/-- The checks of an instruction whose word has been decoded. -/
def instructionChecks (m : Machine) : Instruction → List Check
  | .binary op left right destination =>
      m.sourceChecks 1 left ++ m.sourceChecks 2 right ++ m.designateChecks 3 destination ++
        resultChecks op (m.value 1 left) (m.value 2 right) ++ [.cell (m.address 3 destination)]
  | .input destination =>
      m.designateChecks 1 destination ++ [.input] ++ [.cell (m.address 1 destination)]
  | .output operand => m.sourceChecks 1 operand
  | .jump test condition target =>
      m.sourceChecks 1 condition ++
        if test.holds (m.value 1 condition) then
          m.sourceChecks 2 target ++ [.address (m.value 2 target).toInt]
        else []
  | .adjustBase operand =>
      m.sourceChecks 1 operand ++ [.fits (m.relativeBase.toInt + (m.value 1 operand).toInt)]
  | .halt => []

/-- The checks that come before any operand is fetched. -/
def wordChecks (m : Machine) : List Check :=
  [.running, .word m.pc, .decodable (m.memory.get m.pc)]

/-- **The checks of a step**, in order. -/
def checks (m : Machine) : List Check :=
  m.wordChecks ++
    match Instruction.decode m.pc (m.memory.get m.pc) with
    | .ok i => m.instructionChecks i
    | .error _ => []

theorem checks_of_decode {m : Machine} {i : Instruction}
    (h : Instruction.decode m.pc (m.memory.get m.pc) = .ok i) :
    m.checks = m.wordChecks ++ m.instructionChecks i := by
  simp only [checks, h]

theorem holds_of_mem_wordChecks {m : Machine} {i : Instruction} (hh : m.halted = false)
    (hr : m.memory.InRange m.pc) (hd : Instruction.decode m.pc (m.memory.get m.pc) = .ok i) :
    ∀ c ∈ m.wordChecks, c.Holds m := by
  simp [wordChecks, Check.Holds, hh, hr, hd]

theorem checks_of_undecodable {m : Machine} {e : Fault}
    (h : Instruction.decode m.pc (m.memory.get m.pc) = .error e) :
    m.checks = m.wordChecks := by
  simp only [checks, h, List.append_nil]

/-! ### The first failure -/

/-- The first fault in a list of checks. -/
def firstFault (m : Machine) (cs : List Check) : Option Fault := cs.findSome? (Check.fault? m)

/-- The checks before the first one that does not hold. -/
def passing (m : Machine) (cs : List Check) : List Check := cs.takeWhile fun c => decide (c.Holds m)

theorem firstFault_eq_none_iff {m : Machine} {cs : List Check} :
    m.firstFault cs = none ↔ ∀ c ∈ cs, c.Holds m := by
  simp only [firstFault, List.findSome?_eq_none_iff, Check.fault?_eq_none_iff]

theorem firstFault_eq_some_iff {m : Machine} {cs : List Check} {e : Fault} :
    m.firstFault cs = some e ↔ ∃ before c after, cs = before ++ c :: after ∧
      c.fault? m = some e ∧ ∀ b ∈ before, b.Holds m := by
  simp only [firstFault, List.findSome?_eq_some_iff, Check.fault?_eq_none_iff]

theorem firstFault_append {m : Machine} {cs ds : List Check} :
    m.firstFault (cs ++ ds) = (m.firstFault cs).or (m.firstFault ds) :=
  List.findSome?_append

theorem holds_of_mem_passing {m : Machine} {cs : List Check} {c : Check} (h : c ∈ m.passing cs) :
    c.Holds m := by
  unfold passing at h
  have hc := List.mem_takeWhile_imp h
  exact of_decide_eq_true hc

theorem passing_append_of_holds {m : Machine} {cs ds : List Check} (h : ∀ c ∈ cs, c.Holds m) :
    m.passing (cs ++ ds) = cs ++ m.passing ds :=
  List.takeWhile_append_of_pos fun c hc => decide_eq_true (h c hc)

/-- Checks that follow a failure make no difference. -/
theorem passing_append_of_fault {m : Machine} {cs ds : List Check} {e : Fault}
    (h : m.firstFault cs = some e) : m.passing (cs ++ ds) = m.passing cs := by
  obtain ⟨before, c, after, rfl, hc, hbefore⟩ := firstFault_eq_some_iff.1 h
  have hstop : ∀ rest, m.passing (c :: rest) = [] := by
    intro rest
    exact List.takeWhile_cons_of_neg (by simpa using Check.not_holds_of_fault? hc)
  rw [List.append_assoc, List.cons_append, passing_append_of_holds hbefore,
    passing_append_of_holds hbefore, hstop, hstop]

section Congr

variable {m n : Machine} (h : ∀ c : Check, c.fault? n = c.fault? m)
include h

/-- Two states with the same faults pass the same checks. -/
theorem holds_congr (c : Check) : c.Holds n ↔ c.Holds m := by
  rw [← Check.fault?_eq_none_iff, ← Check.fault?_eq_none_iff, h]

theorem firstFault_congr (cs : List Check) : n.firstFault cs = m.firstFault cs := by
  simp only [firstFault, funext h]

theorem passing_congr (cs : List Check) : n.passing cs = m.passing cs := by
  simp only [passing, holds_congr h]

end Congr

/-! ### The state reached -/

/-- The state that a step has reached from `m` when it has passed the checks `cs`. -/
def reached (m : Machine) (cs : List Check) : Machine := cs.foldl Check.advance m

@[simp] theorem reached_nil (m : Machine) : m.reached [] = m := rfl

@[simp] theorem reached_cons (m : Machine) (c : Check) (cs : List Check) :
    m.reached (c :: cs) = (c.advance m).reached cs := rfl

theorem reached_append (m : Machine) (cs ds : List Check) :
    m.reached (cs ++ ds) = (m.reached cs).reached ds :=
  List.foldl_append

/-- Passing checks extends memory to the cells that were looked at. -/
theorem reached_memory (m : Machine) (cs : List Check) :
    (m.reached cs).memory = m.memory.cover (cs.flatMap Check.cells) := by
  induction cs generalizing m with
  | nil => rfl
  | cons c cs ih =>
      rw [reached_cons, ih, List.flatMap_cons, Memory.cover_append]
      cases c <;> rfl

/-- Passing checks moves the program counter past the cells that were fetched. -/
theorem reached_pc (m : Machine) (cs : List Check) :
    (m.reached cs).pc = m.pc + cs.countP Check.moves := by
  induction cs generalizing m with
  | nil => rfl
  | cons c cs ih =>
      rw [reached_cons, ih, List.countP_cons]
      cases c <;> simp only [Check.advance, Check.moves] <;> simp <;> omega

@[simp] theorem reached_relativeBase (m : Machine) (cs : List Check) :
    (m.reached cs).relativeBase = m.relativeBase := by
  induction cs generalizing m with
  | nil => rfl
  | cons c cs ih => rw [reached_cons, ih]; cases c <;> rfl

@[simp] theorem reached_output (m : Machine) (cs : List Check) :
    (m.reached cs).output = m.output := by
  induction cs generalizing m with
  | nil => rfl
  | cons c cs ih => rw [reached_cons, ih]; cases c <;> rfl

@[simp] theorem reached_halted (m : Machine) (cs : List Check) :
    (m.reached cs).halted = m.halted := by
  induction cs generalizing m with
  | nil => rfl
  | cons c cs ih => rw [reached_cons, ih]; cases c <;> rfl

/-- Only the check of the input takes a value from it. -/
theorem reached_input {m : Machine} {cs : List Check} (h : Check.input ∉ cs) :
    (m.reached cs).input = m.input := by
  induction cs generalizing m with
  | nil => rfl
  | cons c cs ih =>
      obtain ⟨hc, hcs⟩ := List.ne_and_not_mem_of_not_mem_cons h
      rw [reached_cons, ih hcs]
      cases c with
      | input => exact absurd rfl hc
      | _ => rfl

theorem reached_input_append {m : Machine} {cs : List Check} (h : Check.input ∉ cs) :
    (m.reached (cs ++ [.input])).input = m.input.rest := by
  rw [reached_append]
  show (m.reached cs).input.rest = m.input.rest
  rw [reached_input h]

/-- Passing checks changes the size of memory, the program counter and the input, and nothing
else. -/
theorem reached_eq {m : Machine} {cs : List Check} {rest : Input}
    (h : (m.reached cs).input = rest) :
    m.reached cs =
      { m with
        memory := m.memory.cover (cs.flatMap Check.cells)
        pc := m.pc + cs.countP Check.moves
        input := rest } := by
  have hbase := reached_relativeBase m cs
  have houtput := reached_output m cs
  have hhalted := reached_halted m cs
  rw [← reached_memory, ← reached_pc, ← h, ← hbase, ← houtput, ← hhalted]

end Machine

end IntcodeMachine

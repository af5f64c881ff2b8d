/-
**Rules for the steps of a program.**

To run a program that is known, one wants to know what each of its steps does without listing the
checks of the step.  This module has one rule for each kind of instruction.  Its premises are that
the step finds the instruction, and what the operands stand for; its conclusion is the state after
the step.

A step may make memory longer, and where its operands lie decides by how much.  The rules do not
follow this cell by cell.  They fix a bound below which all of the program and its data lie, and say
that memory grows within the bound, which the invariant of a program can keep.

Main definitions:

* `Memory.GrowsWithin` — memory grows, but not beyond a bound;
* `Machine.Finds` — the instruction that a step finds, with its operands below the bound;
* `Machine.Designates`, `Machine.Reads` — what an operand stands for.

Main results:

* `Machine.Finds.step_of_transition` — a step whose checks pass within the bound carries out its
  instruction, and memory grows within the bound;
* `Machine.Finds.step_of_fault` — a step in which a check fails after others have passed so;
* `Machine.Finds.binary`, `Machine.Finds.input`, `Machine.Finds.output`, `Machine.Finds.jumpTaken`,
  `Machine.Finds.jumpUntaken`, `Machine.Finds.adjustBase`, `Machine.Finds.halt` — **the rules**;
* `Machine.Finds.adjustBase_overflow` — the rule for a sum that is no base.
-/

import IntcodeMachine.Proofs.Step.Effect

set_option relaxedAutoImplicit false
set_option autoImplicit false

namespace IntcodeMachine

/-- Memory **grows within** the bound `n`: it becomes longer at most to have all cells below `n`. -/
structure Memory.GrowsWithin (n : Nat) (memory memory' : Memory) : Prop where
  growsTo : memory.GrowsTo memory'
  size_le : memory'.size ≤ max memory.size n

/-- Memory that has all cells below the bound stays as it is. -/
theorem Memory.GrowsWithin.eq_of_le {n : Nat} {memory memory' : Memory}
    (h : memory.GrowsWithin n memory') (hn : n ≤ memory.size) : memory' = memory := by
  have hge := h.growsTo.size_le
  have hle := h.size_le
  exact Memory.ext_get (by omega) h.growsTo.get_eq

namespace Machine

/-! ### Instructions and operands below a bound -/

/-- A step from `m` **finds** the instruction `i`: it stands at the program counter, and it and its
operands lie below the bound `n`, where all cells can be had. -/
structure Finds (n : Nat) (m : Machine) (i : Instruction) : Prop where
  running : m.halted = false
  decode : Instruction.decode m.pc (m.memory.get m.pc) = .ok i
  past_le : m.past i ≤ n
  bound_le : n ≤ max m.memory.size Memory.maxCells

/-- The operand `k` **designates** the address `a`, which lies below the bound `n`. -/
structure Designates (n : Nat) (m : Machine) (k : Nat) (p : Place) (a : Nat) : Prop where
  exact_eq : m.exactAddress k p = (a : Int)
  fits : Cell.Fits (a : Int)
  lt_bound : a < n

/-- The operand `k` **reads** as a value: its own cell, or the cell that it designates. -/
inductive Reads (n : Nat) (m : Machine) (k : Nat) : Mode → Cell → Prop
  | immediate : Reads n m k .immediate (m.literal k)
  | stored {p : Place} {a : Nat} (h : m.Designates n k p a) :
      Reads n m k (.stored p) (m.memory.get a)

variable {n k a : Nat} {m m' : Machine} {i : Instruction} {s : Status} {p : Place} {mode : Mode}
  {v : Cell}

theorem designates_position (h : (m.literal k).toInt = (a : Int)) (ha : a < n) :
    m.Designates n k .position a where
  exact_eq := h
  fits := h ▸ Cell.fits_toInt _
  lt_bound := ha

theorem Designates.address_eq (h : m.Designates n k p a) : m.address k p = a := by
  rw [address, h.exact_eq, Int.toNat_natCast]

theorem Reads.value_eq (h : m.Reads n k mode v) : m.value k mode = v := by
  cases h with
  | immediate => rfl
  | stored hp => rw [value, hp.address_eq]

/-! ### Checks below a bound -/

/-- A check **passes within** the bound `n`: it holds, and reaches for no cell beyond. -/
def Check.PassesWithin (n : Nat) (m : Machine) (c : Check) : Prop :=
  c.Holds m ∧ ∀ a ∈ c.cells, a < n

/-- A check that reaches for no cell only has to hold. -/
theorem passesWithin_of_cells_eq_nil {c : Check} (hcells : c.cells = []) (hold : c.Holds m) :
    c.PassesWithin n m := by
  refine ⟨hold, fun a ha => ?_⟩
  rw [hcells] at ha
  cases ha

/-- Checks that pass within the bound make memory grow within it. -/
theorem growsWithin_cover {cs : List Check} (h : ∀ c ∈ cs, c.PassesWithin n m) :
    m.memory.GrowsWithin n (m.memory.cover (cs.flatMap Check.cells)) := by
  refine ⟨Memory.growsTo_cover _ _,
    Memory.size_cover_le_of_lt (Nat.le_max_left _ _) fun a ha => ?_⟩
  obtain ⟨c, hc, hac⟩ := List.mem_flatMap.1 ha
  exact Nat.lt_of_lt_of_le ((h c hc).2 a hac) (Nat.le_max_right _ _)

theorem passesWithin_resultChecks {op : BinaryOp} {x y : Cell} (hv : v.toInt = op.exact x y) :
    ∀ c ∈ resultChecks op x y, c.PassesWithin n m := by
  have hfits : Cell.Fits (op.exact x y) := hv ▸ Cell.fits_toInt v
  cases op with
  | add => exact List.forall_mem_singleton.2 (passesWithin_of_cells_eq_nil rfl hfits)
  | multiply => exact List.forall_mem_singleton.2 (passesWithin_of_cells_eq_nil rfl hfits)
  | lessThan => exact fun c hc => absurd hc List.not_mem_nil
  | equals => exact fun c hc => absurd hc List.not_mem_nil

namespace Finds

theorem inRange (h : Finds n m i) (ha : a < n) : m.memory.InRange a :=
  Nat.lt_of_lt_of_le ha h.bound_le

theorem passesWithin_wordChecks (h : Finds n m i) : ∀ c ∈ m.wordChecks, c.PassesWithin n m := by
  have hlt : m.pc < n := by
    have hpast := h.past_le
    unfold past at hpast
    omega
  intro c hc
  refine ⟨holds_of_mem_wordChecks h.running (h.inRange hlt) h.decode c hc, ?_⟩
  simp only [wordChecks, List.mem_cons, List.not_mem_nil, or_false] at hc
  rcases hc with rfl | rfl | rfl <;> simp [Check.cells, hlt]

theorem passesWithin_operand (h : Finds n m i) (hk : k ≤ i.opcode.arity) :
    Check.PassesWithin n m (.operand (m.pc + k)) := by
  have hlt : m.pc + k < n := by
    have hpast := h.past_le
    unfold past at hpast
    omega
  exact ⟨h.inRange hlt, by simpa [Check.cells] using hlt⟩

theorem passesWithin_cell (h : Finds n m i) (ha : a < n) : Check.PassesWithin n m (.cell a) :=
  ⟨h.inRange ha, by simpa [Check.cells] using ha⟩

theorem passesWithin_designateChecks (h : Finds n m i) (hp : m.Designates n k p a)
    (hk : k ≤ i.opcode.arity) : ∀ c ∈ m.designateChecks k p, c.PassesWithin n m := by
  have haddress : Check.PassesWithin n m (.address (m.exactAddress k p)) := by
    rw [hp.exact_eq]
    exact passesWithin_of_cells_eq_nil rfl ⟨hp.fits, Int.natCast_nonneg a⟩
  simpa [designateChecks] using ⟨h.passesWithin_operand hk, haddress⟩

theorem passesWithin_sourceChecks (h : Finds n m i) (hv : m.Reads n k mode v)
    (hk : k ≤ i.opcode.arity) : ∀ c ∈ m.sourceChecks k mode, c.PassesWithin n m := by
  cases hv with
  | immediate => simpa [sourceChecks] using h.passesWithin_operand hk
  | stored hp =>
      rw [sourceChecks, hp.address_eq]
      exact List.forall_mem_append.2 ⟨h.passesWithin_designateChecks hp hk,
        List.forall_mem_singleton.2 (h.passesWithin_cell hp.lt_bound)⟩

/-- **A step whose checks pass within the bound** carries out its instruction, and memory grows
within the bound. -/
theorem step_of_transition (h : Finds n m i)
    (hcs : ∀ c ∈ m.instructionChecks i, c.PassesWithin n m) (ht : Transition m i s m') :
    step m = .ok s m' ∧ m.memory.GrowsWithin n m.grown := by
  have hall : ∀ c ∈ m.checks, c.PassesWithin n m := by
    rw [checks_of_decode h.decode]
    exact List.forall_mem_append.2 ⟨h.passesWithin_wordChecks, hcs⟩
  exact ⟨Machine.step_of_transition (fun c hc => (hall c hc).1) h.decode ht,
    growsWithin_cover hall⟩

/-- **A step in which a check fails**, after others that pass within the bound and take no input:
it stops there, and memory has grown within the bound. -/
theorem step_of_fault {cs ds : List Check} {c : Check} {e : Fault} (h : Finds n m i)
    (hcs : m.instructionChecks i = cs ++ c :: ds) (hpass : ∀ b ∈ cs, b.PassesWithin n m)
    (hinput : Check.input ∉ cs) (hfault : c.fault? m = some e) :
    ∃ memory, m.memory.GrowsWithin n memory ∧
      step m = .error e { m with memory, pc := m.pc + (1 + cs.countP Check.moves) } := by
  have hall : ∀ b ∈ m.wordChecks ++ cs, b.PassesWithin n m :=
    List.forall_mem_append.2 ⟨h.passesWithin_wordChecks, hpass⟩
  have hold : ∀ b ∈ m.wordChecks ++ cs, b.Holds m := fun b hb => (hall b hb).1
  have hchecks : m.checks = (m.wordChecks ++ cs) ++ c :: ds := by
    rw [checks_of_decode h.decode, hcs, List.append_assoc]
  have hinput' : Check.input ∉ m.wordChecks ++ cs := by
    simp [input_notMem_wordChecks, hinput]
  refine ⟨_, growsWithin_cover hall, step_error_iff.2 ⟨?_, ?_⟩⟩
  · exact firstFault_eq_some_iff.2 ⟨_, c, ds, hchecks, hfault, hold⟩
  · rw [hchecks, passing_append_of_holds hold,
      passing_cons_of_not_holds (Check.not_holds_of_fault? hfault), List.append_nil,
      reached_eq (reached_input hinput'), List.countP_append, countP_wordChecks]

/-! ### The rules -/

/-- Two values are combined, and the result is stored. -/
theorem binary {op : BinaryOp} {left right : Mode} {destination : Place} {x y : Cell}
    (h : Finds n m (.binary op left right destination)) (hx : m.Reads n 1 left x)
    (hy : m.Reads n 2 right y) (hp : m.Designates n 3 destination a) (hv : op.apply x y = some v) :
    ∃ memory, m.memory.GrowsWithin n memory ∧
      step m = .ok .running { m with memory := memory.set a v, pc := m.pc + 4 } := by
  have hexact : v.toInt = op.exact (m.value 1 left) (m.value 2 right) := by
    rw [hx.value_eq, hy.value_eq, ← Cell.ofInt?_eq_some_iff, ← BinaryOp.apply_eq_ofInt?_exact, hv]
  have hchecks : ∀ c ∈ m.instructionChecks (.binary op left right destination),
      c.PassesWithin n m := by
    rw [instructionChecks, hp.address_eq]
    simp only [List.forall_mem_append, List.forall_mem_singleton]
    exact ⟨⟨⟨⟨h.passesWithin_sourceChecks hx (show 1 ≤ 3 by decide),
      h.passesWithin_sourceChecks hy (show 2 ≤ 3 by decide)⟩,
      h.passesWithin_designateChecks hp (Nat.le_refl 3)⟩, passesWithin_resultChecks hexact⟩,
      h.passesWithin_cell hp.lt_bound⟩
  obtain ⟨hstep, hgrows⟩ := h.step_of_transition hchecks (.binary hexact)
  rw [hp.address_eq] at hstep
  exact ⟨_, hgrows, hstep⟩

/-- A value of the input is stored. -/
theorem input {destination : Place} {rest : Input} (h : Finds n m (.input destination))
    (hp : m.Designates n 1 destination a) (hv : m.input.next = some (v, rest)) :
    ∃ memory, m.memory.GrowsWithin n memory ∧
      step m = .ok .running
        { m with memory := memory.set a v, pc := m.pc + 2, input := rest } := by
  have hchecks : ∀ c ∈ m.instructionChecks (.input destination), c.PassesWithin n m := by
    rw [instructionChecks, hp.address_eq]
    simp only [List.forall_mem_append, List.forall_mem_singleton]
    exact ⟨⟨h.passesWithin_designateChecks hp (Nat.le_refl 1),
      passesWithin_of_cells_eq_nil rfl ⟨v, rest, hv⟩⟩, h.passesWithin_cell hp.lt_bound⟩
  obtain ⟨hstep, hgrows⟩ := h.step_of_transition hchecks (.input hv)
  rw [hp.address_eq] at hstep
  exact ⟨_, hgrows, hstep⟩

/-- A value is put out. -/
theorem output (h : Finds n m (.output mode)) (hv : m.Reads n 1 mode v) :
    ∃ memory, m.memory.GrowsWithin n memory ∧
      step m = .ok .running { m with memory, pc := m.pc + 2, output := m.output.push v } := by
  obtain ⟨hstep, hgrows⟩ :=
    h.step_of_transition (h.passesWithin_sourceChecks hv (Nat.le_refl 1)) .output
  rw [hv.value_eq] at hstep
  exact ⟨_, hgrows, hstep⟩

/-- A jump is taken, to the address that the second operand stands for. -/
theorem jumpTaken {test : Condition} {condition target : Mode} {x y : Cell}
    (h : Finds n m (.jump test condition target)) (hx : m.Reads n 1 condition x)
    (ht : test.holds x = true) (hy : m.Reads n 2 target y) (ha : y.toInt = (a : Int)) :
    ∃ memory, m.memory.GrowsWithin n memory ∧
      step m = .ok .running { m with memory, pc := a } := by
  have hchecks : ∀ c ∈ m.instructionChecks (.jump test condition target),
      c.PassesWithin n m := by
    rw [instructionChecks, hx.value_eq, if_pos ht, hy.value_eq]
    simp only [List.forall_mem_append, List.forall_mem_singleton]
    exact ⟨h.passesWithin_sourceChecks hx (show 1 ≤ 2 by decide),
      h.passesWithin_sourceChecks hy (Nat.le_refl 2),
      passesWithin_of_cells_eq_nil rfl ⟨Cell.fits_toInt y, by omega⟩⟩
  rw [← hx.value_eq] at ht
  rw [← hy.value_eq] at ha
  obtain ⟨hstep, hgrows⟩ := h.step_of_transition hchecks (.jumpTaken ht ha)
  exact ⟨_, hgrows, hstep⟩

/-- A jump is not taken, and its target is skipped. -/
theorem jumpUntaken {test : Condition} {condition target : Mode} {x : Cell}
    (h : Finds n m (.jump test condition target)) (hx : m.Reads n 1 condition x)
    (ht : test.holds x = false) :
    ∃ memory, m.memory.GrowsWithin n memory ∧
      step m = .ok .running { m with memory, pc := m.pc + 3 } := by
  have hchecks : ∀ c ∈ m.instructionChecks (.jump test condition target),
      c.PassesWithin n m := by
    rw [instructionChecks, hx.value_eq, if_neg (Bool.not_eq_true _ ▸ ht), List.append_nil]
    exact h.passesWithin_sourceChecks hx (show 1 ≤ 2 by decide)
  rw [← hx.value_eq] at ht
  obtain ⟨hstep, hgrows⟩ := h.step_of_transition hchecks (.jumpUntaken ht)
  exact ⟨_, hgrows, hstep⟩

/-- A value is added to the relative base. -/
theorem adjustBase {x : Cell} (h : Finds n m (.adjustBase mode)) (hx : m.Reads n 1 mode x)
    (hv : v.toInt = m.relativeBase.toInt + x.toInt) :
    ∃ memory, m.memory.GrowsWithin n memory ∧
      step m = .ok .running { m with memory, pc := m.pc + 2, relativeBase := v } := by
  have hfits : Cell.Fits (m.relativeBase.toInt + x.toInt) := hv ▸ Cell.fits_toInt v
  have hchecks : ∀ c ∈ m.instructionChecks (.adjustBase mode), c.PassesWithin n m := by
    rw [instructionChecks, hx.value_eq]
    exact List.forall_mem_append.2 ⟨h.passesWithin_sourceChecks hx (Nat.le_refl 1),
      List.forall_mem_singleton.2 (passesWithin_of_cells_eq_nil rfl hfits)⟩
  rw [← hx.value_eq] at hv
  obtain ⟨hstep, hgrows⟩ := h.step_of_transition hchecks (.adjustBase hv)
  exact ⟨_, hgrows, hstep⟩

/-- A sum that is no cell is no relative base: the step fails with the operand behind it. -/
theorem adjustBase_overflow {x : Cell} (h : Finds n m (.adjustBase mode)) (hx : m.Reads n 1 mode x)
    (hv : ¬Cell.Fits (m.relativeBase.toInt + x.toInt)) :
    ∃ memory, m.memory.GrowsWithin n memory ∧
      step m = .error (.overflow m.pc) { m with memory, pc := m.pc + 2 } := by
  have hfault : Check.fault? m (.fits (m.relativeBase.toInt + (m.value 1 mode).toInt)) =
      some (.overflow m.pc) := by
    rw [hx.value_eq]
    exact if_neg hv
  have hstep := h.step_of_fault rfl (h.passesWithin_sourceChecks hx (Nat.le_refl 1))
    (input_notMem_sourceChecks 1 mode) hfault
  rwa [countP_sourceChecks] at hstep

/-- The program halts. -/
theorem halt (h : Finds n m .halt) :
    ∃ memory, m.memory.GrowsWithin n memory ∧
      step m = .ok .halted { m with memory, pc := m.pc + 1, halted := true } := by
  obtain ⟨hstep, hgrows⟩ :=
    h.step_of_transition (fun c hc => absurd hc List.not_mem_nil) .halt
  exact ⟨_, hgrows, hstep⟩

end Finds

end Machine

end IntcodeMachine

/-
**Only jumps make a program run on.**

A program may write over its own code as it likes, and still it cannot run for long without taking
a jump.  A step that takes none moves the program counter past the word and all operands of its
instruction, so by two cells at least, and an instruction beyond the size that memory can grow to is
not read.  What decreases is therefore not in memory, whose contents are left open, but is the
distance of the program counter from that size.

Main definitions:

* `Machine.TakesJump` — the next step finds a jump whose test holds;
* `Machine.RunsStraight` — what is said about steps from a state that take no jump.

Main results:

* `Machine.pc_of_step` — **a step without a jump** moves past its instruction;
* `Machine.pc_stepped` — and many such steps move the program counter by twice their number;
* `Machine.length_of_straight` — so there are at most half as many as memory can have cells;
* `Machine.straight_run_ends` — **a run that takes no jump ends**.
-/

import IntcodeMachine.Proofs.Runs

set_option relaxedAutoImplicit false
set_option autoImplicit false

namespace IntcodeMachine

namespace Machine

/-- The next step **takes a jump**: its instruction is a jump whose test holds of the condition. -/
def TakesJump (m : Machine) : Prop :=
  ∃ test condition target, m.instruction? = some (.jump test condition target) ∧
    test.holds (m.value 1 condition) = true

variable {m m' : Machine} {n : Nat} {o : Outcome Unit}

/-! ### One step -/

/-- **A step without a jump** moves the program counter past its instruction, which has an operand
at least. -/
theorem pc_of_step (h : step m = .ok .running m') (hjump : ¬m.TakesJump) :
    ∃ i, m.instruction? = some i ∧ m'.pc = m.pc + 1 + i.opcode.arity ∧ 1 ≤ i.opcode.arity := by
  obtain ⟨i, hd, ht⟩ := transition_of_step h
  have hi := instruction?_of_step h hd
  refine ⟨i, hi, ?_⟩
  cases ht with
  | binary => exact ⟨rfl, by simp [Instruction.opcode, Opcode.arity]⟩
  | input => exact ⟨rfl, by simp [Instruction.opcode, Opcode.arity]⟩
  | output => exact ⟨rfl, by simp [Instruction.opcode, Opcode.arity]⟩
  | jumpTaken ht => exact absurd ⟨_, _, _, hi, ht⟩ hjump
  | jumpUntaken => exact ⟨rfl, by simp [Instruction.opcode, Opcode.arity]⟩
  | adjustBase => exact ⟨rfl, by simp [Instruction.opcode, Opcode.arity]⟩

/-- The word of a step that succeeds can be read. -/
theorem inRange_of_step {s : Status} (h : step m = .ok s m') : m.memory.InRange m.pc :=
  holds_of_step h (.word m.pc) (by simp [checks, wordChecks])

theorem step_of_goesOn (h : m.GoesOn n) {k : Nat} (hk : k < n) :
    step (m.stepped k) = .ok .running (m.stepped (k + 1)) := by
  rw [stepped_last]
  exact step_of_perform (h k hk)

/-! ### Many steps -/

/-- Steps without a jump move the program counter by twice their number, or more. -/
theorem pc_stepped (h : m.GoesOn n) (hjumps : ∀ k < n, ¬(m.stepped k).TakesJump) :
    m.pc + 2 * n ≤ (m.stepped n).pc := by
  induction n with
  | zero => rw [stepped_zero, Nat.mul_zero, Nat.add_zero]
  | succ n ih =>
      have hbefore := ih (fun k hk => h k (by omega)) fun k hk => hjumps k (by omega)
      obtain ⟨i, -, hpc, harity⟩ := pc_of_step (step_of_goesOn h n.lt_succ_self)
        (hjumps n n.lt_succ_self)
      omega

/-- Memory that is within the size that it can grow to stays so. -/
theorem size_stepped_le (hsize : m.memory.size ≤ Memory.maxCells) (n : Nat) :
    (m.stepped n).memory.size ≤ Memory.maxCells := by
  have hbounded := (progresses_steps n m).size_bounded
  rwa [Nat.max_eq_right hsize] at hbounded

/-- **There are at most half as many steps without a jump as memory can have cells**, since the last
of them still finds its word. -/
theorem length_of_straight (hsize : m.memory.size ≤ Memory.maxCells) (h : m.GoesOn n)
    (hjumps : ∀ k < n, ¬(m.stepped k).TakesJump) : n ≤ Memory.maxCells / 2 := by
  cases n with
  | zero => exact Nat.zero_le _
  | succ n =>
      have hpc := pc_stepped (fun k hk => h k (Nat.lt_succ_of_lt hk))
        fun k hk => hjumps k (Nat.lt_succ_of_lt hk)
      have hword : (m.stepped n).pc < max (m.stepped n).memory.size Memory.maxCells :=
        inRange_of_step (step_of_goesOn h n.lt_succ_self)
      have hle := size_stepped_le hsize n
      have hcells : Memory.maxCells = 134217728 := rfl
      omega

/-! ### Runs -/

/-- A run that takes no jump comes to its end. -/
theorem exists_run_of_straight (hsize : m.memory.size ≤ Memory.maxCells)
    (hjumps : ∀ k, m.GoesOn k → ¬(m.stepped k).TakesJump) :
    ∃ o, run (Memory.maxCells / 2 + 1) m = some o := by
  rcases m.goesOn_or_stopsAfter (Memory.maxCells / 2 + 1) with hgoes | ⟨k, hk, hstops⟩
  · have hle := length_of_straight hsize hgoes fun k hk =>
      hjumps k fun j hj => hgoes j (Nat.lt_trans hj hk)
    omega
  · obtain ⟨o, hc⟩ := exists_concludes_iff.2 hstops
    exact ⟨o, run_eq_some_iff.2 ⟨k, hk, hc⟩⟩

theorem halted_of_run (h : run n m = some (.ok () m')) : m'.halted = true := by
  obtain ⟨k, -, -, hlast⟩ := run_eq_some_iff.1 h
  generalize hs : step (m.stepped k) = x at hlast
  cases hlast
  exact halted_of_step hs

/-- **What is said about steps from `m` that take no jump.** -/
structure RunsStraight (m : Machine) : Prop where
  /-- Such a step moves the program counter past its instruction, so by two cells or more. -/
  moves : ∀ m', step m = .ok .running m' → ¬m.TakesJump →
    ∃ i, m.instruction? = some i ∧ m'.pc = m.pc + 1 + i.opcode.arity ∧ m.pc + 2 ≤ m'.pc
  /-- There are at most half as many such steps in a row as memory can have cells. -/
  bounded : ∀ n, m.GoesOn n → (∀ k < n, ¬(m.stepped k).TakesJump) → n ≤ Memory.maxCells / 2
  /-- A run all of whose steps are such ends within that number of steps and one more, with a
  program that has halted or with a fault. -/
  ends : (∀ k, m.GoesOn k → ¬(m.stepped k).TakesJump) →
    ∃ o, run (Memory.maxCells / 2 + 1) m = some o ∧
      ((∃ m', o = .ok () m' ∧ m'.halted = true) ∨ ∃ e m', o = .error e m')

/-- **Only taken jumps make a program run on**, whatever it writes over its own code. -/
theorem straight_run_ends (hsize : m.memory.size ≤ Memory.maxCells) : RunsStraight m where
  moves := by
    intro m' h hjump
    obtain ⟨i, hi, hpc, harity⟩ := pc_of_step h hjump
    exact ⟨i, hi, hpc, by omega⟩
  bounded := fun n h hjumps => length_of_straight hsize h hjumps
  ends := by
    intro hjumps
    obtain ⟨o, ho⟩ := exists_run_of_straight hsize hjumps
    refine ⟨o, ho, ?_⟩
    cases o with
    | ok u m' => exact .inl ⟨m', rfl, halted_of_run ho⟩
    | error e m' => exact .inr ⟨e, m', rfl⟩

/-- A program that makes an output instruction of the cell behind its first instruction, and then
executes it. -/
theorem straight_run_ends_rewritten :
    ∃ m : Machine, m.memory = ⟨#[1101, 104, 0, 4, 0, 55, 99]⟩ ∧
      m.memory.size ≤ Memory.maxCells ∧ m.GoesOn 2 ∧
      (∀ k, m.GoesOn k → ¬(m.stepped k).TakesJump) ∧
      (m.stepped 1).instruction? = some (.output .immediate) ∧
      ∃ o, run (Memory.maxCells / 2 + 1) m = some o := by
  have hgoes : GoesOn { memory := ⟨#[1101, 104, 0, 4, 0, 55, 99]⟩, input := .queue [] } 2 := by
    intro k hk
    obtain rfl | rfl : k = 0 ∨ k = 1 := by omega
    · rfl
    · rfl
  have hstraight : ∀ k, GoesOn { memory := ⟨#[1101, 104, 0, 4, 0, 55, 99]⟩, input := .queue [] } k →
      ¬TakesJump (stepped { memory := ⟨#[1101, 104, 0, 4, 0, 55, 99]⟩, input := .queue [] } k) := by
    rintro k hk ⟨test, condition, target, hi, -⟩
    have hle : k ≤ 2 := by
      by_contra hlt
      exact absurd (hk 2 (by omega)) nofun
    obtain rfl | rfl | rfl : k = 0 ∨ k = 1 ∨ k = 2 := by omega
    · cases hi
    · cases hi
    · cases hi
  have hsize : Memory.size ⟨#[1101, 104, 0, 4, 0, 55, 99]⟩ ≤ Memory.maxCells := by decide
  obtain ⟨o, ho, -⟩ := (straight_run_ends hsize).ends hstraight
  exact ⟨_, rfl, hsize, hgoes, hstraight, rfl, o, ho⟩

end Machine

end IntcodeMachine

/-
**A jump that is not taken.**

A jump has two operands, and reads the second only when it is taken.  Otherwise the program counter
moves over the cell of the target, and nothing is known about that cell afterwards that was not
known before: it may hold no address, or be missing, or lie past the last cell that memory can have.

The checks of such a step are those of its word and of its condition, so the step carries out its
instruction as soon as the condition can be read, and memory grows to what these checks reach for
(`Machine.step_untaken`).  The cell of the target is among them only if the condition is read from
there; if it is not, the step does not touch it, and goes the same way whatever it holds.

Main definitions:

* `Machine.sourceCell?` — the cell from which an operand is read;
* `Machine.PassesOver` — what is said about a jump that is not taken.

Main results:

* `Machine.step_untaken` — the state after the step;
* `Machine.target_notMem_touched` — the step does not touch the cell of the target;
* `Machine.untaken_jump_passes_over` — **a jump that is not taken never looks at its target**.
-/

import IntcodeMachine.Machine.Trace
import IntcodeMachine.Proofs.Footprint

set_option relaxedAutoImplicit false
set_option autoImplicit false

namespace IntcodeMachine

namespace Machine

/-- The cell from which the operand `k` is read; a literal is read from none but its own. -/
def sourceCell? (m : Machine) (k : Nat) : Mode → Option Nat
  | .immediate => none
  | .stored p => some (m.address k p)

variable {m n : Machine} {test : Condition} {condition target : Mode} {v : Cell}

/-! ### The checks of the step -/

/-- A jump that is not taken makes the checks of its word and of its condition. -/
theorem checks_of_untaken
    (hd : Instruction.decode m.pc (m.memory.get m.pc) = .ok (.jump test condition target))
    (ht : test.holds (m.value 1 condition) = false) :
    m.checks = m.wordChecks ++ m.sourceChecks 1 condition := by
  rw [checks_of_decode hd, instructionChecks, ht, if_neg Bool.false_ne_true, List.append_nil]

/-- The cells for which these checks reach: the word, the operand, and the cell of the condition. -/
theorem flatMap_cells_source (m : Machine) (k : Nat) (mode : Mode) :
    (m.wordChecks ++ m.sourceChecks k mode).flatMap Check.cells =
      m.pc :: (m.pc + k) :: (m.sourceCell? k mode).toList := by
  cases mode with
  | immediate => rfl
  | stored p => rfl

/-! ### The step -/

/-- **The state after a jump that is not taken.** -/
theorem step_untaken (hi : m.instruction? = some (.jump test condition target))
    (hv : source m.pc condition m.advance = .ok v n) (ht : test.holds v = false) :
    test.holds (m.value 1 condition) = false ∧
      step m = .ok .running { m with memory := m.grown, pc := m.pc + 3 } := by
  obtain ⟨⟨hrunning, hword⟩, hd⟩ := instruction?_eq_some_iff.1 hi
  obtain ⟨hcondition, rfl, -⟩ := (resolves_source condition (stage_advance hword)).of_ok hv
  refine ⟨ht, step_of_transition ?_ hd (.jumpUntaken ht)⟩
  rw [checks_of_untaken hd ht]
  exact List.forall_mem_append.2 ⟨holds_of_mem_wordChecks hrunning hword hd, hcondition⟩

/-- Memory grows to the cell of the first operand and to the cell of the condition. -/
theorem size_grown_of_untaken (hi : m.instruction? = some (.jump test condition target))
    (ht : test.holds (m.value 1 condition) = false) :
    m.grown.size =
      max (max m.memory.size (m.pc + 2)) ((m.sourceCell? 1 condition).elim 0 (· + 1)) := by
  obtain ⟨-, hd⟩ := instruction?_eq_some_iff.1 hi
  rw [grown, checks_of_untaken hd ht, flatMap_cells_source]
  cases m.sourceCell? 1 condition <;>
    simp only [Option.toList, Option.elim, Memory.cover_cons, Memory.cover_nil,
      Memory.size_extend] <;>
    omega

/-! ### The cell of the target -/

/-- **The step does not touch the cell of the target**, unless the condition is read from there. -/
theorem target_notMem_touched (hi : m.instruction? = some (.jump test condition target))
    (ht : test.holds (m.value 1 condition) = false)
    (hcell : m.sourceCell? 1 condition ≠ some (m.pc + 2)) : m.pc + 2 ∉ m.touched := by
  obtain ⟨-, hd⟩ := instruction?_eq_some_iff.1 hi
  intro hmem
  obtain ⟨c, hc, ha⟩ := List.mem_flatMap.1 hmem
  have hall : m.pc + 2 ∈ m.checks.flatMap Check.cells :=
    List.mem_flatMap.2 ⟨c, mem_of_mem_tried hc, ha⟩
  rw [checks_of_untaken hd ht, flatMap_cells_source] at hall
  rcases List.mem_cons.1 hall with h | h
  · omega
  · rcases List.mem_cons.1 h with h | h
    · omega
    · exact hcell (Option.mem_toList.1 h)

/-- **What is said about a jump from `m` that is not taken.** -/
structure PassesOver (m : Machine) (condition : Mode) : Prop where
  /-- The program goes on behind the target.  Memory shows the same values, and is just long enough
  for the operand of the condition and for the cell, if there is one, from which it is read. -/
  step : ∃ memory, Machine.step m = .ok .running { m with memory, pc := m.pc + 3 } ∧
    m.memory.GrowsTo memory ∧
    memory.size = max (max m.memory.size (m.pc + 2)) ((m.sourceCell? 1 condition).elim 0 (· + 1))
  /-- From a state that is the same but for the cell of the target, and unless the condition is read
  from there, the step has the same answer, and each of the two states keeps its target. -/
  ignores : ∀ n, SameBut (m.pc + 2) m n → m.sourceCell? 1 condition ≠ some (m.pc + 2) →
    ∃ m' n', Machine.step m = .ok .running m' ∧ Machine.step n = .ok .running n' ∧
      SameBut (m.pc + 2) m' n' ∧ m'.memory.get (m.pc + 2) = m.memory.get (m.pc + 2) ∧
      n'.memory.get (m.pc + 2) = n.memory.get (m.pc + 2)

/-- **A jump that is not taken never looks at its target**, as long as its condition can be read. -/
theorem untaken_jump_passes_over (hi : m.instruction? = some (.jump test condition target))
    (hv : source m.pc condition m.advance = .ok v n) (ht : test.holds v = false) :
    PassesOver m condition := by
  obtain ⟨ht, hstep⟩ := step_untaken hi hv ht
  refine ⟨⟨m.grown, hstep, Memory.growsTo_cover _ _, size_grown_of_untaken hi ht⟩, ?_⟩
  intro n hn hcell
  have hfree := target_notMem_touched hi ht hcell
  have hfree' : m.pc + 2 ∉ n.touched := by rwa [(hn.agrees hfree).touched]
  obtain ⟨hreply, hsame⟩ := hn.step hfree
  have hrunning : (m.perform .step).1 = .status .running := by rw [perform_of_ok hstep]
  exact ⟨_, _, step_of_perform hrunning, step_of_perform (hreply.symm.trans hrunning), hsame,
    get_step_of_untouched hfree, get_step_of_untouched hfree'⟩

/-- A jump in the last cell but one that memory can have: the target would lie past the last. -/
theorem untaken_jump_passes_over_last_cell :
    ∃ m : Machine, m.memory = ⟨(Array.replicate 134217726 0).push 1105⟩ ∧ m.pc = 134217726 ∧
      m.instruction? = some (.jump .nonzero .immediate .immediate) ∧
      (∃ n, source m.pc .immediate m.advance = .ok 0 n) ∧ ¬m.memory.InRange (m.pc + 2) ∧
      PassesOver m .immediate := by
  obtain ⟨m, hmemory, hpc, hrunning⟩ : ∃ m : Machine,
      m.memory = ⟨(Array.replicate 134217726 0).push 1105⟩ ∧ m.pc = 134217726 ∧
        m.halted = false :=
    ⟨{ memory := _, pc := _, input := .queue [] }, rfl, rfl, rfl⟩
  have hsize : m.memory.size = 134217727 := by simp [hmemory, Memory.size]
  have hget : m.memory.get m.pc = 1105 := by
    rw [hmemory, hpc, Memory.get_eq_getElem (by simp)]
    simp [Array.getElem_push]
  have hi : m.instruction? = some (.jump .nonzero .immediate .immediate) := by
    refine instruction?_eq_some_iff.2 ⟨⟨hrunning, ?_⟩, ?_⟩
    · simp [Memory.InRange, hsize, hpc, Memory.maxCells]
    · rw [hget]
      rfl
  have hv : source m.pc .immediate m.advance = .ok 0 m.advance.advance := by
    have hrange : m.advance.memory.InRange m.advance.pc := by
      simp [Memory.InRange, hsize, hpc, Memory.maxCells]
    have hzero : m.advance.memory.get m.advance.pc = 0 := by
      rw [advance_memory, Memory.get_extend, advance_pc]
      exact Memory.get_of_size_le (by omega)
    rw [source_immediate, fetch_of_inRange hrange, hzero]
  have hend : ¬m.memory.InRange (m.pc + 2) := by
    simp [Memory.InRange, hsize, hpc, Memory.maxCells]
  exact ⟨m, hmemory, hpc, hi, ⟨_, hv⟩, hend, untaken_jump_passes_over hi hv rfl⟩

end Machine

end IntcodeMachine

/-
**Steps that fail.**

A step that fails reports the first of its checks that does not hold, and what it reports is true of
the state in which it began.  It has not carried out any part of its instruction: the output, the
relative base and the mark of halting are as before, memory may have grown but shows the same
values, and the program counter stands after the cells that were fetched.  Only a value of the input
can be lost, by an input instruction whose destination turns out to be no cell.

Main definitions:

* `Machine.fetched` — the number of operands that a step fetches before it ends;
* `Machine.FailsCleanly` — **what a failed step leaves as it was**;
* `Machine.Truthful` — what each fault says about the state.

Main results:

* `Machine.step_error_cases` — the four ways in which a step fails;
* `Machine.failsCleanly_of_step` — **a failed step has not executed in part**;
* `Machine.step_reports_first_fault` — **a step fails with the first fault of its checks**, and that
  fault is true.
-/

import IntcodeMachine.Proofs.Instruction.Decoding
import IntcodeMachine.Proofs.Step.Execution

set_option relaxedAutoImplicit false
set_option autoImplicit false

namespace IntcodeMachine

/-- Whether a fault is one of an instruction word. -/
def Fault.isOfWord : Fault → Bool
  | unknownOpcode _ _ => true
  | invalidMode _ _ => true
  | immediateDestination _ => true
  | _ => false

theorem Fault.OfWord.isOfWord {pc : Nat} {word : Cell} {e : Fault} (h : e.OfWord pc word) :
    e.isOfWord = true := by
  cases e with
  | unknownOpcode p w => rfl
  | invalidMode p d => rfl
  | immediateDestination p => rfl
  | _ => exact h.elim

namespace Machine

/-! ### The four ways to fail -/

/-- **A step fails** because the program has halted, because its word cannot be read, because the
word is refused, or because of an operand or a result. -/
theorem step_error_cases {m m' : Machine} {e : Fault} (h : step m = .error e m') :
    (m.halted = true ∧ e = .alreadyHalted ∧ m.passing m.checks = []) ∨
    (¬m.memory.InRange m.pc ∧ e = .addressOutOfRange m.pc ∧ m.passing m.checks = [.running]) ∨
    (m.memory.InRange m.pc ∧ Instruction.decode m.pc (m.memory.get m.pc) = .error e ∧
      m.passing m.checks = [.running, .word m.pc]) ∨
    ∃ i, m.memory.InRange m.pc ∧ Instruction.decode m.pc (m.memory.get m.pc) = .ok i ∧
      m.firstFault (m.instructionChecks i) = some e ∧
      m.passing m.checks = m.wordChecks ++ m.passing (m.instructionChecks i) := by
  have hfault := (step_error_iff.1 h).1
  cases hh : m.halted with
  | true =>
      left
      rw [step_of_halted hh] at h
      cases h
      exact ⟨rfl, rfl, by simp [checks, wordChecks, passing, Check.Holds, hh]⟩
  | false =>
      right
      by_cases hr : m.memory.InRange m.pc
      · right
        cases hd : Instruction.decode m.pc (m.memory.get m.pc) with
        | error f =>
            left
            rw [step_of_undecodable hh hr hd] at h
            cases h
            exact ⟨hr, rfl, by simp [checks, wordChecks, passing, Check.Holds, hh, hr, hd]⟩
        | ok i =>
            right
            have hword := holds_of_mem_wordChecks hh hr hd
            rw [checks_of_decode hd, firstFault_append, firstFault_eq_none_iff.2 hword,
              Option.none_or] at hfault
            refine ⟨i, hr, rfl, hfault, ?_⟩
            rw [checks_of_decode hd, passing_append_of_holds hword]
      · left
        rw [step_of_not_inRange hh hr] at h
        cases h
        exact ⟨hr, rfl, by simp [checks, wordChecks, passing, Check.Holds, hh, hr]⟩

/-! ### Checks of operands and results -/

variable {m : Machine}

/-- Whether a check comes after the instruction word has been decoded. -/
def Check.afterWord : Check → Bool
  | running => false
  | word _ => false
  | decodable _ => false
  | _ => true

theorem afterWord_of_mem_designateChecks {k : Nat} {p : Place} :
    ∀ c ∈ m.designateChecks k p, c.afterWord = true := by
  simp [designateChecks, Check.afterWord]

theorem afterWord_of_mem_sourceChecks {k : Nat} {mode : Mode} :
    ∀ c ∈ m.sourceChecks k mode, c.afterWord = true := by
  cases mode <;> simp [sourceChecks, designateChecks, Check.afterWord]

theorem afterWord_of_mem_resultChecks {op : BinaryOp} {a b : Cell} :
    ∀ c ∈ resultChecks op a b, c.afterWord = true := by
  cases op <;> simp [resultChecks, Check.afterWord]

theorem afterWord_of_mem_instructionChecks (i : Instruction) :
    ∀ c ∈ m.instructionChecks i, c.afterWord = true := by
  have hdesignate := @afterWord_of_mem_designateChecks m
  have hsource := @afterWord_of_mem_sourceChecks m
  have hresult := @afterWord_of_mem_resultChecks
  cases i with
  | jump test condition target =>
      simp only [instructionChecks]
      split <;> simp only [List.forall_mem_append, List.forall_mem_singleton, List.append_nil]
      · exact ⟨hsource, hsource, rfl⟩
      · exact hsource
  | binary op left right destination =>
      simp only [instructionChecks, List.forall_mem_append, List.forall_mem_singleton]
      exact ⟨⟨⟨⟨hsource, hsource⟩, hdesignate⟩, hresult⟩, rfl⟩
  | input destination =>
      simp only [instructionChecks, List.forall_mem_append, List.forall_mem_singleton]
      exact ⟨⟨hdesignate, rfl⟩, rfl⟩
  | output operand => exact hsource
  | adjustBase operand =>
      simp only [instructionChecks, List.forall_mem_append, List.forall_mem_singleton]
      exact ⟨hsource, rfl⟩
  | halt => exact fun c hc => (List.not_mem_nil hc).elim

/-- A check after the word moves the program counter exactly when it fetches an operand. -/
theorem countP_moves_eq {cs : List Check} (h : ∀ c ∈ cs, c.afterWord = true) :
    cs.countP Check.moves = cs.countP Check.isOperand := by
  refine List.countP_congr fun c hc => ?_
  have hw := h c hc
  cases c with
  | running => cases hw
  | word a => cases hw
  | decodable w => cases hw
  | _ => exact Iff.rfl

/-- An instruction fetches no more operands than it has. -/
theorem countP_instructionChecks_le (i : Instruction) :
    (m.instructionChecks i).countP Check.moves ≤ i.opcode.arity := by
  cases i with
  | jump test condition target =>
      simp only [instructionChecks]
      split <;> simp [List.countP_append, Check.moves, Instruction.opcode, Opcode.arity]
  | _ => simp [instructionChecks, List.countP_append, Check.moves, Instruction.opcode, Opcode.arity]

theorem input_mem_instructionChecks {i : Instruction} (h : Check.input ∈ m.instructionChecks i) :
    ∃ destination, i = .input destination := by
  cases i with
  | input destination => exact ⟨destination, rfl⟩
  | jump test condition target =>
      simp only [instructionChecks] at h
      split at h <;> simp [input_notMem_sourceChecks] at h
  | _ =>
      simp [instructionChecks, input_notMem_sourceChecks, input_notMem_designateChecks,
        input_notMem_resultChecks] at h

/-- A check that is passed, and stands only after others, has these passed before it. -/
theorem holds_of_mem_passing_append {cs ds : List Check} {c : Check}
    (h : c ∈ m.passing (cs ++ ds)) (hc : c ∉ cs) : ∀ b ∈ cs, b.Holds m := by
  cases hfault : m.firstFault cs with
  | none => exact firstFault_eq_none_iff.1 hfault
  | some e =>
      rw [passing_append_of_fault hfault] at h
      exact absurd (List.takeWhile_subset _ h) hc

/-- An input instruction that fails after it has obtained a value fails at its store. -/
theorem fault_of_input_obtained {destination : Place} {e : Fault}
    (hfault : m.firstFault (m.instructionChecks (.input destination)) = some e)
    (hinput : Check.input ∈ m.passing (m.instructionChecks (.input destination))) :
    ¬m.memory.InRange (m.address 1 destination) ∧
      e = .addressOutOfRange (m.address 1 destination) ∧
      m.passing (m.instructionChecks (.input destination)) =
        m.designateChecks 1 destination ++ [.input] := by
  have hobtained := holds_of_mem_passing hinput
  rw [instructionChecks, List.append_assoc] at hinput
  have hdesignate := holds_of_mem_passing_append hinput (input_notMem_designateChecks 1 destination)
  have hpre : ∀ c ∈ m.designateChecks 1 destination ++ [.input], c.Holds m := by
    rw [List.forall_mem_append, List.forall_mem_singleton]
    exact ⟨hdesignate, hobtained⟩
  rw [instructionChecks] at hfault ⊢
  rw [firstFault_append, firstFault_eq_none_iff.2 hpre, Option.none_or] at hfault
  -- what is left is the check of the store
  obtain ⟨hr, rfl⟩ := Check.fault?_of_mem_cells (c := .cell _)
    List.mem_cons_self (by simpa [firstFault] using hfault)
  refine ⟨hr, rfl, ?_⟩
  rw [passing_append_of_holds hpre]
  simp [passing, Check.Holds, hr]

/-- A check after the word has no fault of the word, and none of halting. -/
theorem fault_of_afterWord {i : Instruction} {e : Fault}
    (h : m.firstFault (m.instructionChecks i) = some e) :
    e.isOfWord = false ∧ e ≠ .alreadyHalted := by
  obtain ⟨before, c, after, hcs, hc, -⟩ := firstFault_eq_some_iff.1 h
  have hafter := afterWord_of_mem_instructionChecks i c (by rw [hcs]; simp)
  cases c with
  | running => cases hafter
  | word a => cases hafter
  | decodable w => cases hafter
  | operand a =>
      obtain ⟨-, rfl⟩ := Check.fault?_of_mem_cells List.mem_cons_self hc
      exact ⟨rfl, nofun⟩
  | cell a =>
      obtain ⟨-, rfl⟩ := Check.fault?_of_mem_cells List.mem_cons_self hc
      exact ⟨rfl, nofun⟩
  | address n =>
      rcases Check.fault?_address hc with ⟨-, rfl⟩ | ⟨-, -, rfl⟩
      · exact ⟨rfl, nofun⟩
      · exact ⟨rfl, nofun⟩
  | fits n =>
      obtain ⟨-, rfl⟩ := Check.fault?_fits hc
      exact ⟨rfl, nofun⟩
  | input =>
      obtain ⟨-, rfl⟩ := Check.fault?_input hc
      exact ⟨rfl, nofun⟩

/-! ### What a failed step leaves -/

/-- The number of operands that a step fetches before it ends. -/
def fetched (m : Machine) : Nat := (m.passing m.checks).countP Check.isOperand

variable {m' : Machine} {e : Fault}

theorem eq_of_alreadyHalted (h : step m = .error .alreadyHalted m') : m' = m := by
  rw [(step_error_iff.1 h).2]
  rcases step_error_cases h with ⟨-, -, hp⟩ | ⟨-, he, -⟩ | ⟨-, hd, -⟩ | ⟨i, -, -, hf, -⟩
  · rw [hp, reached_nil]
  · cases he
  · exact (Instruction.ofWord_of_decode hd).elim
  · exact absurd rfl (fault_of_afterWord hf).2

/-- The program counter stays on a word that cannot be read or is refused. -/
theorem pc_of_refused (h : step m = .error e m')
    (he : e.isOfWord = true ∨ ¬m.memory.InRange m.pc) : m'.pc = m.pc := by
  rw [(step_error_iff.1 h).2]
  rcases step_error_cases h with ⟨-, -, hp⟩ | ⟨-, -, hp⟩ | ⟨-, -, hp⟩ | ⟨i, hr, -, hf, -⟩
  · rw [hp, reached_nil]
  · rw [hp, reached_pc]
    rfl
  · rw [hp, reached_pc]
    rfl
  · rcases he with he | hn
    · rw [(fault_of_afterWord hf).1] at he
      cases he
    · exact absurd hr hn

/-- Otherwise the program counter stands after the word and the operands fetched. -/
theorem pc_of_operands (h : step m = .error e m') (hhalted : e ≠ .alreadyHalted)
    (hword : e.isOfWord = false) (hr : m.memory.InRange m.pc) :
    ∃ i, Instruction.decode m.pc (m.memory.get m.pc) = .ok i ∧
      m'.pc = m.pc + 1 + m.fetched ∧ m.fetched ≤ i.opcode.arity := by
  rw [(step_error_iff.1 h).2]
  rcases step_error_cases h with ⟨-, he, -⟩ | ⟨hn, -, -⟩ | ⟨-, hd, -⟩ | ⟨i, -, hd, -, hp⟩
  · exact absurd he hhalted
  · exact absurd hr hn
  · rw [(Instruction.ofWord_of_decode hd).isOfWord] at hword
    cases hword
  · -- what was fetched is part of what the whole instruction fetches
    have hsub : List.Sublist (m.passing (m.instructionChecks i)) (m.instructionChecks i) :=
      List.takeWhile_sublist _
    have hmoves := countP_moves_eq fun c hc =>
      afterWord_of_mem_instructionChecks i c (hsub.subset hc)
    have hfetched : m.fetched = (m.passing (m.instructionChecks i)).countP Check.moves := by
      rw [fetched, hp, List.countP_append, hmoves]
      exact Nat.zero_add _
    refine ⟨i, hd, ?_, ?_⟩
    · rw [reached_pc, hp, List.countP_append, countP_wordChecks, hfetched, Nat.add_assoc]
    · rw [hfetched]
      exact (hsub.countP_le).trans (countP_instructionChecks_le i)

/-- A step that has obtained a value and fails has lost this one value, at its store. -/
theorem input_of_obtained (h : step m = .error e m') (hinput : Check.input ∈ m.passing m.checks) :
    ∃ destination v, Instruction.decode m.pc (m.memory.get m.pc) = .ok (.input destination) ∧
      ¬m.memory.InRange (m.address 1 destination) ∧
      e = .addressOutOfRange (m.address 1 destination) ∧ m.input.next = some (v, m'.input) := by
  obtain ⟨v, rest, hnext⟩ := holds_of_mem_passing hinput
  rw [(step_error_iff.1 h).2]
  rcases step_error_cases h with ⟨-, -, hp⟩ | ⟨-, -, hp⟩ | ⟨-, -, hp⟩ | ⟨i, -, hd, hf, hp⟩
  · rw [hp] at hinput
    cases hinput
  · simp [hp] at hinput
  · simp [hp] at hinput
  · rw [hp, List.mem_append] at hinput
    have hinput := hinput.resolve_left input_notMem_wordChecks
    obtain ⟨destination, rfl⟩ := input_mem_instructionChecks (List.takeWhile_subset _ hinput)
    obtain ⟨hr, he, hpass⟩ := fault_of_input_obtained hf hinput
    refine ⟨destination, v, hd, hr, he, ?_⟩
    rw [hp, hpass, ← List.append_assoc, reached_input_append, hnext, Input.rest_of_next hnext]
    simp [input_notMem_wordChecks, input_notMem_designateChecks]

/-- **What a step from `m` that fails with `e` in the state `m'` leaves as it was.** -/
structure FailsCleanly (m : Machine) (e : Fault) (m' : Machine) : Prop where
  halted : m'.halted = m.halted
  relativeBase : m'.relativeBase = m.relativeBase
  output : m'.output = m.output
  /-- No cell changes; memory may have become longer by zeros. -/
  memory : m.memory.GrowsTo m'.memory
  /-- A program that has halted stays exactly as it is. -/
  unchanged : e = .alreadyHalted → m' = m
  /-- The program counter stays on a word that cannot be read or is refused. -/
  pc_word : e.isOfWord = true ∨ ¬m.memory.InRange m.pc → m'.pc = m.pc
  /-- Otherwise it stands after the word and the operands fetched. -/
  pc_operands : e ≠ .alreadyHalted → e.isOfWord = false → m.memory.InRange m.pc →
    ∃ i, Instruction.decode m.pc (m.memory.get m.pc) = .ok i ∧
      m'.pc = m.pc + 1 + m.fetched ∧ m.fetched ≤ i.opcode.arity
  /-- A step that has not obtained a value of the input leaves the input alone. -/
  input_kept : Check.input ∉ m.passing m.checks → m'.input = m.input
  /-- A step that has obtained a value and fails has lost this one value, at its store. -/
  input_lost : Check.input ∈ m.passing m.checks →
    ∃ destination v, Instruction.decode m.pc (m.memory.get m.pc) = .ok (.input destination) ∧
      ¬m.memory.InRange (m.address 1 destination) ∧
      e = .addressOutOfRange (m.address 1 destination) ∧ m.input.next = some (v, m'.input)

/-- **A failed step has not executed in part.** -/
theorem failsCleanly_of_step (h : step m = .error e m') : FailsCleanly m e m' := by
  have hstate := (step_error_iff.1 h).2
  exact {
    halted := by rw [hstate, reached_halted]
    relativeBase := by rw [hstate, reached_relativeBase]
    output := by rw [hstate, reached_output]
    memory := by
      rw [hstate, reached_memory]
      exact Memory.growsTo_cover _ _
    unchanged := by
      rintro rfl
      exact eq_of_alreadyHalted h
    pc_word := pc_of_refused h
    pc_operands := pc_of_operands h
    input_kept := fun hinput => by rw [hstate, reached_input hinput]
    input_lost := input_of_obtained h }

/-- An input instruction that sends its value out of range has moved past its operand and lost the
value. -/
theorem failsCleanly_lost_value :
    step { memory := ⟨#[3, 134217728]⟩, input := .queue [7, 8] } =
        .error (.addressOutOfRange 134217728)
          { memory := ⟨#[3, 134217728]⟩, pc := 2, input := .queue [8] } ∧
      FailsCleanly { memory := ⟨#[3, 134217728]⟩, input := .queue [7, 8] }
        (.addressOutOfRange 134217728)
        { memory := ⟨#[3, 134217728]⟩, pc := 2, input := .queue [8] } :=
  ⟨rfl, failsCleanly_of_step rfl⟩

/-! ### What a failed step reports -/

/-- **What each fault of a step from `m` says about `m`.**  A fault that carries an address of an
instruction carries that of the word at the program counter, and no step speaks of characters. -/
def Truthful (m : Machine) : Fault → Prop
  | .unknownOpcode pc word => (Fault.unknownOpcode pc word).OfWord m.pc (m.memory.get m.pc)
  | .invalidMode pc digit => (Fault.invalidMode pc digit).OfWord m.pc (m.memory.get m.pc)
  | .immediateDestination pc =>
      (Fault.immediateDestination pc).OfWord m.pc (m.memory.get m.pc) ∧
        Instruction.decode m.pc (m.memory.get m.pc) = .error (.immediateDestination m.pc)
  | .negativeAddress v => v.toInt < 0 ∧ Check.address v.toInt ∈ m.checks
  | .addressOutOfRange a => max m.memory.size Memory.maxCells ≤ a
  | .inputExhausted pc => pc = m.pc ∧ m.input.next = none
  | .notACharacter _ => False
  | .overflow pc =>
      pc = m.pc ∧ ∃ n, ¬Cell.Fits n ∧ (Check.fits n ∈ m.checks ∨ Check.address n ∈ m.checks)
  | .alreadyHalted => m.halted = true

theorem truthful_of_decode (h : Instruction.decode m.pc (m.memory.get m.pc) = .error e) :
    m.Truthful e := by
  have hword := Instruction.ofWord_of_decode h
  cases e with
  | unknownOpcode pc word => exact hword
  | invalidMode pc digit => exact hword
  | immediateDestination pc =>
      obtain ⟨rfl, -⟩ := id hword
      exact ⟨hword, h⟩
  | _ => exact hword.elim

/-- Before the operands there are only the checks of the word at the program counter. -/
theorem mem_checks {c : Check} (h : c ∈ m.checks) :
    c = .running ∨ c = .word m.pc ∨ c = .decodable (m.memory.get m.pc) ∨ c.afterWord = true := by
  rcases List.mem_append.1 h with h | h
  · have hword : c = .running ∨ c = .word m.pc ∨ c = .decodable (m.memory.get m.pc) := by
      simpa [wordChecks] using h
    rcases hword with rfl | rfl | rfl <;> simp
  · right; right; right
    split at h
    · exact afterWord_of_mem_instructionChecks _ c h
    · cases h

/-- The fault of a check of the step is true. -/
theorem truthful_of_fault {c : Check} (hc : c ∈ m.checks) (h : c.fault? m = some e) :
    m.Truthful e := by
  cases c with
  | running =>
      obtain ⟨hh, rfl⟩ : m.halted = true ∧ .alreadyHalted = e := by simpa [Check.fault?] using h
      exact hh
  | decodable w =>
      obtain rfl : w = m.memory.get m.pc := by simpa [Check.afterWord] using mem_checks hc
      refine truthful_of_decode ?_
      simp only [Check.fault?] at h
      split at h
      · cases h
      · next hd =>
          cases h
          exact hd
  | word a =>
      obtain ⟨hr, rfl⟩ := Check.fault?_of_mem_cells List.mem_cons_self h
      exact Nat.le_of_not_lt hr
  | operand a =>
      obtain ⟨hr, rfl⟩ := Check.fault?_of_mem_cells List.mem_cons_self h
      exact Nat.le_of_not_lt hr
  | cell a =>
      obtain ⟨hr, rfl⟩ := Check.fault?_of_mem_cells List.mem_cons_self h
      exact Nat.le_of_not_lt hr
  | address n =>
      rcases Check.fault?_address h with ⟨hfits, rfl⟩ | ⟨hfits, hneg, rfl⟩
      · exact ⟨rfl, n, hfits, .inr hc⟩
      · rw [← Cell.toInt_ofInt_of_fits hfits] at hneg hc
        exact ⟨hneg, hc⟩
  | fits n =>
      obtain ⟨hfits, rfl⟩ := Check.fault?_fits h
      exact ⟨rfl, n, hfits, .inl hc⟩
  | input =>
      obtain ⟨hnext, rfl⟩ := Check.fault?_input h
      exact ⟨rfl, hnext⟩

/-- The fault of a step is true. -/
theorem truthful_of_step (h : step m = .error e m') : m.Truthful e := by
  obtain ⟨before, c, after, hcs, hc, -⟩ := firstFault_eq_some_iff.1 (step_error_iff.1 h).1
  exact truthful_of_fault (hcs ▸ List.mem_append_right before List.mem_cons_self) hc

/-- **A step reports the first of its checks that fails**, and what it reports is true. -/
theorem step_reports_first_fault (m : Machine) (e : Fault) :
    ((∃ m', step m = .error e m') ↔
      ∃ before c after, m.checks = before ++ c :: after ∧ c.fault? m = some e ∧
        ∀ b ∈ before, b.Holds m) ∧
      ∀ m', step m = .error e m' → m.Truthful e := by
  refine ⟨?_, fun m' h => ?_⟩
  · rw [← firstFault_eq_some_iff]
    constructor
    · rintro ⟨m', h⟩
      exact (step_error_iff.1 h).1
    · intro h
      exact ⟨_, step_error_iff.2 ⟨h, rfl⟩⟩
  · obtain ⟨before, c, after, hcs, hc, -⟩ := firstFault_eq_some_iff.1 (step_error_iff.1 h).1
    refine truthful_of_fault (c := c) ?_ hc
    rw [hcs]
    simp

/-- The product does not fit and its destination is out of range: the product is reported. -/
theorem step_reports_first_fault_overflow :
    Check.fault? { memory := ⟨#[1102, 4294967296, 4294967296, 134217728]⟩, input := .queue [] }
        (.cell 134217728) = some (.addressOutOfRange 134217728) ∧
      (∃ m', step { memory := ⟨#[1102, 4294967296, 4294967296, 134217728]⟩, input := .queue [] } =
        .error (.overflow 0) m') ∧
      Truthful { memory := ⟨#[1102, 4294967296, 4294967296, 134217728]⟩, input := .queue [] }
        (.overflow 0) :=
  ⟨rfl, ⟨_, rfl⟩, (step_reports_first_fault _ _).2 _ rfl⟩

end Machine

end IntcodeMachine

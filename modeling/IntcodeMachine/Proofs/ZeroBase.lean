/-
**Position and relative places under the base zero.**

Under the relative base zero a literal designates the same address by itself and as an offset, so
that it does not matter which of the two an operand is.  Two words that differ only there make the
same step.  There is one reservation: the words themselves stand in memory, where the program can
read them, and a step that reads its own word as an operand sees the difference.  It may well store
into that cell.

The argument has two halves.  In one state, an instruction makes the same checks and has the same
effect as its `Instruction.absolute`, which has lost the difference.  In two states that are the
same but for the cell of the word, one instruction makes the same checks as long as none of the
operands is read from that cell (`Machine.SameBut.follows_readChecks`).  The destination is not
read; its checks come after those of the operands, and are the same once these have been passed.

Main definitions:

* `Machine.readChecks`, `Machine.restChecks` — the checks of the operands that are read, and those
  after them;
* `Machine.ReadsOperandAt` — the next step reads an operand from a cell.

Main results:

* `Machine.instructionChecks_absolute`, `Machine.complete_absolute` — under the base zero the places
  make no difference;
* `Machine.SameBut.tried_instructionChecks` — two states make the same checks;
* `Machine.places_interchangeable` — **under the base zero, position and relative places are
  interchangeable**.
-/

import IntcodeMachine.Machine.Trace
import IntcodeMachine.Proofs.Footprint
import IntcodeMachine.Proofs.Instruction.Recoding

set_option relaxedAutoImplicit false
set_option autoImplicit false

namespace IntcodeMachine

namespace Machine

open Instruction

variable {m n : Machine} {i j : Instruction} {k : Nat}

/-! ### Operands that are read -/

/-- The checks of the operands that an instruction reads, in order.  The target of a jump is read
only if the jump is taken. -/
def readChecks (m : Machine) : Instruction → List Check
  | .binary _ left right _ => m.sourceChecks 1 left ++ m.sourceChecks 2 right
  | .input _ => []
  | .output operand => m.sourceChecks 1 operand
  | .jump test condition target =>
      m.sourceChecks 1 condition ++
        if test.holds (m.value 1 condition) then m.sourceChecks 2 target else []
  | .adjustBase operand => m.sourceChecks 1 operand
  | .halt => []

/-- The checks that come after the operands that are read: those of the destination, of the result
and of the input. -/
def restChecks (m : Machine) : Instruction → List Check
  | .binary op left right destination =>
      m.designateChecks 3 destination ++ resultChecks op (m.value 1 left) (m.value 2 right) ++
        [.cell (m.address 3 destination)]
  | .input destination => m.instructionChecks (.input destination)
  | .output _ => []
  | .jump test condition target =>
      if test.holds (m.value 1 condition) then [.address (m.value 2 target).toInt] else []
  | .adjustBase operand => [.fits (m.relativeBase.toInt + (m.value 1 operand).toInt)]
  | .halt => []

/-- The operands are read first. -/
theorem instructionChecks_eq_append (m : Machine) (i : Instruction) :
    m.instructionChecks i = m.readChecks i ++ m.restChecks i := by
  cases i with
  | jump test condition target =>
      simp only [instructionChecks, readChecks, restChecks]
      split <;> simp
  | _ => simp [instructionChecks, readChecks, restChecks]

/-- The next step **reads an operand at** the address `a`: the check of that cell is one of those
that it makes for the operands that it reads. -/
def ReadsOperandAt (m : Machine) (a : Nat) : Prop :=
  ∃ i, m.instruction? = some i ∧ Check.cell a ∈ m.tried (m.readChecks i)

/-! ### The base zero -/

section ZeroBase

variable (hbase : m.relativeBase = 0)
include hbase

/-- **Under the base zero** a literal gives the same address in every place. -/
theorem exactAddress_position (k : Nat) (p : Place) :
    m.exactAddress k .position = m.exactAddress k p := by
  cases p with
  | position => rfl
  | relative =>
      simp only [exactAddress, Place.exact, hbase]
      exact (Int.zero_add _).symm

theorem address_position (k : Nat) (p : Place) : m.address k .position = m.address k p := by
  rw [address, address, exactAddress_position hbase k p]

theorem value_absolute (k : Nat) (mode : Mode) : m.value k mode.absolute = m.value k mode := by
  cases mode with
  | immediate => rfl
  | stored p => simp only [Mode.absolute, value, address_position hbase k p]

theorem sourceChecks_absolute (k : Nat) (mode : Mode) :
    m.sourceChecks k mode.absolute = m.sourceChecks k mode := by
  cases mode with
  | immediate => rfl
  | stored p =>
      simp only [Mode.absolute, sourceChecks, designateChecks, address_position hbase k p,
        exactAddress_position hbase k p]

theorem designateChecks_position (k : Nat) (p : Place) :
    m.designateChecks k .position = m.designateChecks k p := by
  rw [designateChecks, designateChecks, exactAddress_position hbase k p]

theorem readChecks_absolute (i : Instruction) : m.readChecks i.absolute = m.readChecks i := by
  cases i <;>
    simp only [absolute, readChecks, sourceChecks_absolute hbase, value_absolute hbase]

/-- The places make no difference to the checks. -/
theorem instructionChecks_absolute (i : Instruction) :
    m.instructionChecks i.absolute = m.instructionChecks i := by
  cases i with
  | binary op left right p =>
      simp only [absolute, instructionChecks, sourceChecks_absolute hbase, value_absolute hbase,
        designateChecks_position hbase 3 p, address_position hbase 3 p]
  | input p =>
      simp only [absolute, instructionChecks, designateChecks_position hbase 1 p,
        address_position hbase 1 p]
  | _ =>
      simp only [absolute, instructionChecks, sourceChecks_absolute hbase, value_absolute hbase]

/-- The places make no difference to the effect. -/
theorem complete_absolute (e : Effect) (i : Instruction) :
    m.complete e i.absolute = m.complete e i := by
  cases i with
  | binary op left right p =>
      simp only [absolute, complete, value_absolute hbase, address_position hbase 3 p]
  | input p => simp only [absolute, complete, address_position hbase 1 p]
  | _ => simp only [absolute, complete, value_absolute hbase, past, opcode]

end ZeroBase

/-! ### Two states that are the same but for the word -/

theorem SameBut.literal (h : SameBut m.pc m n) (hk : 0 < k) : n.literal k = m.literal k := by
  rw [Machine.literal, Machine.literal, h.pc]
  exact h.get _ (by omega)

theorem SameBut.exactAddress (h : SameBut m.pc m n) (hk : 0 < k) (p : Place) :
    n.exactAddress k p = m.exactAddress k p := by
  rw [Machine.exactAddress, Machine.exactAddress, h.relativeBase, h.literal hk]

theorem SameBut.address (h : SameBut m.pc m n) (hk : 0 < k) (p : Place) :
    n.address k p = m.address k p := by
  rw [Machine.address, Machine.address, h.exactAddress hk]

theorem SameBut.designateChecks (h : SameBut m.pc m n) (hk : 0 < k) (p : Place) :
    n.designateChecks k p = m.designateChecks k p := by
  rw [Machine.designateChecks, Machine.designateChecks, h.pc, h.exactAddress hk]

/-- **One instruction makes the same checks for the operands that it reads**; and if they can all be
read, the checks after them are the same, and so is the effect. -/
theorem SameBut.follows_readChecks (h : SameBut m.pc m n) (i : Instruction) :
    Follows m n (n.restChecks i = m.restChecks i ∧ SameChanges m n i) (m.readChecks i)
      (n.readChecks i) := by
  cases i with
  | binary op left right p =>
      refine follows_source h.pc h.relativeBase fun hleft => ?_
      refine follows_last_source h.pc h.relativeBase fun hright => ⟨?_, fun e => ?_⟩
      · simp only [restChecks, hleft, hright, h.designateChecks (Nat.succ_pos 2),
          h.address (Nat.succ_pos 2)]
      · simp only [complete, hleft, hright, h.address (Nat.succ_pos 2)]
  | input p =>
      refine follows_nil ⟨?_, fun e => ?_⟩
      · simp only [restChecks, instructionChecks, h.designateChecks (Nat.succ_pos 0),
          h.address (Nat.succ_pos 0)]
      · simp only [complete, h.input, h.address (Nat.succ_pos 0)]
  | output operand =>
      refine follows_last_source h.pc h.relativeBase fun hvalue => ⟨rfl, fun e => ?_⟩
      simp only [complete, hvalue]
  | jump test condition target =>
      simp only [readChecks]
      refine follows_source h.pc h.relativeBase fun hcondition => ?_
      rw [hcondition]
      split
      · next ht =>
          refine follows_last_source h.pc h.relativeBase fun htarget => ⟨?_, fun e => ?_⟩
          · simp only [restChecks, hcondition, htarget]
          · simp only [complete, hcondition, htarget, past, h.pc]
      · next ht =>
          refine follows_nil ⟨?_, fun e => ?_⟩
          · simp only [restChecks, hcondition, if_neg ht]
          · simp only [complete, hcondition, if_neg ht, past, h.pc]
  | adjustBase operand =>
      refine follows_last_source h.pc h.relativeBase fun hvalue => ⟨?_, fun e => ?_⟩
      · simp only [restChecks, hvalue, h.relativeBase]
      · simp only [complete, hvalue, h.relativeBase]
  | halt => exact follows_nil ⟨rfl, fun e => rfl⟩

/-- The cells for which the operands reach lie after the word, but for those that are read. -/
theorem lt_or_eq_cell_of_mem_sourceChecks {mode : Mode} {c : Check} (hk : 0 < k)
    (hc : c ∈ m.sourceChecks k mode) : ∀ a ∈ c.cells, m.pc < a ∨ c = .cell a := by
  intro a ha
  cases mode with
  | immediate =>
      obtain rfl := List.mem_singleton.1 hc
      obtain rfl := List.mem_singleton.1 ha
      left
      omega
  | stored p =>
      have hcases : c = .operand (m.pc + k) ∨ c = .address (m.exactAddress k p) ∨
          c = .cell (m.address k p) := by
        simpa [sourceChecks, Machine.designateChecks] using hc
      rcases hcases with rfl | rfl | rfl
      · obtain rfl := List.mem_singleton.1 ha
        left
        omega
      · cases ha
      · obtain rfl := List.mem_singleton.1 ha
        exact .inr rfl

theorem lt_or_eq_cell_of_mem_readChecks {c : Check} (hc : c ∈ m.readChecks i) :
    ∀ a ∈ c.cells, m.pc < a ∨ c = .cell a := by
  have hsource : ∀ k mode, 0 < k → c ∈ m.sourceChecks k mode →
      ∀ a ∈ c.cells, m.pc < a ∨ c = .cell a :=
    fun k mode hk => lt_or_eq_cell_of_mem_sourceChecks hk
  cases i with
  | binary op left right p =>
      rcases List.mem_append.1 hc with hc | hc
      · exact hsource 1 left Nat.one_pos hc
      · exact hsource 2 right Nat.two_pos hc
  | input p => cases hc
  | output operand => exact hsource 1 operand Nat.one_pos hc
  | jump test condition target =>
      rcases List.mem_append.1 hc with hc | hc
      · exact hsource 1 condition Nat.one_pos hc
      · split at hc
        · exact hsource 2 target Nat.two_pos hc
        · cases hc
  | adjustBase operand => exact hsource 1 operand Nat.one_pos hc
  | halt => cases hc

/-- If no operand is read from the cell of the word, the operands look alike. -/
theorem SameBut.shows (h : SameBut m.pc m n) (hread : Check.cell m.pc ∉ m.tried (m.readChecks i)) :
    ∀ c ∈ m.tried (m.readChecks i), Shows m n c := by
  intro c hc
  refine ⟨fun a ha => h.get a ?_, fun _ => by rw [h.input], h.fault? c⟩
  rcases lt_or_eq_cell_of_mem_readChecks (mem_of_mem_tried hc) a ha with hlt | rfl
  · omega
  · rintro rfl
    exact hread hc

/-- **Two states make the same checks** for one instruction, if no operand is read from the cell in
which they differ; and if these hold, the instruction has the same effect. -/
theorem SameBut.tried_instructionChecks (h : SameBut m.pc m n)
    (hread : Check.cell m.pc ∉ m.tried (m.readChecks i)) :
    n.tried (n.instructionChecks i) = m.tried (m.instructionChecks i) ∧
      (m.firstFault (m.instructionChecks i) = none → SameChanges m n i) := by
  obtain ⟨htried, hrest⟩ := h.follows_readChecks i (h.shows hread)
  have hfault' : n.firstFault (n.readChecks i) = m.firstFault (m.readChecks i) := by
    rw [← firstFault_tried, htried, firstFault_congr h.fault?, firstFault_tried]
  rw [instructionChecks_eq_append, instructionChecks_eq_append]
  cases hfault : m.firstFault (m.readChecks i) with
  | some e =>
      rw [hfault] at hfault'
      refine ⟨?_, fun hnone => ?_⟩
      · rw [tried_append_of_fault hfault', tried_append_of_fault hfault, htried]
      · rw [firstFault_append, hfault] at hnone
        cases hnone
  | none =>
      rw [hfault] at hfault'
      have hold := firstFault_eq_none_iff.1 hfault
      have hold' := firstFault_eq_none_iff.1 hfault'
      obtain ⟨hchecks, hchanges⟩ := hrest hold
      -- the operands have been passed, so that both lists are the same from there on
      rw [tried_of_holds hold, tried_of_holds hold'] at htried
      refine ⟨?_, fun _ => hchanges⟩
      rw [tried_append_of_holds hold', tried_append_of_holds hold, htried, hchecks,
        tried_congr h.fault?]

/-! ### Steps of two words -/

/-- The changes that come of the checks, once the word has been decoded. -/
theorem progress_of_instruction? (hi : m.instruction? = some i) :
    m.progress =
      { cells := m.pc :: (m.passing (m.instructionChecks i)).flatMap Check.cells
        pc := m.pc + (1 + (m.passing (m.instructionChecks i)).countP Check.moves)
        relativeBase := m.relativeBase
        asks := decide (Check.input ∈ m.tried (m.instructionChecks i)) } := by
  obtain ⟨⟨hrunning, hword⟩, hd⟩ := instruction?_eq_some_iff.1 hi
  have hold := holds_of_mem_wordChecks hrunning hword hd
  simp only [progress, asks, checks_of_decode hd, passing_append_of_holds hold,
    tried_append_of_holds hold, List.flatMap_append, List.countP_append, countP_wordChecks,
    List.mem_append, input_notMem_wordChecks, false_or]
  rfl

theorem firstFault_of_instruction? (hi : m.instruction? = some i) :
    m.firstFault m.checks = m.firstFault (m.instructionChecks i) := by
  obtain ⟨⟨hrunning, hword⟩, hd⟩ := instruction?_eq_some_iff.1 hi
  have hold := holds_of_mem_wordChecks hrunning hword hd
  rw [checks_of_decode hd, firstFault_append, firstFault_eq_none_iff.2 hold, Option.none_or]

/-- Two instructions that make the same checks and change the same make the same step, if the states
are the same but for a cell. -/
theorem SameBut.perform_step_of_tried {a : Nat} (h : SameBut a m n) (hi : m.instruction? = some i)
    (hj : n.instruction? = some j)
    (htried : n.tried (n.instructionChecks j) = m.tried (m.instructionChecks i))
    (hchanges : m.firstFault (m.instructionChecks i) = none →
      ∀ e, n.complete e j = m.complete e i) :
    n.perform .step = ((m.perform .step).1, m.effect.apply n) := by
  have hpassing : n.passing (n.instructionChecks j) = m.passing (m.instructionChecks i) := by
    rw [← passing_tried, htried, passing_congr h.fault?, passing_tried]
  refine perform_step_congr ?_ ?_ fun hnone => ?_
  · rw [firstFault_of_instruction? hi, firstFault_of_instruction? hj, ← firstFault_tried, htried,
      firstFault_congr h.fault?, firstFault_tried]
  · rw [progress_of_instruction? hi, progress_of_instruction? hj, hpassing, htried, h.pc,
      h.relativeBase]
  · rw [firstFault_of_instruction? hi] at hnone
    exact ⟨i, j, (instruction?_eq_some_iff.1 hi).2, (instruction?_eq_some_iff.1 hj).2,
      hchanges hnone⟩

/-- A word that stands for an instruction is in memory: the cells past the end hold zero. -/
theorem lt_size_of_instruction? (hi : m.instruction? = some i) : m.pc < m.memory.size := by
  obtain ⟨-, hd⟩ := instruction?_eq_some_iff.1 hi
  by_contra hsize
  rw [Memory.get_of_size_le (Nat.le_of_not_lt hsize)] at hd
  cases hd

/-- The same steps, told from the checks and the effect of what the two instructions have in
common. -/
theorem SameBut.perform_step_of_absolute (h : SameBut m.pc m n) (hbase : m.relativeBase = 0)
    (hi : m.instruction? = some i) (hj : n.instruction? = some j) (hij : j.absolute = i.absolute)
    (hread : ¬m.ReadsOperandAt m.pc) :
    n.perform .step = ((m.perform .step).1, m.effect.apply n) := by
  have hbase' : n.relativeBase = 0 := h.relativeBase.trans hbase
  have hchecks' : n.instructionChecks i.absolute = n.instructionChecks j := by
    rw [← hij, instructionChecks_absolute hbase']
  have hcomplete' : ∀ e, n.complete e i.absolute = n.complete e j := by
    intro e
    rw [← hij, complete_absolute hbase']
  have hread' : Check.cell m.pc ∉ m.tried (m.readChecks i.absolute) := by
    rw [readChecks_absolute hbase]
    exact fun hmem => hread ⟨i, hi, hmem⟩
  obtain ⟨htried, hchanges⟩ := h.tried_instructionChecks hread'
  rw [hchecks', instructionChecks_absolute hbase] at htried
  rw [instructionChecks_absolute hbase] at hchanges
  refine h.perform_step_of_tried hi hj htried fun hnone e => ?_
  rw [← hcomplete', ← complete_absolute hbase]
  exact hchanges hnone e

/-- **Under the base zero, position and relative places are interchangeable.**  In a word that
stands for an instruction, the digits of any operands that are 0 can be made 2.  The step then gives
the same answer, faults included, and leaves the same state but for the cell of the word, provided
that no operand is read from there. -/
theorem places_interchangeable {S : Finset Nat} (hi : m.instruction? = some i)
    (hbase : m.relativeBase = 0)
    (hS : ∀ k ∈ S, k < i.opcode.arity ∧ decimalDigit (m.memory.get m.pc) (k + 2) = 0)
    (hread : ¬m.ReadsOperandAt m.pc) :
    (∃ word, Recoded S (m.memory.get m.pc) word) ∧
      ∀ word, Recoded S (m.memory.get m.pc) word →
        (m.perform .step).1 = ((m.overwrite m.pc word).perform .step).1 ∧
          SameBut m.pc (m.perform .step).2 ((m.overwrite m.pc word).perform .step).2 := by
  obtain ⟨hrunning, hd⟩ := instruction?_eq_some_iff.1 hi
  have hzero : ∀ k ∈ S, decimalDigit (m.memory.get m.pc) (k + 2) = 0 := fun k hk => (hS k hk).2
  constructor
  · refine exists_recoded (names_of_decode hd).1 fun k hk => ⟨?_, hzero k hk⟩
    have harity := arity_le i.opcode
    have hlt := (hS k hk).1
    omega
  · intro word hword
    have h := sameBut_overwrite (lt_size_of_instruction? hi) word
    obtain ⟨j, hdj, hij⟩ := exists_decode_of_recoded hd hzero hword
    have hj : (m.overwrite m.pc word).instruction? = some j := by
      refine instruction?_eq_some_iff.2 ⟨⟨hrunning.1, (h.inRange_iff _).2 hrunning.2⟩, ?_⟩
      rw [overwrite, Memory.get_set_self]
      exact hdj
    rw [h.perform_step_of_absolute hbase hi hj hij hread, perform_step]
    exact ⟨rfl, h.apply m.effect⟩

/-- A sum whose three operands change places, and which is stored over the word itself. -/
theorem places_interchangeable_own_word :
    Recoded {0, 1, 2} 1 22201 ∧
      ¬ReadsOperandAt { memory := ⟨#[1, 4, 5, 0, 20, 22]⟩, input := .queue [] } 0 ∧
      (perform { memory := ⟨#[1, 4, 5, 0, 20, 22]⟩, input := .queue [] } .step).1 =
        (perform { memory := ⟨#[22201, 4, 5, 0, 20, 22]⟩, input := .queue [] } .step).1 ∧
      SameBut 0 (perform { memory := ⟨#[1, 4, 5, 0, 20, 22]⟩, input := .queue [] } .step).2
        (perform { memory := ⟨#[22201, 4, 5, 0, 20, 22]⟩, input := .queue [] } .step).2 := by
  have hrecoded : Recoded {0, 1, 2} 1 22201 := by
    refine ⟨by decide, by decide, by decide, fun k hk => ?_⟩
    have hlt : 2 < k := by
      simp only [Finset.mem_insert, Finset.mem_singleton] at hk
      omega
    have hpow : 10 ^ 5 ≤ 10 ^ (k + 2) := Nat.pow_le_pow_right (by decide) (by omega)
    rw [decimalDigit_eq, decimalDigit_eq, Nat.div_eq_of_lt, Nat.div_eq_of_lt]
    · exact Nat.lt_of_lt_of_le (by decide) hpow
    · exact Nat.lt_of_lt_of_le (by decide) hpow
  have hread : ¬ReadsOperandAt { memory := ⟨#[1, 4, 5, 0, 20, 22]⟩, input := .queue [] } 0 := by
    rintro ⟨i, hi, hmem⟩
    cases hi
    revert hmem
    decide
  refine ⟨hrecoded, hread, ?_⟩
  exact (places_interchangeable (m := { memory := ⟨#[1, 4, 5, 0, 20, 22]⟩, input := .queue [] })
    (i := .binary .add (.stored .position) (.stored .position) .position) rfl rfl (by decide)
    hread).2 22201 hrecoded

end Machine

end IntcodeMachine

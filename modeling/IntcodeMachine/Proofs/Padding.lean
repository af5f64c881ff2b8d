/-
**Growth is invisible.**

Two machines that differ only in the zeros at the end of their memories cannot be told apart, as
long as neither memory is longer than memory may grow by itself: whatever is asked of them, they
give the same answers, and go on differing in nothing else.  The bound is needed, since a longer
memory has addresses in range that a shorter one has not.

Main definitions:

* `Machine.Padded` — one machine is another one whose memory is followed by zeros.

Main results:

* `Machine.Padded.checks`, `Machine.Padded.fault?` — padding changes no check of a step and no
  fault;
* `Machine.Padded.reached`, `Machine.Padded.transition` — it survives passing checks and every row
  of the table of instructions;
* `Machine.padded_history` — **growth is invisible**, in every history.
-/

import IntcodeMachine.Proofs.History
import IntcodeMachine.Proofs.Step.Execution

set_option relaxedAutoImplicit false
set_option autoImplicit false

namespace IntcodeMachine

namespace Machine

/-- `n` is `m` **padded**: they are equal but for zeros at the end of the memory of `n`, and no
memory is longer than memory may grow. -/
structure Padded (m n : Machine) : Prop where
  memory : m.memory.GrowsTo n.memory
  size_le : n.memory.size ≤ Memory.maxCells
  pc : n.pc = m.pc
  relativeBase : n.relativeBase = m.relativeBase
  input : n.input = m.input
  output : n.output = m.output
  halted : n.halted = m.halted

variable {m n : Machine}

/-! ### Checks -/

theorem Padded.get (h : Padded m n) (a : Nat) : n.memory.get a = m.memory.get a :=
  h.memory.get_eq a

/-- Both memories end where memory may grow to. -/
theorem Padded.inRange_iff (h : Padded m n) (a : Nat) :
    n.memory.InRange a ↔ m.memory.InRange a := by
  have hle := h.memory.size_le
  have hsize := h.size_le
  simp only [Memory.InRange]
  omega

theorem Padded.literal (h : Padded m n) (k : Nat) : n.literal k = m.literal k := by
  simp only [Machine.literal, h.pc, h.get]

theorem Padded.exactAddress (h : Padded m n) (k : Nat) (p : Place) :
    n.exactAddress k p = m.exactAddress k p := by
  simp only [Machine.exactAddress, h.relativeBase, h.literal]

theorem Padded.address (h : Padded m n) (k : Nat) (p : Place) : n.address k p = m.address k p := by
  simp only [Machine.address, h.exactAddress]

theorem Padded.value (h : Padded m n) (k : Nat) (mode : Mode) :
    n.value k mode = m.value k mode := by
  cases mode with
  | immediate => exact h.literal k
  | stored p => simp only [Machine.value, h.address, h.get]

theorem Padded.sourceChecks (h : Padded m n) (k : Nat) (mode : Mode) :
    n.sourceChecks k mode = m.sourceChecks k mode := by
  cases mode <;>
    simp only [Machine.sourceChecks, designateChecks, h.pc, h.exactAddress, h.address]

theorem Padded.instructionChecks (h : Padded m n) (i : Instruction) :
    n.instructionChecks i = m.instructionChecks i := by
  cases i <;>
    simp only [Machine.instructionChecks, designateChecks, h.sourceChecks, h.pc, h.exactAddress,
      h.address, h.value, h.relativeBase]

/-- Padding changes no check of a step. -/
theorem Padded.checks (h : Padded m n) : n.checks = m.checks := by
  simp only [Machine.checks, wordChecks, h.pc, h.get]
  split <;> simp only [h.instructionChecks]

/-- Padding changes no fault. -/
theorem Padded.fault? (h : Padded m n) (c : Check) : c.fault? n = c.fault? m := by
  cases c <;> simp only [Check.fault?, h.halted, h.inRange_iff, h.pc, h.input]

/-! ### Passing checks -/

theorem Padded.lt_maxCells (h : Padded m n) {a : Nat} (ha : m.memory.InRange a) :
    a < Memory.maxCells := by
  have hle := h.memory.size_le
  have hsize := h.size_le
  simp only [Memory.InRange] at ha
  omega

theorem Padded.extend (h : Padded m n) {a : Nat} (ha : a < Memory.maxCells) :
    Padded { m with memory := m.memory.extend a } { n with memory := n.memory.extend a } where
  memory := h.memory.extend_extend a
  size_le := by
    have hsize := h.size_le
    rw [Memory.size_extend]
    omega
  pc := h.pc
  relativeBase := h.relativeBase
  input := h.input
  output := h.output
  halted := h.halted

theorem Padded.set (h : Padded m n) {a : Nat} (ha : a < Memory.maxCells) (v : Cell) :
    Padded { m with memory := m.memory.set a v } { n with memory := n.memory.set a v } where
  memory := h.memory.set_set a v
  size_le := by
    have hsize := h.size_le
    rw [Memory.size_set]
    omega
  pc := h.pc
  relativeBase := h.relativeBase
  input := h.input
  output := h.output
  halted := h.halted

theorem Padded.advance (h : Padded m n) {c : Check} (hc : ∀ a ∈ c.cells, a < Memory.maxCells) :
    Padded (c.advance m) (c.advance n) := by
  have hpc : n.pc + 1 = m.pc + 1 := by rw [h.pc]
  have hinput : n.input.rest = m.input.rest := by rw [h.input]
  cases c with
  | running => exact h
  | word a => exact h.extend (hc a List.mem_cons_self)
  | decodable w => exact { h with pc := hpc }
  | operand a => exact { h.extend (hc a List.mem_cons_self) with pc := hpc }
  | address z => exact h
  | cell a => exact h.extend (hc a List.mem_cons_self)
  | fits z => exact h
  | input => exact { h with input := hinput }

theorem Padded.reached_of_lt (h : Padded m n) {cs : List Check}
    (hcs : ∀ c ∈ cs, ∀ a ∈ c.cells, a < Memory.maxCells) :
    Padded (m.reached cs) (n.reached cs) := by
  induction cs generalizing m n with
  | nil => exact h
  | cons c cs ih =>
      have hc := h.advance (hcs c List.mem_cons_self)
      exact ih hc fun d hd => hcs d (List.mem_cons_of_mem c hd)

/-- Padding survives the passing of checks that hold. -/
theorem Padded.reached (h : Padded m n) {cs : List Check} (hcs : ∀ c ∈ cs, c.Holds m) :
    Padded (m.reached cs) (n.reached cs) :=
  h.reached_of_lt fun c hc a ha => h.lt_maxCells (inRange_of_mem_cells (hcs c hc) a ha)

/-! ### Commands -/

/-- Memory as a step has it when it has looked at all its cells is padded like the state. -/
theorem Padded.grown (h : Padded m n) (hcs : ∀ c ∈ m.checks, c.Holds m) :
    Padded { m with memory := m.grown } { n with memory := n.grown } := by
  have hreached := h.reached hcs
  have hm : m.grown = (m.reached m.checks).memory := (reached_memory m m.checks).symm
  have hn : n.grown = (n.reached m.checks).memory := by
    rw [Machine.grown, h.checks, reached_memory]
  rw [hm, hn]
  exact { h with memory := hreached.memory, size_le := hreached.size_le }

theorem Padded.past (h : Padded m n) (i : Instruction) : n.past i = m.past i := by
  rw [Machine.past, Machine.past, h.pc]

/-- Padding survives every row of the table of instructions. -/
theorem Padded.transition (h : Padded m n) {m' n' : Machine} {i : Instruction} {s s' : Status}
    (hcs : ∀ c ∈ m.checks, c.Holds m) (hd : Instruction.decode m.pc (m.memory.get m.pc) = .ok i)
    (hm : Transition m i s m') (hn : Transition n i s' n') : s = s' ∧ Padded m' n' := by
  have hgrown := h.grown hcs
  have hrange : ∀ a, Check.cell a ∈ m.instructionChecks i → a < Memory.maxCells := fun a ha =>
    h.lt_maxCells (hcs (.cell a) (by rw [checks_of_decode hd]; exact List.mem_append_right _ ha))
  -- the two sides execute the same instruction, so that only a jump leaves a choice of rows
  cases hm with
  | @binary op left right destination v hv =>
      cases hn with
      | binary hw =>
          rw [h.value, h.value, ← hv, Int64.toInt_inj] at hw
          rw [hw, h.address, h.past]
          have ha := hrange _ (List.mem_append_right _ List.mem_cons_self)
          have hset := hgrown.set ha v
          exact ⟨rfl, { hset with pc := rfl }⟩
  | @input destination v rest hv =>
      cases hn with
      | input hw =>
          rw [h.input, hv] at hw
          cases hw
          rw [h.address, h.past]
          have ha := hrange _ (List.mem_append_right _ List.mem_cons_self)
          have hset := hgrown.set ha v
          exact ⟨rfl, { hset with pc := rfl, input := rfl }⟩
  | output =>
      cases hn with
      | output =>
          rw [h.value, h.output, h.past]
          exact ⟨rfl, { hgrown with pc := rfl, output := rfl }⟩
  | jumpTaken ht ha =>
      cases hn with
      | jumpTaken ht' ha' =>
          rw [h.value, ha] at ha'
          exact ⟨rfl, { hgrown with pc := (Int.ofNat_inj.1 ha').symm }⟩
      | jumpUntaken ht' =>
          rw [h.value, ht] at ht'
          cases ht'
  | jumpUntaken ht =>
      cases hn with
      | jumpTaken ht' ha' =>
          rw [h.value, ht] at ht'
          cases ht'
      | jumpUntaken ht' =>
          rw [h.past]
          exact ⟨rfl, { hgrown with pc := rfl }⟩
  | adjustBase hv =>
      cases hn with
      | adjustBase hw =>
          rw [h.value, h.relativeBase, ← hv, Int64.toInt_inj] at hw
          rw [hw, h.past]
          exact ⟨rfl, { hgrown with pc := rfl, relativeBase := rfl }⟩
  | halt =>
      cases hn with
      | halt =>
          rw [h.past]
          exact ⟨rfl, { hgrown with pc := rfl, halted := rfl }⟩

/-- **A step does not see padding.** -/
theorem Padded.step (h : Padded m n) :
    (m.perform .step).1 = (n.perform .step).1 ∧
      Padded (m.perform .step).2 (n.perform .step).2 := by
  cases hm : Machine.step m with
  | ok s m' =>
      have hcs := holds_of_step hm
      obtain ⟨i, hd, ht⟩ := transition_of_step hm
      -- the same checks hold on the other side, which therefore executes the same instruction
      obtain ⟨s', n', hn⟩ : ∃ s' n', Machine.step n = .ok s' n' := by
        refine step_ok_of_holds fun c hc => (holds_congr h.fault? c).2 (hcs c ?_)
        rwa [← h.checks]
      obtain ⟨j, hd', ht'⟩ := transition_of_step hn
      rw [h.pc, h.get, hd] at hd'
      cases hd'
      obtain ⟨rfl, hpadded⟩ := h.transition hcs hd ht ht'
      simp only [perform, hm, hn, true_and]
      exact hpadded
  | error e m' =>
      obtain ⟨hfault, rfl⟩ := step_error_iff.1 hm
      have hn : Machine.step n = .error e (n.reached (m.passing m.checks)) := by
        rw [step_error_iff, h.checks, firstFault_congr h.fault?, passing_congr h.fault?]
        exact ⟨hfault, rfl⟩
      simp only [perform, hm, hn, true_and]
      exact h.reached fun c hc => holds_of_mem_passing hc

theorem Padded.patch (h : Padded m n) (a : Nat) (v : Cell) :
    (m.perform (.patch a v)).1 = (n.perform (.patch a v)).1 ∧
      Padded (m.perform (.patch a v)).2 (n.perform (.patch a v)).2 := by
  by_cases ha : m.memory.InRange a
  · have hm := onMemory_write_of_inRange (v := v) ha
    have hn := onMemory_write_of_inRange (v := v) ((h.inRange_iff a).2 ha)
    simp only [perform, Machine.patch, hm, hn, true_and]
    exact h.set (h.lt_maxCells ha) v
  · have hm := onMemory_write_of_not_inRange (v := v) ha
    have hn := onMemory_write_of_not_inRange (v := v) fun hr => ha ((h.inRange_iff a).1 hr)
    simp only [perform, Machine.patch, hm, hn, true_and]
    exact h

theorem Padded.feed (h : Padded m n) (vs : List Cell) : Padded (m.feed vs) (n.feed vs) :=
  { h with input := congrArg (Input.feed vs) h.input }

/-- **Growth is invisible**: two machines that differ by zeros at the end of memory give the same
answers in every history, and still differ by nothing else after each command. -/
theorem padded_history {m n : Machine} (h : Padded m n) (cs : List Command) :
    List.Forall₂ (fun x y => x.1 = y.1 ∧ Padded x.2 y.2) (m.history cs) (n.history cs) := by
  refine forall₂_history (fun m n c h => ?_) h cs
  cases c with
  | step => exact h.step
  | patch a v => exact h.patch a v
  | feed vs => exact ⟨rfl, h.feed vs⟩

/-- A program that outputs a cell beyond its end and then runs into zeros, with a patch after the
fault: the shorter machine grows on the way, and the four answers are those of the longer one. -/
theorem padded_history_past_end :
    (history { memory := ⟨#[4, 5]⟩, input := .queue [] } [.step, .step, .patch 2 99, .step]).map
        Prod.fst =
        [.status .running, .fault (.unknownOpcode 2 0), .done, .status .halted] ∧
      List.Forall₂ (fun x y => x.1 = y.1 ∧ Padded x.2 y.2)
        (history { memory := ⟨#[4, 5]⟩, input := .queue [] } [.step, .step, .patch 2 99, .step])
        (history { memory := ⟨#[4, 5, 0, 0]⟩, input := .queue [] }
          [.step, .step, .patch 2 99, .step]) := by
  have h : Padded { memory := ⟨#[4, 5]⟩, input := .queue [] }
      { memory := ⟨#[4, 5, 0, 0]⟩, input := .queue [] } :=
    ⟨⟨2, rfl⟩, by decide, rfl, rfl, rfl, rfl, rfl⟩
  exact ⟨rfl, padded_history h _⟩

end Machine

end IntcodeMachine

/-
**A step makes its checks.**

A step fails with the fault of the first of its checks that does not hold, in the state that the
checks before it have led to, and it succeeds when all of them hold, with the effect that the table
of instructions gives.  Everything else that is said about single steps follows from this.

Main definitions:

* `Machine.Transition` — **the table of instructions**: the effect of an instruction, as a relation
  between the states before and after;
* `Machine.past`, `Machine.grown` — the address after an instruction, and memory with all cells that
  a step looks at.

Main results:

* `Machine.makes_execute` — an instruction makes the checks listed for it, one case for each kind;
* `Machine.makes_step` — **a step makes its checks**, and has the effect of its instruction if they
  all hold;
* `Machine.step_error_iff` — the fault and the state of a step that fails;
* `Machine.step_follows_table` — **a step succeeds exactly when all its checks hold**, and then has
  the effect that the table gives.
-/

import IntcodeMachine.Proofs.Step.Operands

set_option relaxedAutoImplicit false
set_option autoImplicit false

namespace IntcodeMachine

namespace Machine

/-! ### The table of instructions -/

/-- The address after an instruction and all its operands. -/
def past (m : Machine) (i : Instruction) : Nat := m.pc + 1 + i.opcode.arity

/-- Memory, extended to every cell that a step looks at. -/
def grown (m : Machine) : Memory := m.memory.cover (m.checks.flatMap Check.cells)

/-- **The table of instructions**: the effect of each instruction on the state `m` in which its step
begins.  Operands are evaluated in `m`, and results are exact. -/
inductive Transition (m : Machine) : Instruction → Status → Machine → Prop
  | binary {op : BinaryOp} {left right : Mode} {destination : Place} {v : Cell}
      (hv : v.toInt = op.exact (m.value 1 left) (m.value 2 right)) :
      Transition m (.binary op left right destination) .running
        { m with
          memory := m.grown.set (m.address 3 destination) v
          pc := m.past (.binary op left right destination) }
  | input {destination : Place} {v : Cell} {rest : Input} (hv : m.input.next = some (v, rest)) :
      Transition m (.input destination) .running
        { m with
          memory := m.grown.set (m.address 1 destination) v
          pc := m.past (.input destination)
          input := rest }
  | output {operand : Mode} :
      Transition m (.output operand) .running
        { m with
          memory := m.grown
          pc := m.past (.output operand)
          output := m.output.push (m.value 1 operand) }
  | jumpTaken {test : Condition} {condition target : Mode} {a : Nat}
      (ht : test.holds (m.value 1 condition) = true) (ha : (m.value 2 target).toInt = (a : Int)) :
      Transition m (.jump test condition target) .running { m with memory := m.grown, pc := a }
  | jumpUntaken {test : Condition} {condition target : Mode}
      (ht : test.holds (m.value 1 condition) = false) :
      Transition m (.jump test condition target) .running
        { m with memory := m.grown, pc := m.past (.jump test condition target) }
  | adjustBase {operand : Mode} {v : Cell}
      (hv : v.toInt = m.relativeBase.toInt + (m.value 1 operand).toInt) :
      Transition m (.adjustBase operand) .running
        { m with memory := m.grown, pc := m.past (.adjustBase operand), relativeBase := v }
  | halt :
      Transition m .halt .halted
        { m with memory := m.grown, pc := m.past .halt, halted := true }

variable {m n : Machine}

/-! ### Instructions -/

@[simp] theorem countP_resultChecks (op : BinaryOp) (a b : Cell) :
    (resultChecks op a b).countP Check.moves = 0 := by
  cases op <;> rfl

theorem input_notMem_resultChecks (op : BinaryOp) (a b : Cell) :
    Check.input ∉ resultChecks op a b := by
  cases op <;> simp [resultChecks]

/-- A result that is to be a cell makes the check that it is one. -/
theorem resolves_fits (z : Int) :
    m.Resolves [.fits z] (orFault (.overflow m.pc) (Cell.ofInt? z)) n (Int64.ofInt z) := by
  refine resolves_singleton (fun hold => ?_) fun e he => ?_
  · have hz : Cell.Fits z := hold
    rw [Cell.ofInt?, if_pos hz]
    rfl
  · obtain ⟨hz, rfl⟩ := Check.fault?_fits he
    rw [Cell.ofInt?, if_neg hz]
    rfl

theorem resolves_result (op : BinaryOp) (a b : Cell) :
    m.Resolves (resultChecks op a b) (orFault (.overflow m.pc) (op.apply a b)) n
      (Int64.ofInt (op.exact a b)) := by
  rw [BinaryOp.apply_eq_ofInt?_exact]
  cases op with
  | add => exact resolves_fits _
  | multiply => exact resolves_fits _
  | lessThan => exact makes_nil (by simp only [BinaryOp.exact]; split <;> rfl) ⟨rfl, rfl⟩
  | equals => exact makes_nil (by simp only [BinaryOp.exact]; split <;> rfl) ⟨rfl, rfl⟩

theorem fits_exact_of_holds {op : BinaryOp} {a b : Cell}
    (h : ∀ c ∈ resultChecks op a b, c.Holds m) : Cell.Fits (op.exact a b) := by
  cases op with
  | add => exact h _ List.mem_cons_self
  | multiply => exact h _ List.mem_cons_self
  | lessThan => simp only [BinaryOp.exact]; split <;> decide
  | equals => simp only [BinaryOp.exact]; split <;> decide

/-- The store at the end of an instruction makes the check of its address. -/
theorem makes_store {a : Nat} {v : Cell} {Q : Status → Machine → Prop}
    (hrange : n.memory.InRange a ↔ m.memory.InRange a)
    (hQ : Q .running { n with memory := n.memory.set a v }) :
    m.Makes [.cell a] (do onMemory (Memory.write a v); return .running) n Q := by
  refine makes_singleton (fun hold => ?_) fun e he => ?_
  · exact ⟨_, _, bind_of_ok (onMemory_write_of_inRange (hrange.2 hold)), hQ⟩
  · obtain ⟨hr, rfl⟩ := Check.fault?_of_mem_cells List.mem_cons_self he
    exact bind_of_error (onMemory_write_of_not_inRange fun hn => hr (hrange.1 hn))

@[simp] theorem countP_wordChecks : m.wordChecks.countP Check.moves = 1 := rfl

theorem input_notMem_wordChecks : Check.input ∉ m.wordChecks := by
  simp [wordChecks]

theorem advance_eq_reached : m.advance = m.reached m.wordChecks := rfl

/-- The state after the store that ends an instruction. -/
theorem store_reached {cs : List Check} {a p : Nat} {v : Cell} {rest : Input}
    (hcs : m.checks = cs ++ [.cell a]) (hinput : (m.reached cs).input = rest)
    (hp : m.pc + cs.countP Check.moves = p) :
    { m.reached cs with memory := (m.reached cs).memory.set a v } =
      { m with memory := m.grown.set a v, pc := p, input := rest } := by
  have hgrown : m.grown = (m.memory.cover (cs.flatMap Check.cells)).extend a := by
    rw [grown, hcs, List.flatMap_append, Memory.cover_append]
    rfl
  rw [reached_eq hinput, hgrown, Memory.set_extend_self, hp]

/-- The state after all checks of an instruction that takes no input. -/
theorem reached_checks {cs : List Check} {p : Nat} (hcs : m.checks = cs)
    (hinput : Check.input ∉ cs) (hp : m.pc + cs.countP Check.moves = p) :
    m.reached cs = { m with memory := m.grown, pc := p } := by
  rw [reached_eq (reached_input hinput), grown, hcs, hp]

theorem resolves_receive {v : Cell} (h : n.input = m.input)
    (hv : ∀ w rest, m.input.next = some (w, rest) → w = v) :
    m.Resolves [.input] (receive m.pc) n v := by
  refine resolves_singleton ?_ fun e he => ?_
  · rintro ⟨w, rest, hnext⟩
    simp only [receive, Check.advance, h, hnext, Input.rest, hv w rest hnext]
  · obtain ⟨hnext, rfl⟩ := Check.fault?_input he
    simp only [receive, h, hnext]

theorem makes_execute_binary {op : BinaryOp} {left right : Mode} {destination : Place}
    (hr : m.memory.InRange m.pc)
    (hd : Instruction.decode m.pc (m.memory.get m.pc) = .ok (.binary op left right destination)) :
    m.Makes (m.instructionChecks (.binary op left right destination))
      (execute m.pc (.binary op left right destination)) m.advance
      (Transition m (.binary op left right destination)) := by
  simp only [instructionChecks, List.append_assoc]
  -- the stages before the first operand, after each of the three, and before the store
  have h₁ := stage_advance hr
  refine Makes.bind (resolves_source left h₁) fun hleft => ?_
  have h₂ := h₁.source hleft
  refine Makes.bind (resolves_source right h₂) fun hright => ?_
  have h₃ := h₂.source hright
  refine Makes.bind (resolves_designate destination h₃) fun hdest => ?_
  have h₄ := h₃.designate hdest
  refine Makes.bind (resolves_result op _ _) fun hresult => ?_
  have h₅ := h₄.reached hresult (input_notMem_resultChecks _ _ _)
  refine makes_store (h₅.inRange _) ?_
  have hv := Cell.toInt_ofInt_of_fits (fits_exact_of_holds hresult)
  -- what is left is to collect the checks, so that the state is the one of the table
  rw [advance_eq_reached, ← reached_append, ← reached_append, ← reached_append, ← reached_append,
    store_reached]
  · exact Transition.binary hv
  · simp only [checks_of_decode hd, instructionChecks, List.append_assoc]
  · refine reached_input ?_
    simp [input_notMem_wordChecks, input_notMem_sourceChecks, input_notMem_designateChecks,
      input_notMem_resultChecks]
  · simp [List.countP_append, past, Instruction.opcode, Opcode.arity]

theorem makes_execute_input {destination : Place} (hr : m.memory.InRange m.pc)
    (hd : Instruction.decode m.pc (m.memory.get m.pc) = .ok (.input destination)) :
    m.Makes (m.instructionChecks (.input destination)) (execute m.pc (.input destination))
      m.advance (Transition m (.input destination)) := by
  simp only [instructionChecks, List.append_assoc]
  have h₁ := stage_advance hr
  refine Makes.bind (resolves_designate destination h₁) fun hdest => ?_
  have h₂ := h₁.designate hdest
  -- the value matters only where there is one
  obtain ⟨v, hv⟩ : ∃ v, ∀ w rest, m.input.next = some (w, rest) → w = v := by
    cases hnext : m.input.next with
    | none => exact ⟨0, fun w rest hw => by cases hw⟩
    | some r => exact ⟨r.1, fun w rest hw => by cases hw; rfl⟩
  refine Makes.bind (resolves_receive h₂.input hv) fun hinput => ?_
  obtain ⟨w, rest, hnext⟩ := hinput _ List.mem_cons_self
  obtain rfl := hv w rest hnext
  refine makes_store (h₂.inRange _) ?_
  rw [advance_eq_reached, ← reached_append, ← reached_append, store_reached]
  · exact Transition.input hnext
  · simp only [checks_of_decode hd, instructionChecks, List.append_assoc]
  · rw [← List.append_assoc, reached_input_append, Input.rest_of_next hnext]
    simp [input_notMem_wordChecks, input_notMem_designateChecks]
  · simp [List.countP_append, Check.moves, past, Instruction.opcode, Opcode.arity]

theorem makes_execute_output {operand : Mode} (hr : m.memory.InRange m.pc)
    (hd : Instruction.decode m.pc (m.memory.get m.pc) = .ok (.output operand)) :
    m.Makes (m.instructionChecks (.output operand)) (execute m.pc (.output operand)) m.advance
      (Transition m (.output operand)) := by
  rw [instructionChecks, ← List.append_nil (m.sourceChecks 1 operand)]
  refine Makes.bind (resolves_source operand (stage_advance hr)) fun _ => ?_
  refine makes_nil rfl ?_
  rw [advance_eq_reached, ← reached_append, reached_checks]
  · exact Transition.output
  · rw [checks_of_decode hd, instructionChecks]
  · simp [input_notMem_wordChecks, input_notMem_sourceChecks]
  · simp [List.countP_append, Instruction.opcode, Opcode.arity]

theorem makes_execute_adjustBase {operand : Mode} (hr : m.memory.InRange m.pc)
    (hd : Instruction.decode m.pc (m.memory.get m.pc) = .ok (.adjustBase operand)) :
    m.Makes (m.instructionChecks (.adjustBase operand)) (execute m.pc (.adjustBase operand))
      m.advance (Transition m (.adjustBase operand)) := by
  have h₁ := stage_advance hr
  refine Makes.bind (resolves_source operand h₁) fun hsource => ?_
  have h₂ := h₁.source hsource
  refine makes_base h₂.relativeBase ?_
  rw [← List.append_nil [_]]
  refine Makes.bind (resolves_fits _) fun hfits => ?_
  have hv := Cell.toInt_ofInt_of_fits (hfits _ List.mem_cons_self)
  refine makes_nil rfl ?_
  rw [advance_eq_reached, ← reached_append, ← reached_append, reached_checks]
  · exact Transition.adjustBase hv
  · rw [checks_of_decode hd, instructionChecks]
  · simp [input_notMem_wordChecks, input_notMem_sourceChecks]
  · simp [List.countP_append, Check.moves, Instruction.opcode, Opcode.arity]

theorem makes_execute_halt
    (hd : Instruction.decode m.pc (m.memory.get m.pc) = .ok .halt) :
    m.Makes (m.instructionChecks .halt) (execute m.pc .halt) m.advance (Transition m .halt) := by
  refine makes_nil rfl ?_
  rw [advance_eq_reached, reached_checks]
  · exact Transition.halt
  · rw [checks_of_decode hd, instructionChecks, List.append_nil]
  · exact input_notMem_wordChecks
  · simp [Instruction.opcode, Opcode.arity]

theorem makes_execute_jump {test : Condition} {condition target : Mode}
    (hr : m.memory.InRange m.pc)
    (hd : Instruction.decode m.pc (m.memory.get m.pc) = .ok (.jump test condition target)) :
    m.Makes (m.instructionChecks (.jump test condition target))
      (execute m.pc (.jump test condition target)) m.advance
      (Transition m (.jump test condition target)) := by
  have h₁ := stage_advance hr
  refine Makes.bind (resolves_source condition h₁) fun hcondition => ?_
  have h₂ := h₁.source hcondition
  cases ht : test.holds (m.value 1 condition) with
  | true =>
      simp only [if_true]
      refine Makes.bind (resolves_source target h₂) fun _ => ?_
      rw [← List.append_nil [_]]
      refine Makes.bind (resolves_ofCell _) fun haddress => ?_
      have ha := (haddress _ List.mem_cons_self).2
      refine makes_nil rfl ?_
      rw [advance_eq_reached, ← reached_append, ← reached_append, ← reached_append, reached_checks]
      · exact Transition.jumpTaken ht (Int.toNat_of_nonneg ha).symm
      · rw [checks_of_decode hd, instructionChecks, if_pos ht]
      · simp [input_notMem_wordChecks, input_notMem_sourceChecks]
      · rfl
  | false =>
      simp only [Bool.false_eq_true, if_false]
      refine makes_nil rfl ?_
      rw [advance_eq_reached, ← reached_append, reached_checks]
      · exact Transition.jumpUntaken ht
      · rw [checks_of_decode hd, instructionChecks, ht, if_neg Bool.false_ne_true, List.append_nil]
      · simp [input_notMem_wordChecks, input_notMem_sourceChecks]
      · simp [List.countP_append]

/-- The effect of an instruction makes the checks listed for it. -/
theorem makes_execute {i : Instruction} (hr : m.memory.InRange m.pc)
    (hd : Instruction.decode m.pc (m.memory.get m.pc) = .ok i) :
    m.Makes (m.instructionChecks i) (execute m.pc i) m.advance (Transition m i) := by
  cases i with
  | binary op left right destination => exact makes_execute_binary hr hd
  | input destination => exact makes_execute_input hr hd
  | output operand => exact makes_execute_output hr hd
  | jump test condition target => exact makes_execute_jump hr hd
  | adjustBase operand => exact makes_execute_adjustBase hr hd
  | halt => exact makes_execute_halt hd

/-! ### Steps -/

/-- **A step makes its checks**, and has the effect of its instruction if they all hold. -/
theorem makes_step (m : Machine) :
    m.Makes m.checks step m fun s m' =>
      ∃ i, Instruction.decode m.pc (m.memory.get m.pc) = .ok i ∧ Transition m i s m' := by
  cases hh : m.halted with
  | true =>
      unfold Makes
      rw [step_of_halted hh]
      simp [checks, wordChecks, firstFault, passing, Check.fault?, Check.Holds, hh]
  | false =>
      by_cases hr : m.memory.InRange m.pc
      · cases hd : Instruction.decode m.pc (m.memory.get m.pc) with
        | error e =>
            unfold Makes
            rw [step_of_undecodable hh hr hd, checks_of_undecodable hd]
            simp [wordChecks, firstFault, passing, Check.fault?, Check.Holds, Check.advance,
              hh, hr, hd]
        | ok i =>
            have hword := holds_of_mem_wordChecks hh hr hd
            rw [checks_of_decode hd]
            refine Makes.prepend hword (step_of_decode hh hr hd) ?_
            exact (makes_execute hr hd).mono fun s m' ht => ⟨i, rfl, ht⟩
      · unfold Makes
        rw [step_of_not_inRange hh hr]
        simp [checks, wordChecks, firstFault, passing, Check.fault?, Check.Holds, Check.advance,
          hh, hr]

/-- A step that succeeds has passed all its checks. -/
theorem holds_of_step {m m' : Machine} {s : Status} (h : step m = .ok s m') :
    ∀ c ∈ m.checks, c.Holds m := by
  have hm := makes_step m
  unfold Makes at hm
  rw [h] at hm
  exact hm.1

/-- A step that succeeds has the effect of its instruction. -/
theorem transition_of_step {m m' : Machine} {s : Status} (h : step m = .ok s m') :
    ∃ i, Instruction.decode m.pc (m.memory.get m.pc) = .ok i ∧ Transition m i s m' := by
  have hm := makes_step m
  unfold Makes at hm
  rw [h] at hm
  exact hm.2

/-- A step all of whose checks hold succeeds. -/
theorem step_ok_of_holds {m : Machine} (h : ∀ c ∈ m.checks, c.Holds m) :
    ∃ s m', step m = .ok s m' := by
  have hm := makes_step m
  unfold Makes at hm
  cases hs : step m with
  | ok s m' => exact ⟨s, m', rfl⟩
  | error e m' =>
      rw [hs, firstFault_eq_none_iff.2 h] at hm
      cases hm.1

/-- **A step fails exactly when a check does**: with the first fault, and in the state that the
checks before it lead to. -/
theorem step_error_iff {m m' : Machine} {e : Fault} :
    step m = .error e m' ↔
      m.firstFault m.checks = some e ∧ m' = m.reached (m.passing m.checks) := by
  have hm := makes_step m
  unfold Makes at hm
  cases hs : step m with
  | ok s n =>
      rw [hs] at hm
      rw [firstFault_eq_none_iff.2 hm.1]
      simp
  | error f n =>
      rw [hs] at hm
      obtain ⟨hfault, rfl⟩ := hm
      rw [hfault]
      constructor
      · intro h
        cases h
        exact ⟨rfl, rfl⟩
      · rintro ⟨h, rfl⟩
        cases h
        rfl

/-- **A step follows the table of instructions.**  It succeeds exactly when all its checks hold, and
its effect is then the one that the table gives for the instruction at the program counter. -/
theorem step_follows_table (m : Machine) :
    ((∃ s m', step m = .ok s m') ↔ ∀ c ∈ m.checks, c.Holds m) ∧
      ∀ s m', step m = .ok s m' →
        ∃ i, Instruction.decode m.pc (m.memory.get m.pc) = .ok i ∧ Transition m i s m' := by
  refine ⟨⟨?_, step_ok_of_holds⟩, fun s m' h => transition_of_step h⟩
  rintro ⟨s, m', h⟩
  exact holds_of_step h

/-- A step that stores into one of its own operands, with a source beyond the end of memory: the sum
is that of the state before. -/
theorem step_follows_table_self_store :
    step { memory := ⟨#[1, 0, 9, 3]⟩, input := .queue [] } =
        .ok .running
          { memory := ⟨#[1, 0, 9, 1, 0, 0, 0, 0, 0, 0]⟩, pc := 4, input := .queue [] } ∧
      ∃ i, Instruction.decode 0 1 = .ok i ∧
        Transition { memory := ⟨#[1, 0, 9, 3]⟩, input := .queue [] } i .running
          { memory := ⟨#[1, 0, 9, 1, 0, 0, 0, 0, 0, 0]⟩, pc := 4, input := .queue [] } :=
  ⟨rfl, (step_follows_table { memory := ⟨#[1, 0, 9, 3]⟩, input := .queue [] }).2 _ _ rfl⟩

end Machine

end IntcodeMachine

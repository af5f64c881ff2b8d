/-
**The effect of a step.**

Whatever a step does, be it completed or refused, comes to the same few changes: memory is extended
to the cells that were looked at, one cell may be overwritten, the program counter and the relative
base get new values, a value may be taken from the input, values may be appended to the output, and
the program may halt.  This module collects these changes in a record, `Effect`, which is computed
from the checks of the step and the table of instructions, and proves that a step applies it.  Facts
about all steps then need no look at the instructions one by one.

Main definitions:

* `Machine.tried` — the checks that are made in a list of checks: those before the first failure,
  and the one that fails;
* `Machine.touched`, `Machine.asks` — **what a step looks at**: the cells that it reads or writes,
  and whether it asks for a value of the input;
* `Effect`, `Effect.apply` — the changes that a step makes;
* `Machine.effect`, `Machine.reply` — the effect of the next step, and the answer to it.

Main results:

* `Machine.perform_step` — **a step applies its effect**;
* `Machine.perform_step_congr` — when two states make the same step;
* `Machine.inRange_of_mem_effect_cells`, `Machine.mem_cells_of_store` — memory is extended to cells
  that it can have, and a cell that is overwritten is one of them.
-/

import IntcodeMachine.Proofs.History
import IntcodeMachine.Proofs.Step.Failure

set_option relaxedAutoImplicit false
set_option autoImplicit false

namespace IntcodeMachine

/-! ### Effects -/

/-- **The changes that a step makes.** -/
structure Effect where
  /-- The cells that memory has afterwards. -/
  cells : List Nat
  /-- The cell that is overwritten, with its new value. -/
  store : Option (Nat × Cell) := none
  pc : Nat
  relativeBase : Cell
  /-- Whether the input is asked for a value. -/
  asks : Bool
  /-- The values that are appended to the output. -/
  emits : List Cell := []
  halts : Bool := false
deriving DecidableEq

namespace Effect

/-- Memory after an effect. -/
def onCells (e : Effect) (memory : Memory) : Memory :=
  match e.store with
  | some (a, v) => (memory.cover e.cells).set a v
  | none => memory.cover e.cells

/-- The input after an effect.  A source that is asked in vain stays as it is. -/
def onInput (e : Effect) (source : Input) : Input := if e.asks then source.rest else source

/-- The state after an effect. -/
def apply (e : Effect) (m : Machine) : Machine where
  memory := e.onCells m.memory
  pc := e.pc
  relativeBase := e.relativeBase
  input := e.onInput m.input
  output := m.output ++ e.emits
  halted := m.halted || e.halts

/-! ### Memory after an effect -/

theorem size_le_size_onCells (e : Effect) (memory : Memory) :
    memory.size ≤ (e.onCells memory).size := by
  have hcover := Memory.size_le_size_cover memory e.cells
  unfold onCells
  split
  · rw [Memory.size_set]
    omega
  · exact hcover

theorem get_onCells {e : Effect} {memory : Memory} {a : Nat}
    (ha : ∀ b w, e.store = some (b, w) → b ≠ a) :
    (e.onCells memory).get a = memory.get a := by
  unfold onCells
  split
  · next b w hstore =>
      have hne : a ≠ b := (ha b w hstore).symm
      rw [Memory.get_set_of_ne _ _ hne, Memory.get_cover]
  · rw [Memory.get_cover]

/-- A value written beforehand into a cell that is not overwritten is still there afterwards. -/
theorem onCells_set {e : Effect} {memory : Memory} {a : Nat} {v : Cell}
    (ha : ∀ b w, e.store = some (b, w) → b ≠ a) :
    e.onCells (memory.set a v) = (e.onCells memory).set a v := by
  unfold onCells
  split
  · next b w hstore =>
      have hne : a ≠ b := (ha b w hstore).symm
      rw [Memory.cover_set, Memory.set_comm _ _ _ hne]
  · rw [Memory.cover_set]

end Effect

namespace Machine

/-! ### The checks that are made -/

/-- **The checks that are made** in a list of checks: those before the first that does not hold, and
this one. -/
def tried (m : Machine) : List Check → List Check
  | [] => []
  | c :: cs => if c.Holds m then c :: m.tried cs else [c]

variable {m : Machine}

theorem tried_cons_of_holds {c : Check} {cs : List Check} (h : c.Holds m) :
    m.tried (c :: cs) = c :: m.tried cs := by
  rw [tried, if_pos h]

theorem tried_cons_of_not_holds {c : Check} {cs : List Check} (h : ¬c.Holds m) :
    m.tried (c :: cs) = [c] := by
  rw [tried, if_neg h]

theorem head_mem_tried {c : Check} {cs : List Check} : c ∈ m.tried (c :: cs) := by
  by_cases h : c.Holds m
  · rw [tried_cons_of_holds h]
    exact List.mem_cons_self
  · rw [tried_cons_of_not_holds h]
    exact List.mem_cons_self

theorem mem_of_mem_tried {c : Check} {cs : List Check} (h : c ∈ m.tried cs) : c ∈ cs := by
  induction cs with
  | nil => exact h
  | cons d cs ih =>
      by_cases hd : d.Holds m
      · rw [tried_cons_of_holds hd] at h
        rcases List.mem_cons.1 h with rfl | h
        · exact List.mem_cons_self
        · exact List.mem_cons_of_mem d (ih h)
      · rw [tried_cons_of_not_holds hd] at h
        obtain rfl := List.mem_singleton.1 h
        exact List.mem_cons_self

/-- Two states with the same faults make the same checks. -/
theorem tried_congr {n : Machine} (h : ∀ c : Check, c.fault? n = c.fault? m) (cs : List Check) :
    n.tried cs = m.tried cs := by
  induction cs with
  | nil => rfl
  | cons c cs ih => simp only [tried, holds_congr h, ih]

/-- If all checks hold, all of them are made. -/
theorem tried_of_holds {cs : List Check} (h : ∀ c ∈ cs, c.Holds m) : m.tried cs = cs := by
  induction cs with
  | nil => rfl
  | cons c cs ih =>
      rw [tried_cons_of_holds (h c List.mem_cons_self),
        ih fun d hd => h d (List.mem_cons_of_mem c hd)]

theorem tried_append_of_holds {cs ds : List Check} (h : ∀ c ∈ cs, c.Holds m) :
    m.tried (cs ++ ds) = cs ++ m.tried ds := by
  induction cs with
  | nil => rfl
  | cons c cs ih =>
      rw [List.cons_append, tried_cons_of_holds (h c List.mem_cons_self),
        ih fun d hd => h d (List.mem_cons_of_mem c hd), List.cons_append]

/-- No check that follows a failure is made. -/
theorem tried_append_of_fault {cs ds : List Check} {e : Fault} (h : m.firstFault cs = some e) :
    m.tried (cs ++ ds) = m.tried cs := by
  obtain ⟨before, c, after, rfl, hc, hbefore⟩ := firstFault_eq_some_iff.1 h
  have hstop := Check.not_holds_of_fault? hc
  rw [List.append_assoc, List.cons_append, tried_append_of_holds hbefore,
    tried_append_of_holds hbefore, tried_cons_of_not_holds hstop, tried_cons_of_not_holds hstop]

theorem passing_cons_of_holds {c : Check} {cs : List Check} (h : c.Holds m) :
    m.passing (c :: cs) = c :: m.passing cs :=
  List.takeWhile_cons_of_pos (decide_eq_true h)

theorem passing_cons_of_not_holds {c : Check} {cs : List Check} (h : ¬c.Holds m) :
    m.passing (c :: cs) = [] :=
  List.takeWhile_cons_of_neg (by simpa using h)

theorem firstFault_cons_of_holds {c : Check} {cs : List Check} (h : c.Holds m) :
    m.firstFault (c :: cs) = m.firstFault cs := by
  rw [firstFault, List.findSome?_cons, Check.fault?_eq_none_iff.2 h]
  rfl

theorem passing_of_holds {cs : List Check} (h : ∀ c ∈ cs, c.Holds m) : m.passing cs = cs := by
  have happend := @passing_append_of_holds m cs [] h
  rwa [List.append_nil, show m.passing [] = [] from rfl, List.append_nil] at happend

/-- The checks that are made tell which of them pass. -/
theorem passing_tried (cs : List Check) : m.passing (m.tried cs) = m.passing cs := by
  induction cs with
  | nil => rfl
  | cons c cs ih =>
      by_cases h : c.Holds m
      · rw [tried_cons_of_holds h, passing_cons_of_holds h, passing_cons_of_holds h, ih]
      · rw [tried_cons_of_not_holds h, passing_cons_of_not_holds h, passing_cons_of_not_holds h]

/-- The checks that are made tell the first fault. -/
theorem firstFault_tried (cs : List Check) : m.firstFault (m.tried cs) = m.firstFault cs := by
  induction cs with
  | nil => rfl
  | cons c cs ih =>
      by_cases h : c.Holds m
      · rw [tried_cons_of_holds h, firstFault_cons_of_holds h, firstFault_cons_of_holds h, ih]
      · obtain ⟨e, he⟩ := Option.ne_none_iff_exists'.1 (mt Check.fault?_eq_none_iff.1 h)
        rw [tried_cons_of_not_holds h, firstFault, firstFault, List.findSome?_cons,
          List.findSome?_cons, he]

/-- A check that passes is made. -/
theorem mem_tried_of_mem_passing {c : Check} {cs : List Check} (h : c ∈ m.passing cs) :
    c ∈ m.tried cs := by
  rw [← passing_tried] at h
  exact List.takeWhile_subset _ h

/-- A check that is made and fails is the first to do so. -/
theorem firstFault_of_mem_tried {c : Check} {cs : List Check} {e : Fault} (h : c ∈ m.tried cs)
    (he : c.fault? m = some e) : m.firstFault cs = some e := by
  induction cs with
  | nil => cases h
  | cons d cs ih =>
      by_cases hd : d.Holds m
      · rw [tried_cons_of_holds hd] at h
        rw [firstFault_cons_of_holds hd]
        rcases List.mem_cons.1 h with rfl | h
        · exact absurd hd (Check.not_holds_of_fault? he)
        · exact ih h
      · rw [tried_cons_of_not_holds hd] at h
        obtain rfl := List.mem_singleton.1 h
        rw [firstFault, List.findSome?_cons, he]

/-- A check that is made and holds is passed. -/
theorem mem_passing_of_mem_tried {c : Check} {cs : List Check} (h : c ∈ m.tried cs)
    (hc : c.Holds m) : c ∈ m.passing cs := by
  induction cs with
  | nil => cases h
  | cons d cs ih =>
      by_cases hd : d.Holds m
      · rw [tried_cons_of_holds hd] at h
        rw [passing_cons_of_holds hd]
        rcases List.mem_cons.1 h with rfl | h
        · exact List.mem_cons_self
        · exact List.mem_cons_of_mem d (ih h)
      · rw [tried_cons_of_not_holds hd] at h
        obtain rfl := List.mem_singleton.1 h
        exact absurd hc hd

/-! ### What a step looks at -/

/-- **The cells that the next step looks at**: every address at which it reads or writes memory, up
to the one, if any, that it cannot have.  Each such access makes one check of a cell, for the word,
for an operand, or for a source or a destination. -/
def touched (m : Machine) : List Nat := (m.tried m.checks).flatMap Check.cells

/-- Whether the next step asks for a value of the input, be there one or not. -/
def asks (m : Machine) : Bool := decide (Check.input ∈ m.tried m.checks)

/-! ### The effect of the next step -/

/-- The changes that come of the checks alone. -/
def progress (m : Machine) : Effect where
  cells := (m.passing m.checks).flatMap Check.cells
  pc := m.pc + (m.passing m.checks).countP Check.moves
  relativeBase := m.relativeBase
  asks := m.asks

/-- The changes of an instruction that is carried out, besides those of its checks. -/
def complete (m : Machine) (e : Effect) : Instruction → Effect
  | .binary op left right destination =>
      { e with
        store := some (m.address 3 destination,
          Int64.ofInt (op.exact (m.value 1 left) (m.value 2 right))) }
  | .input destination =>
      { e with store := (m.input.next.map Prod.fst).map fun v => (m.address 1 destination, v) }
  | .output operand => { e with emits := [m.value 1 operand] }
  | .jump test condition target =>
      { e with
        pc :=
          if test.holds (m.value 1 condition) then (m.value 2 target).toInt.toNat
          else m.past (.jump test condition target) }
  | .adjustBase operand =>
      { e with relativeBase := Int64.ofInt (m.relativeBase.toInt + (m.value 1 operand).toInt) }
  | .halt => { e with halts := true }

/-- The instruction that the next step carries out.  There is none when one of its checks fails. -/
def executed? (m : Machine) : Option Instruction :=
  match m.firstFault m.checks with
  | some _ => none
  | none => (Instruction.decode m.pc (m.memory.get m.pc)).toOption

/-- **The effect of the next step.** -/
def effect (m : Machine) : Effect :=
  match m.executed? with
  | some i => m.complete m.progress i
  | none => m.progress

/-- The answer to the next step. -/
def reply (m : Machine) : Reply :=
  match m.firstFault m.checks with
  | some e => .fault e
  | none => .status (if m.effect.halts then .halted else .running)

theorem executed?_of_fault {e : Fault} (h : m.firstFault m.checks = some e) :
    m.executed? = none := by
  simp only [executed?, h]

theorem executed?_of_decode {i : Instruction} (h : m.firstFault m.checks = none)
    (hd : Instruction.decode m.pc (m.memory.get m.pc) = .ok i) : m.executed? = some i := by
  simp only [executed?, h, hd]
  rfl

/-! ### A step applies its effect -/

/-- The input after a step that fails.  A value that was obtained is gone, and a source asked in
vain is as before. -/
theorem input_of_error {m' : Machine} {e : Fault} (h : step m = .error e m') :
    m'.input = m.progress.onInput m.input := by
  simp only [Effect.onInput, progress, asks, decide_eq_true_eq]
  by_cases hpass : Check.input ∈ m.passing m.checks
  · obtain ⟨-, v, -, -, -, hnext⟩ := input_of_obtained h hpass
    rw [if_pos (mem_tried_of_mem_passing hpass), Input.rest_of_next hnext]
  · rw [(step_error_iff.1 h).2, reached_input hpass]
    split
    · next htried =>
        have hnot : ¬Check.input.Holds m := fun hold => hpass (mem_passing_of_mem_tried htried hold)
        have hnone : m.input.next = none := by
          cases hnext : m.input.next with
          | none => rfl
          | some r => exact absurd ⟨r.1, r.2, hnext⟩ hnot
        simp only [Input.rest, hnone]
    · rfl

/-- A step that fails makes the changes of its checks alone. -/
theorem apply_progress_of_error {m' : Machine} {e : Fault} (h : step m = .error e m') :
    m' = m.progress.apply m := by
  have hinput := input_of_error h
  rw [(step_error_iff.1 h).2] at hinput ⊢
  rw [reached_eq hinput]
  simp [Effect.apply, Effect.onCells, progress]

/-- An instruction other than a jump moves the program counter past all its operands. -/
theorem pc_past {i : Instruction} (hd : Instruction.decode m.pc (m.memory.get m.pc) = .ok i)
    (hi : ∀ test condition target, i ≠ .jump test condition target) :
    m.pc + m.checks.countP Check.moves = m.past i := by
  rw [checks_of_decode hd, List.countP_append, countP_wordChecks]
  cases i with
  | jump test condition target => exact absurd rfl (hi test condition target)
  | _ =>
      simp [instructionChecks, List.countP_append, Check.moves, past, Instruction.opcode,
        Opcode.arity, Nat.add_assoc]

/-- Only an input instruction asks for a value. -/
theorem input_mem_checks_iff {i : Instruction}
    (hd : Instruction.decode m.pc (m.memory.get m.pc) = .ok i) :
    Check.input ∈ m.checks ↔ ∃ destination, i = .input destination := by
  rw [checks_of_decode hd, List.mem_append]
  constructor
  · intro h
    exact input_mem_instructionChecks (h.resolve_left input_notMem_wordChecks)
  · rintro ⟨destination, rfl⟩
    right
    simp [instructionChecks]

/-- The changes of the checks when all of them hold. -/
theorem progress_of_holds (h : ∀ c ∈ m.checks, c.Holds m) :
    m.progress =
      { cells := m.checks.flatMap Check.cells
        pc := m.pc + m.checks.countP Check.moves
        relativeBase := m.relativeBase
        asks := decide (Check.input ∈ m.checks) } := by
  simp only [progress, asks, passing_of_holds h, tried_of_holds h]

/-- An instruction that is carried out makes the changes that the table gives. -/
theorem apply_complete_of_transition {m' : Machine} {i : Instruction} {s : Status}
    (hcs : ∀ c ∈ m.checks, c.Holds m) (hd : Instruction.decode m.pc (m.memory.get m.pc) = .ok i)
    (ht : Transition m i s m') :
    m' = (m.complete m.progress i).apply m ∧
      s = if (m.complete m.progress i).halts then .halted else .running := by
  have hinput := input_mem_checks_iff hd
  have hpast := pc_past hd
  rw [progress_of_holds hcs]
  cases ht with
  | @binary op left right destination v hv =>
      refine ⟨?_, rfl⟩
      simp [Effect.apply, Effect.onCells, Effect.onInput, complete, hpast, hinput, grown, ← hv]
  | input hv =>
      refine ⟨?_, rfl⟩
      simp [Effect.apply, Effect.onCells, Effect.onInput, complete, hpast, hinput, grown, hv,
        Input.rest_of_next hv]
  | output =>
      refine ⟨?_, rfl⟩
      simp [Effect.apply, Effect.onCells, Effect.onInput, complete, hpast, hinput, grown]
  | jumpTaken ht ha =>
      refine ⟨?_, rfl⟩
      simp [Effect.apply, Effect.onCells, Effect.onInput, complete, hinput, grown, ht, ha]
  | jumpUntaken ht =>
      refine ⟨?_, rfl⟩
      simp [Effect.apply, Effect.onCells, Effect.onInput, complete, hinput, grown, ht]
  | adjustBase hv =>
      refine ⟨?_, rfl⟩
      simp [Effect.apply, Effect.onCells, Effect.onInput, complete, hpast, hinput, grown, ← hv]
  | halt =>
      refine ⟨?_, rfl⟩
      simp [Effect.apply, Effect.onCells, Effect.onInput, complete, hpast, hinput, grown]

/-- A step whose checks hold does what the table gives for its instruction. -/
theorem step_of_transition {m' : Machine} {i : Instruction} {s : Status}
    (hcs : ∀ c ∈ m.checks, c.Holds m) (hd : Instruction.decode m.pc (m.memory.get m.pc) = .ok i)
    (ht : Transition m i s m') : step m = .ok s m' := by
  obtain ⟨s', n, h⟩ := step_ok_of_holds hcs
  obtain ⟨j, hj, htable⟩ := transition_of_step h
  obtain rfl : i = j := Except.ok.inj (hd.symm.trans hj)
  -- the table leaves no choice
  obtain ⟨rfl, rfl⟩ := apply_complete_of_transition hcs hd htable
  obtain ⟨rfl, rfl⟩ := apply_complete_of_transition hcs hd ht
  exact h

/-- **A step applies its effect.** -/
theorem perform_step (m : Machine) : m.perform .step = (m.reply, m.effect.apply m) := by
  cases h : step m with
  | ok s m' =>
      have hcs := holds_of_step h
      obtain ⟨i, hd, ht⟩ := transition_of_step h
      have hfault := firstFault_eq_none_iff.2 hcs
      obtain ⟨rfl, rfl⟩ := apply_complete_of_transition hcs hd ht
      simp only [perform, h, reply, effect, hfault, executed?_of_decode hfault hd]
  | error e m' =>
      obtain rfl := apply_progress_of_error h
      have hfault := (step_error_iff.1 h).1
      simp only [perform, h, reply, effect, hfault, executed?_of_fault hfault]

/-- **Two states make the same step** if their checks come to the same, and the instructions that
they carry out, if no check fails, change the same. -/
theorem perform_step_congr {n : Machine}
    (hfault : n.firstFault n.checks = m.firstFault m.checks) (hprogress : n.progress = m.progress)
    (hchanges : m.firstFault m.checks = none →
      ∃ i j, Instruction.decode m.pc (m.memory.get m.pc) = .ok i ∧
        Instruction.decode n.pc (n.memory.get n.pc) = .ok j ∧
        ∀ e, n.complete e j = m.complete e i) :
    n.perform .step = ((m.perform .step).1, m.effect.apply n) := by
  have heffect : n.effect = m.effect := by
    cases hm : m.firstFault m.checks with
    | some e =>
        rw [hm] at hfault
        simp only [effect, executed?_of_fault hm, executed?_of_fault hfault, hprogress]
    | none =>
        rw [hm] at hfault
        obtain ⟨i, j, hi, hj, hij⟩ := hchanges hm
        simp only [effect, executed?_of_decode hm hi, executed?_of_decode hfault hj, hprogress, hij]
  have hreply : n.reply = m.reply := by
    simp only [reply, hfault, heffect]
  rw [perform_step n, perform_step m, hreply, heffect]

theorem input_step (m : Machine) : (m.perform .step).2.input = m.effect.onInput m.input := by
  rw [perform_step]
  rfl

/-! ### What an effect changes has been looked at -/

@[simp] theorem effect_cells (m : Machine) :
    m.effect.cells = (m.passing m.checks).flatMap Check.cells := by
  unfold effect
  split
  · next i _ => cases i <;> rfl
  · rfl

@[simp] theorem effect_asks (m : Machine) : m.effect.asks = m.asks := by
  unfold effect
  split
  · next i _ => cases i <;> rfl
  · rfl

theorem decode_of_executed? {i : Instruction} (h : m.executed? = some i) :
    (∀ c ∈ m.checks, c.Holds m) ∧ Instruction.decode m.pc (m.memory.get m.pc) = .ok i := by
  unfold executed? at h
  split at h
  · cases h
  · next hfault =>
      refine ⟨firstFault_eq_none_iff.1 hfault, ?_⟩
      cases hd : Instruction.decode m.pc (m.memory.get m.pc) with
      | ok j =>
          rw [hd] at h
          cases h
          rfl
      | error e =>
          rw [hd] at h
          cases h

/-- The cells that memory is extended to can be had. -/
theorem inRange_of_mem_effect_cells {a : Nat} (h : a ∈ m.effect.cells) : m.memory.InRange a := by
  rw [effect_cells] at h
  exact inRange_of_mem_flatMap_cells (fun c hc => holds_of_mem_passing hc) a h

theorem touched_of_mem_effect_cells {a : Nat} (h : a ∈ m.effect.cells) : a ∈ m.touched := by
  rw [effect_cells] at h
  obtain ⟨c, hc, ha⟩ := List.mem_flatMap.1 h
  exact List.mem_flatMap.2 ⟨c, mem_tried_of_mem_passing hc, ha⟩

/-- A cell that is overwritten is one that memory has been extended to. -/
theorem mem_cells_of_store {a : Nat} {v : Cell} (h : m.effect.store = some (a, v)) :
    a ∈ m.effect.cells := by
  rw [effect_cells]
  unfold effect at h
  split at h
  · next i hi =>
      obtain ⟨hcs, hd⟩ := decode_of_executed? hi
      rw [passing_of_holds hcs, checks_of_decode hd]
      -- only the two kinds of instructions with a destination store anything
      cases i with
      | binary op left right destination =>
          cases h
          simp [instructionChecks, Check.cells]
      | input destination =>
          obtain ⟨w, -, hw⟩ := Option.map_eq_some_iff.1 h
          cases hw
          simp [instructionChecks, Check.cells]
      | output operand => cases h
      | jump test condition target => cases h
      | adjustBase operand => cases h
      | halt => cases h
  · cases h

end Machine

end IntcodeMachine

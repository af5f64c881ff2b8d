/-
**A step depends only on what it looks at.**

Two states from which a step sees the same, that is, with the same registers, the same range of
memory, the same values at the cells that it touches, and the same answer of the input if it asks
for one, make the same step: the answers are the same, and so are the effects.  Since the cells that
a step touches are computed from cells that it has read before, the argument follows the checks of a
step one after the other: as long as the checks have been the same and have held, what the next one
looks at is the same on both sides.

Main definitions:

* `Machine.Agrees` — another state shows what the step from a state looks at;
* `Machine.Follows` — the checks made in the two states are the same.

Main results:

* `Machine.follows_source` — an operand makes the same checks, and has the same value;
* `Machine.Agrees.follows_checks` — the two steps make the same checks;
* `Machine.Agrees.perform_step` — **a step depends only on what it looks at**.
-/

import IntcodeMachine.Proofs.Step.Effect

set_option relaxedAutoImplicit false
set_option autoImplicit false

namespace IntcodeMachine

namespace Machine

/-! ### States that show the same -/

/-- `n` **agrees** with `m` on what the step from `m` looks at. -/
structure Agrees (m n : Machine) : Prop where
  pc : n.pc = m.pc
  relativeBase : n.relativeBase = m.relativeBase
  halted : n.halted = m.halted
  inRange : ∀ a, n.memory.InRange a ↔ m.memory.InRange a
  get : ∀ a ∈ m.touched, n.memory.get a = m.memory.get a
  answer : m.asks = true → n.input.next.map Prod.fst = m.input.next.map Prod.fst

/-- `n` shows at the check `c` what `m` shows. -/
structure Shows (m n : Machine) (c : Check) : Prop where
  get : ∀ a ∈ c.cells, n.memory.get a = m.memory.get a
  answer : c = .input → n.input.next.map Prod.fst = m.input.next.map Prod.fst
  fault? : c.fault? n = c.fault? m

variable {m n : Machine}

theorem Shows.holds_iff {c : Check} (h : Shows m n c) : c.Holds n ↔ c.Holds m := by
  rw [← Check.fault?_eq_none_iff, ← Check.fault?_eq_none_iff, h.fault?]

/-- Where the answer of the input is the same, so is the fault of its absence. -/
theorem fault?_input_of_answer (hpc : n.pc = m.pc)
    (h : n.input.next.map Prod.fst = m.input.next.map Prod.fst) :
    Check.input.fault? n = Check.input.fault? m := by
  cases hm : m.input.next with
  | none =>
      rw [hm, Option.map_none, Option.map_eq_none_iff] at h
      simp only [Check.fault?, hm, h, hpc]
  | some r =>
      rw [hm, Option.map_some, Option.map_eq_some_iff] at h
      obtain ⟨s, hn, -⟩ := h
      simp only [Check.fault?, hm, hn]

/-- Of the checks of a step, all that are made are shown alike. -/
theorem Agrees.shows (h : Agrees m n) : ∀ c ∈ m.tried m.checks, Shows m n c := by
  intro c hc
  have hanswer : c = .input → n.input.next.map Prod.fst = m.input.next.map Prod.fst := by
    rintro rfl
    exact h.answer (decide_eq_true hc)
  refine ⟨fun a ha => h.get a (List.mem_flatMap.2 ⟨c, hc, ha⟩), hanswer, ?_⟩
  cases c with
  | input => exact fault?_input_of_answer h.pc (hanswer rfl)
  | _ => simp only [Check.fault?, h.halted, h.inRange, h.pc]

/-! ### The same checks, one after the other -/

/-- The checks made among `cs` in `m` and among `ds` in `n` are the same, provided that `n` shows
them as `m` does; and `Q` follows if all of them hold. -/
def Follows (m n : Machine) (Q : Prop) (cs ds : List Check) : Prop :=
  (∀ c ∈ m.tried cs, Shows m n c) → n.tried ds = m.tried cs ∧ ((∀ c ∈ cs, c.Holds m) → Q)

theorem follows_nil {Q : Prop} (hQ : Q) : Follows m n Q [] [] :=
  fun _ => ⟨rfl, fun _ => hQ⟩

/-- A check comes first on both sides; what comes after it may rely on what it has shown. -/
theorem follows_cons {Q : Prop} {c : Check} {cs ds : List Check}
    (h : Shows m n c → Follows m n Q cs ds) : Follows m n Q (c :: cs) (c :: ds) := by
  intro hshows
  have hc := hshows c head_mem_tried
  -- if the check fails, nothing that comes after it is looked at
  by_cases hold : c.Holds m
  · have hold' := hc.holds_iff.2 hold
    rw [tried_cons_of_holds hold] at hshows ⊢
    rw [tried_cons_of_holds hold']
    obtain ⟨htried, hQ⟩ := h hc fun d hd => hshows d (List.mem_cons_of_mem c hd)
    exact ⟨by rw [htried], fun hcs => hQ fun d hd => hcs d (List.mem_cons_of_mem c hd)⟩
  · have hold' : ¬c.Holds n := fun hn => hold (hc.holds_iff.1 hn)
    rw [tried_cons_of_not_holds hold, tried_cons_of_not_holds hold']
    exact ⟨rfl, fun hcs => absurd (hcs c List.mem_cons_self) hold⟩

theorem Follows.mono {Q R : Prop} {cs ds : List Check} (h : Follows m n Q cs ds) (hQR : Q → R) :
    Follows m n R cs ds :=
  fun hshows => ⟨(h hshows).1, fun hcs => hQR ((h hshows).2 hcs)⟩

theorem follows_self {Q : Prop} (hQ : Q) (cs : List Check) : Follows m n Q cs cs := by
  induction cs with
  | nil => exact follows_nil hQ
  | cons c cs ih => exact follows_cons fun _ => ih

/-! ### Operands -/

theorem follows_designate (hpc : n.pc = m.pc) (hbase : n.relativeBase = m.relativeBase) {Q : Prop}
    {k : Nat} {p : Place} {cs ds : List Check}
    (hrest : n.address k p = m.address k p → Follows m n Q cs ds) :
    Follows m n Q (m.designateChecks k p ++ cs) (n.designateChecks k p ++ ds) := by
  simp only [designateChecks, hpc, List.cons_append, List.nil_append]
  refine follows_cons fun hoperand => ?_
  have hliteral : n.literal k = m.literal k := by
    rw [literal, literal, hpc]
    exact hoperand.get _ List.mem_cons_self
  have hexact : n.exactAddress k p = m.exactAddress k p := by
    rw [exactAddress, exactAddress, hbase, hliteral]
  rw [hexact]
  refine follows_cons fun _ => hrest ?_
  rw [address, address, hexact]

/-- **An operand makes the same checks**, and what comes after it may rely on its value. -/
theorem follows_source (hpc : n.pc = m.pc) (hbase : n.relativeBase = m.relativeBase) {Q : Prop}
    {k : Nat} {mode : Mode} {cs ds : List Check}
    (hrest : n.value k mode = m.value k mode → Follows m n Q cs ds) :
    Follows m n Q (m.sourceChecks k mode ++ cs) (n.sourceChecks k mode ++ ds) := by
  cases mode with
  | immediate =>
      simp only [sourceChecks, hpc, List.cons_append, List.nil_append]
      refine follows_cons fun hoperand => hrest ?_
      simp only [value, literal, hpc]
      exact hoperand.get _ List.mem_cons_self
  | stored p =>
      simp only [sourceChecks, List.append_assoc]
      refine follows_designate hpc hbase fun haddress => ?_
      rw [haddress]
      refine follows_cons fun hcell => hrest ?_
      simp only [value, haddress]
      exact hcell.get _ List.mem_cons_self

/-- The last operand: nothing comes after it. -/
theorem follows_last_source (hpc : n.pc = m.pc) (hbase : n.relativeBase = m.relativeBase)
    {Q : Prop} {k : Nat} {mode : Mode} (hQ : n.value k mode = m.value k mode → Q) :
    Follows m n Q (m.sourceChecks k mode) (n.sourceChecks k mode) := by
  rw [← List.append_nil (m.sourceChecks k mode), ← List.append_nil (n.sourceChecks k mode)]
  exact follows_source hpc hbase fun hvalue => follows_nil (hQ hvalue)

/-! ### Instructions -/

/-- The two states carry out the instruction `i` alike. -/
def SameChanges (m n : Machine) (i : Instruction) : Prop :=
  ∀ e, n.complete e i = m.complete e i

theorem Agrees.follows_instructionChecks (h : Agrees m n) (i : Instruction) :
    Follows m n (SameChanges m n i) (m.instructionChecks i) (n.instructionChecks i) := by
  cases i with
  | binary op left right destination =>
      simp only [instructionChecks, List.append_assoc]
      refine follows_source h.pc h.relativeBase fun hleft => ?_
      refine follows_source h.pc h.relativeBase fun hright => ?_
      refine follows_designate h.pc h.relativeBase fun haddress => ?_
      rw [hleft, hright, haddress]
      refine follows_self (fun e => ?_) _
      simp only [complete, hleft, hright, haddress]
  | input destination =>
      simp only [instructionChecks, List.append_assoc]
      refine follows_designate h.pc h.relativeBase fun haddress => ?_
      rw [haddress]
      refine follows_cons fun hinput => follows_self (fun e => ?_) _
      simp only [complete, hinput.answer rfl, haddress]
  | output operand =>
      refine follows_last_source h.pc h.relativeBase fun hvalue e => ?_
      simp only [complete, hvalue]
  | jump test condition target =>
      simp only [instructionChecks]
      refine follows_source h.pc h.relativeBase fun hcondition => ?_
      rw [hcondition]
      split
      · next ht =>
          refine follows_source h.pc h.relativeBase fun htarget => ?_
          rw [htarget]
          refine follows_self (fun e => ?_) _
          simp only [complete, hcondition, htarget, past, h.pc]
      · next ht =>
          refine follows_nil fun e => ?_
          simp only [complete, hcondition, if_neg ht, past, h.pc]
  | adjustBase operand =>
      simp only [instructionChecks]
      refine follows_source h.pc h.relativeBase fun hvalue => ?_
      rw [hvalue, h.relativeBase]
      refine follows_self (fun e => ?_) _
      simp only [complete, hvalue, h.relativeBase]
  | halt => exact follows_nil fun e => rfl

/-! ### Steps -/

/-- The two steps make the same checks, and then carry out the same instruction alike. -/
theorem Agrees.follows_checks (h : Agrees m n) :
    Follows m n
      (n.memory.get n.pc = m.memory.get m.pc ∧
        ∀ i, Instruction.decode m.pc (m.memory.get m.pc) = .ok i → SameChanges m n i)
      m.checks n.checks := by
  simp only [checks, wordChecks, h.pc, List.cons_append, List.nil_append]
  refine follows_cons fun _ => follows_cons fun hword => ?_
  have hget : n.memory.get m.pc = m.memory.get m.pc := hword.get _ List.mem_cons_self
  rw [hget]
  refine follows_cons fun _ => ?_
  cases hd : Instruction.decode m.pc (m.memory.get m.pc) with
  | error e => exact follows_nil ⟨rfl, fun i hi => by cases hi⟩
  | ok i =>
      refine (h.follows_instructionChecks i).mono fun hchanges => ⟨rfl, fun j hj => ?_⟩
      cases hj
      exact hchanges

/-- A list of checks that is shown alike has the same first fault and the same passing checks. -/
theorem firstFault_passing_of_shows {cs : List Check} (h : ∀ c ∈ cs, Shows m n c) :
    n.firstFault cs = m.firstFault cs ∧ n.passing cs = m.passing cs := by
  induction cs with
  | nil => exact ⟨rfl, rfl⟩
  | cons c cs ih =>
      have hc := h c List.mem_cons_self
      obtain ⟨hfault, hpassing⟩ := ih fun d hd => h d (List.mem_cons_of_mem c hd)
      constructor
      · rw [firstFault, firstFault, List.findSome?_cons, List.findSome?_cons, hc.fault?]
        split
        · rfl
        · exact hfault
      · by_cases hold : c.Holds m
        · rw [passing_cons_of_holds hold, passing_cons_of_holds (hc.holds_iff.2 hold), hpassing]
        · rw [passing_cons_of_not_holds hold,
            passing_cons_of_not_holds fun hn => hold (hc.holds_iff.1 hn)]

theorem Agrees.tried (h : Agrees m n) : n.tried n.checks = m.tried m.checks :=
  (h.follows_checks h.shows).1

/-- The two steps touch the same cells. -/
theorem Agrees.touched (h : Agrees m n) : n.touched = m.touched := by
  rw [Machine.touched, Machine.touched, h.tried]

theorem Agrees.firstFault (h : Agrees m n) :
    n.firstFault n.checks = m.firstFault m.checks := by
  rw [← firstFault_tried, h.tried, (firstFault_passing_of_shows h.shows).1, firstFault_tried]

theorem Agrees.progress (h : Agrees m n) : n.progress = m.progress := by
  have hpassing : n.passing n.checks = m.passing m.checks := by
    rw [← passing_tried, h.tried, (firstFault_passing_of_shows h.shows).2, passing_tried]
  simp only [Machine.progress, asks, h.tried, hpassing, h.pc, h.relativeBase]

/-- **A step depends only on what it looks at**: the answer is the same, and so is the effect. -/
theorem Agrees.perform_step (h : Agrees m n) :
    n.perform .step = ((m.perform .step).1, m.effect.apply n) := by
  refine perform_step_congr h.firstFault h.progress fun hnone => ?_
  have hold := firstFault_eq_none_iff.1 hnone
  obtain ⟨hget, hchanges⟩ := (h.follows_checks h.shows).2 hold
  obtain ⟨s, m', hstep⟩ := step_ok_of_holds hold
  obtain ⟨i, hd, -⟩ := transition_of_step hstep
  refine ⟨i, i, hd, ?_, hchanges i hd⟩
  rw [hget, h.pc, hd]

end Machine

end IntcodeMachine

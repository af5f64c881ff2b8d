/-
**Operands make their checks.**

`IntcodeMachine.Proofs.Step.Checks` lists the checks of a step without running it.  To show that a
step makes them, each of its actions is given the checks that it makes (`Machine.Makes`), and one
action after another makes the checks of the first and then those of the second
(`Machine.Makes.bind`).  This module does so for the operands.  What carries the argument is that
operands are resolved in a memory that may have grown since the step began but shows the same
values and has the same range (`Machine.Stage`).

Main definitions:

* `Machine.Stage` — a state in which a step finds itself while it resolves its operands;
* `Machine.Makes`, `Machine.Resolves` — an action makes given checks, and has an effect or none.

Main results:

* `Machine.Makes.bind` — **one action after another**;
* `Machine.Stage.reached` — passing checks that hold leads from stage to stage;
* `Machine.resolves_designate`, `Machine.resolves_source` — **an operand makes the checks listed for
  it**, and stands for what it stood for when the step began.
-/

import IntcodeMachine.Machine.Lemmas
import IntcodeMachine.Proofs.Step.Checks

set_option relaxedAutoImplicit false
set_option autoImplicit false

namespace IntcodeMachine

namespace Machine

/-! ### Stages of a step -/

/-- A state of a step from `m`, after `k` cells of the instruction have been passed: memory shows
the same values and has the same range, and base and input are still those of `m`. -/
structure Stage (m : Machine) (k : Nat) (n : Machine) : Prop where
  get : ∀ a, n.memory.get a = m.memory.get a
  inRange : ∀ a, n.memory.InRange a ↔ m.memory.InRange a
  pc : n.pc = m.pc + k
  relativeBase : n.relativeBase = m.relativeBase
  input : n.input = m.input

theorem inRange_of_mem_cells {m : Machine} {c : Check} (h : c.Holds m) :
    ∀ a ∈ c.cells, m.memory.InRange a := by
  intro a ha
  cases c with
  | word b => rwa [List.mem_singleton.1 ha]
  | operand b => rwa [List.mem_singleton.1 ha]
  | cell b => rwa [List.mem_singleton.1 ha]
  | _ => cases ha

theorem inRange_of_mem_flatMap_cells {m : Machine} {cs : List Check} (h : ∀ c ∈ cs, c.Holds m) :
    ∀ a ∈ cs.flatMap Check.cells, m.memory.InRange a := by
  intro a ha
  obtain ⟨c, hc, hac⟩ := List.mem_flatMap.1 ha
  exact inRange_of_mem_cells (h c hc) a hac

/-- Passing further checks that hold leads from stage to stage. -/
theorem Stage.reached {m n : Machine} {k : Nat} {cs : List Check} (h : Stage m k n)
    (hcs : ∀ c ∈ cs, c.Holds m) (hinput : Check.input ∉ cs) :
    Stage m (k + cs.countP Check.moves) (n.reached cs) where
  get a := by rw [reached_memory, Memory.get_cover, h.get]
  inRange a := by
    rw [reached_memory, Memory.inRange_cover _ a, h.inRange]
    intro b hb
    exact (h.inRange b).2 (inRange_of_mem_flatMap_cells hcs b hb)
  pc := by rw [reached_pc, h.pc, Nat.add_assoc]
  relativeBase := by rw [reached_relativeBase, h.relativeBase]
  input := by rw [reached_input hinput, h.input]

/-! ### Making checks -/

/-- The action `x`, started in `n`, **makes the checks** `cs` of the state `m`: either one of them
does not hold, and `x` fails with the first fault, in the state that the checks before it lead to,
or all of them hold, and the result of `x` satisfies `Q`. -/
def Makes {α : Type} (m : Machine) (cs : List Check) (x : Exec α) (n : Machine)
    (Q : α → Machine → Prop) : Prop :=
  match x n with
  | .ok a n' => (∀ c ∈ cs, c.Holds m) ∧ Q a n'
  | .error e n' => m.firstFault cs = some e ∧ n' = n.reached (m.passing cs)

/-- The action `x` makes the checks `cs`, does nothing else, and yields `v`. -/
def Resolves {α : Type} (m : Machine) (cs : List Check) (x : Exec α) (n : Machine) (v : α) : Prop :=
  m.Makes cs x n fun a n' => a = v ∧ n' = n.reached cs

variable {α β : Type} {m n : Machine}

theorem Makes.mono {cs : List Check} {x : Exec α} {Q R : α → Machine → Prop}
    (h : m.Makes cs x n Q) (hQR : ∀ a n', Q a n' → R a n') : m.Makes cs x n R := by
  unfold Makes at h ⊢
  cases hx : x n with
  | ok a n' =>
      rw [hx] at h
      exact ⟨h.1, hQR a n' h.2⟩
  | error e n' =>
      rw [hx] at h
      exact h

theorem makes_nil {x : Exec α} {Q : α → Machine → Prop} {a : α} {n' : Machine}
    (hx : x n = .ok a n') (hQ : Q a n') : m.Makes [] x n Q := by
  unfold Makes
  rw [hx]
  exact ⟨fun c hc => (List.not_mem_nil hc).elim, hQ⟩

/-- A single check. -/
theorem makes_singleton {c : Check} {x : Exec α} {Q : α → Machine → Prop}
    (hok : c.Holds m → ∃ a n', x n = .ok a n' ∧ Q a n')
    (herr : ∀ e, c.fault? m = some e → x n = .error e n) : m.Makes [c] x n Q := by
  unfold Makes
  cases hc : c.fault? m with
  | none =>
      have hold : c.Holds m := Check.fault?_eq_none_iff.1 hc
      obtain ⟨a, n', hx, hQ⟩ := hok hold
      rw [hx]
      exact ⟨fun b hb => List.mem_singleton.1 hb ▸ hold, hQ⟩
  | some e =>
      rw [herr e hc]
      refine ⟨by simp [firstFault, hc], ?_⟩
      simp [passing, Check.not_holds_of_fault? hc]

theorem resolves_singleton {c : Check} {x : Exec α} {v : α}
    (hok : c.Holds m → x n = .ok v (c.advance n))
    (herr : ∀ e, c.fault? m = some e → x n = .error e n) : m.Resolves [c] x n v :=
  makes_singleton (fun hold => ⟨v, _, hok hold, rfl, rfl⟩) herr

/-- Checks that hold may come before those that an action makes, when the action begins in the
state that they lead to. -/
theorem Makes.prepend {x y : Exec α} {cs ds : List Check} {Q : α → Machine → Prop}
    (hcs : ∀ c ∈ cs, c.Holds m) (hxy : x n = y (n.reached cs))
    (hy : m.Makes ds y (n.reached cs) Q) : m.Makes (cs ++ ds) x n Q := by
  unfold Makes at hy ⊢
  rw [hxy]
  cases hr : y (n.reached cs) with
  | ok a n' =>
      rw [hr] at hy
      obtain ⟨hds, hQ⟩ := hy
      refine ⟨fun c hc => ?_, hQ⟩
      exact (List.mem_append.1 hc).elim (hcs c) (hds c)
  | error e n' =>
      rw [hr] at hy
      obtain ⟨hfault, hstate⟩ := hy
      refine ⟨?_, ?_⟩
      · rw [firstFault_append, firstFault_eq_none_iff.2 hcs, Option.none_or, hfault]
      · rw [passing_append_of_holds hcs, reached_append, hstate]

/-- **One action after another** makes the checks of the first and then those of the second. -/
theorem Makes.bind {x : Exec α} {f : α → Exec β} {cs ds : List Check} {v : α}
    {Q : β → Machine → Prop} (hx : m.Resolves cs x n v)
    (hf : (∀ c ∈ cs, c.Holds m) → m.Makes ds (f v) (n.reached cs) Q) :
    m.Makes (cs ++ ds) (x >>= f) n Q := by
  unfold Resolves Makes at hx
  cases hr : x n with
  | ok a n' =>
      rw [hr] at hx
      obtain ⟨hcs, rfl, rfl⟩ := hx
      exact Makes.prepend hcs (bind_of_ok hr) (hf hcs)
  | error e n' =>
      rw [hr] at hx
      obtain ⟨hfault, hstate⟩ := hx
      -- the checks of the second action are not reached
      unfold Makes
      rw [bind_of_error hr]
      exact ⟨by rw [firstFault_append, hfault, Option.some_or],
        by rw [passing_append_of_fault hfault, hstate]⟩

theorem Resolves.bind {x : Exec α} {f : α → Exec β} {cs ds : List Check} {v : α} {w : β}
    (hx : m.Resolves cs x n v)
    (hf : (∀ c ∈ cs, c.Holds m) → m.Resolves ds (f v) (n.reached cs) w) :
    m.Resolves (cs ++ ds) (x >>= f) n w := by
  unfold Resolves
  refine Makes.bind hx fun hcs => ?_
  rw [reached_append]
  exact hf hcs

/-- An action that yields a value has passed its checks, and done nothing else. -/
theorem Resolves.of_ok {x : Exec α} {cs : List Check} {n' : Machine} {v w : α}
    (h : m.Resolves cs x n v) (hx : x n = .ok w n') :
    (∀ c ∈ cs, c.Holds m) ∧ w = v ∧ n' = n.reached cs := by
  unfold Resolves Makes at h
  rwa [hx] at h

theorem makes_base {f : Cell → Exec β} {cs : List Check} {Q : β → Machine → Prop}
    (h : n.relativeBase = m.relativeBase) (hf : m.Makes cs (f m.relativeBase) n Q) :
    m.Makes cs (base >>= f) n Q := by
  unfold Makes at hf ⊢
  rwa [bind_of_ok (show base n = .ok m.relativeBase n from by rw [base, h])]

/-! ### Operands -/

/-- Whatever is the address of the exact integer `z` makes the check of `z`. -/
theorem resolves_address {z : Int} {r : Except Fault Nat}
    (hok : Cell.Fits z → r = Address.ofCell (Int64.ofInt z))
    (herr : ¬Cell.Fits z → r = .error (.overflow m.pc)) :
    m.Resolves [.address z] (ofExcept r) n z.toNat := by
  refine resolves_singleton ?_ ?_
  · rintro ⟨hfits, hz⟩
    rw [hok hfits, Address.ofCell_eq, Cell.toInt_ofInt_of_fits hfits, if_pos hz]
    rfl
  · intro e he
    rcases Check.fault?_address he with ⟨hfits, rfl⟩ | ⟨hfits, hz, rfl⟩
    · rw [herr hfits]
      rfl
    · rw [hok hfits, Address.ofCell_eq, Cell.toInt_ofInt_of_fits hfits, if_neg (Int.not_le.2 hz)]
      rfl

theorem resolves_ofCell (v : Cell) :
    m.Resolves [.address v.toInt] (ofExcept (Address.ofCell v)) n v.toInt.toNat := by
  refine resolves_address (fun _ => ?_) fun h => absurd (Cell.fits_toInt v) h
  rw [Int64.ofInt_toInt]

theorem resolves_place (p : Place) (base literal : Cell) :
    m.Resolves [.address (p.exact base literal)] (ofExcept (p.address base literal m.pc)) n
      (p.exact base literal).toNat := by
  cases p with
  | position => exact resolves_ofCell literal
  | relative =>
      have hadd : Cell.add? base literal = Cell.ofInt? (base.toInt + literal.toInt) := rfl
      refine resolves_address (fun hfits => ?_) fun hfits => ?_
      · simp only [Place.exact] at hfits
        simp only [Place.address, Address.offset, hadd, Cell.ofInt?, if_pos hfits]
        rfl
      · simp only [Place.exact] at hfits
        simp only [Place.address, Address.offset, hadd, Cell.ofInt?, if_neg hfits]

theorem resolves_fetch {k : Nat} (h : Stage m k n) :
    m.Resolves [.operand (m.pc + k)] fetch n (m.literal k) := by
  have hlit : n.memory.get n.pc = m.literal k := by rw [h.get, h.pc]; rfl
  refine resolves_singleton (fun hold => ?_) fun e he => ?_
  · have hr : n.memory.InRange n.pc := by rw [h.inRange, h.pc]; exact hold
    rw [fetch_of_inRange hr, hlit, advance, h.pc]
    simp only [Check.advance, h.pc]
  · obtain ⟨hr, rfl⟩ := Check.fault?_of_mem_cells List.mem_cons_self he
    have hr : ¬n.memory.InRange n.pc := by rwa [h.inRange, h.pc]
    rw [fetch_of_not_inRange hr, h.pc]

theorem resolves_read {k a : Nat} (h : Stage m k n) :
    m.Resolves [.cell a] (onMemory (Memory.read a)) n (m.memory.get a) := by
  refine resolves_singleton (fun hold => ?_) fun e he => ?_
  · rw [onMemory_read_of_inRange ((h.inRange a).2 hold), h.get]
    rfl
  · obtain ⟨hr, rfl⟩ := Check.fault?_of_mem_cells List.mem_cons_self he
    rw [onMemory_read_of_not_inRange fun hn => hr ((h.inRange a).1 hn)]

/-- An operand that designates an address makes the checks listed for it. -/
theorem resolves_designate {k : Nat} (p : Place) (h : Stage m k n) :
    m.Resolves (m.designateChecks k p) (designate m.pc p) n (m.address k p) := by
  refine Resolves.bind (resolves_fetch h) fun _ => ?_
  refine makes_base (by rw [reached_relativeBase, h.relativeBase]) ?_
  exact resolves_place p m.relativeBase (m.literal k)

/-- An operand that is read makes the checks listed for it. -/
theorem resolves_source {k : Nat} (mode : Mode) (h : Stage m k n) :
    m.Resolves (m.sourceChecks k mode) (source m.pc mode) n (m.value k mode) := by
  cases mode with
  | immediate => exact resolves_fetch h
  | stored p =>
      refine Resolves.bind (resolves_designate p h) fun hcs => ?_
      exact resolves_read (h.reached hcs (by simp [designateChecks]))

/-! ### From one operand to the next -/

@[simp] theorem countP_designateChecks (k : Nat) (p : Place) :
    (m.designateChecks k p).countP Check.moves = 1 := rfl

@[simp] theorem countP_sourceChecks (k : Nat) (mode : Mode) :
    (m.sourceChecks k mode).countP Check.moves = 1 := by
  cases mode <;> rfl

theorem input_notMem_designateChecks (k : Nat) (p : Place) :
    Check.input ∉ m.designateChecks k p := by
  simp [designateChecks]

theorem input_notMem_sourceChecks (k : Nat) (mode : Mode) :
    Check.input ∉ m.sourceChecks k mode := by
  cases mode <;> simp [sourceChecks, designateChecks]

theorem Stage.designate {k : Nat} {p : Place} (h : Stage m k n)
    (hcs : ∀ c ∈ m.designateChecks k p, c.Holds m) :
    Stage m (k + 1) (n.reached (m.designateChecks k p)) :=
  h.reached hcs (input_notMem_designateChecks k p)

theorem Stage.source {k : Nat} {mode : Mode} (h : Stage m k n)
    (hcs : ∀ c ∈ m.sourceChecks k mode, c.Holds m) :
    Stage m (k + 1) (n.reached (m.sourceChecks k mode)) := by
  have h' := h.reached hcs (input_notMem_sourceChecks k mode)
  rwa [countP_sourceChecks] at h'

theorem stage_advance (hr : m.memory.InRange m.pc) : Stage m 1 m.advance where
  get a := by rw [advance_memory, Memory.get_extend]
  inRange a := by rw [advance_memory, Memory.inRange_extend hr]
  pc := rfl
  relativeBase := rfl
  input := rfl

end Machine

end IntcodeMachine

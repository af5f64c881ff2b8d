/-
**The cells that a run does not touch.**

A run depends only on the cells that it touches.  Code and data share one memory, so the cells that
a step touches are themselves found by reading cells; but a cell that is not among those of the
first `n` steps has no part in them.  Its value may be replaced by any other: the answers stay the
same, and after each step the two states differ in this one cell, which nobody has written to.

Main definitions:

* `Machine.overwrite` — a state with another value in one cell;
* `Machine.SameBut` — two states are the same but for one cell, whatever it holds;
* `Machine.DiffersAt` — the same, with the two values that the cell holds.

Main results:

* `Machine.SameBut.apply` — **one effect on two states** that are the same but for a cell leaves two
  such states, also if it overwrites the cell;
* `Machine.SameBut.step` — a step that does not touch the cell does not tell the states apart;
* `Machine.DiffersAt.step` — such a step keeps the difference as it is;
* `Machine.untouched_cell` — **a run depends only on the cells it touches**.
-/

import IntcodeMachine.Proofs.Step.Dependence

set_option relaxedAutoImplicit false
set_option autoImplicit false

namespace IntcodeMachine

namespace Machine

/-- The state with the value `v` in the cell `a`. -/
def overwrite (a : Nat) (v : Cell) (m : Machine) : Machine :=
  { m with memory := m.memory.set a v }

/-! ### States that are the same but for one cell -/

/-- Two states are **the same but for** the cell `a`: at most its value is different. -/
structure SameBut (a : Nat) (m n : Machine) : Prop where
  pc : n.pc = m.pc
  relativeBase : n.relativeBase = m.relativeBase
  input : n.input = m.input
  output : n.output = m.output
  halted : n.halted = m.halted
  size : n.memory.size = m.memory.size
  get : ∀ b, b ≠ a → n.memory.get b = m.memory.get b

variable {m n : Machine} {a : Nat} {u v : Cell}

theorem sameBut_overwrite (h : a < m.memory.size) (v : Cell) : SameBut a m (m.overwrite a v) where
  pc := rfl
  relativeBase := rfl
  input := rfl
  output := rfl
  halted := rfl
  size := by
    simp only [overwrite, Memory.size_set]
    omega
  get := fun _ hb => Memory.get_set_of_ne _ v hb

theorem SameBut.inRange_iff (h : SameBut a m n) (b : Nat) :
    n.memory.InRange b ↔ m.memory.InRange b := by
  rw [Memory.InRange, Memory.InRange, h.size]

/-- The cell has no part in whether a check holds. -/
theorem SameBut.fault? (h : SameBut a m n) (c : Check) : c.fault? n = c.fault? m := by
  cases c <;> simp only [Check.fault?, h.halted, h.inRange_iff, h.pc, h.input]

/-- A step that does not touch the cell sees the same in both states. -/
theorem SameBut.agrees (h : SameBut a m n) (ha : a ∉ m.touched) : Agrees m n where
  pc := h.pc
  relativeBase := h.relativeBase
  halted := h.halted
  inRange := h.inRange_iff
  get := by
    intro b hb
    exact h.get b fun hab => ha (hab ▸ hb)
  answer := fun _ => by rw [h.input]

theorem SameBut.onCells (h : SameBut a m n) (e : Effect) :
    (e.onCells n.memory).size = (e.onCells m.memory).size ∧
      ∀ b, b ≠ a → (e.onCells n.memory).get b = (e.onCells m.memory).get b := by
  have hsize := Memory.size_cover_congr h.size e.cells
  unfold Effect.onCells
  split
  · next c w hstore =>
      refine ⟨?_, fun b hb => ?_⟩
      · rw [Memory.size_set, Memory.size_set, hsize]
      · rw [Memory.get_set, Memory.get_set, Memory.get_cover, Memory.get_cover, h.get b hb]
  · refine ⟨hsize, fun b hb => ?_⟩
    rw [Memory.get_cover, Memory.get_cover, h.get b hb]

/-- **One effect on two states** that are the same but for a cell leaves two such states. -/
theorem SameBut.apply (h : SameBut a m n) (e : Effect) : SameBut a (e.apply m) (e.apply n) where
  pc := rfl
  relativeBase := rfl
  input := by simp only [Effect.apply, h.input]
  output := by simp only [Effect.apply, h.output]
  halted := by simp only [Effect.apply, h.halted]
  size := (h.onCells e).1
  get := (h.onCells e).2

/-- A step overwrites no cell that it does not touch. -/
theorem store_ne_of_untouched (ha : a ∉ m.touched) :
    ∀ b w, m.effect.store = some (b, w) → b ≠ a := by
  rintro b w hb rfl
  exact ha (touched_of_mem_effect_cells (mem_cells_of_store hb))

theorem get_step_of_untouched (ha : a ∉ m.touched) :
    (m.perform .step).2.memory.get a = m.memory.get a := by
  rw [perform_step]
  exact Effect.get_onCells (store_ne_of_untouched ha)

/-- **A step that does not touch the cell** does not tell the two states apart. -/
theorem SameBut.step (h : SameBut a m n) (ha : a ∉ m.touched) :
    (m.perform .step).1 = (n.perform .step).1 ∧
      SameBut a (m.perform .step).2 (n.perform .step).2 := by
  rw [(h.agrees ha).perform_step, perform_step]
  exact ⟨rfl, h.apply m.effect⟩

/-! ### States that differ at a cell -/

/-- Two states **differ at** the cell `a` and nowhere else: it holds `u` in the one and `v` in the
other. -/
structure DiffersAt (a : Nat) (u v : Cell) (m n : Machine) : Prop where
  lt_size : a < m.memory.size
  get_left : m.memory.get a = u
  get_right : n.memory.get a = v
  eq_overwrite : n = m.overwrite a v

theorem differsAt_overwrite (h : a < m.memory.size) (v : Cell) :
    DiffersAt a (m.memory.get a) v m (m.overwrite a v) where
  lt_size := h
  get_left := rfl
  get_right := Memory.get_set_self _ _ _
  eq_overwrite := rfl

/-- A step that does not touch the cell sees the same in both states. -/
theorem DiffersAt.agrees (h : DiffersAt a u v m n) (ha : a ∉ m.touched) : Agrees m n := by
  obtain ⟨hlt, -, -, rfl⟩ := h
  exact (sameBut_overwrite hlt v).agrees ha

/-- **A step that does not touch the cell** gives the same answer, and leaves the two values where
they were. -/
theorem DiffersAt.step (h : DiffersAt a u v m n) (ha : a ∉ m.touched) :
    (m.perform .step).1 = (n.perform .step).1 ∧
      DiffersAt a u v (m.perform .step).2 (n.perform .step).2 := by
  have hstore := store_ne_of_untouched ha
  have hn := (h.agrees ha).perform_step
  obtain ⟨hlt, hleft, -, rfl⟩ := h
  rw [hn]
  refine ⟨rfl, ?_⟩
  rw [perform_step]
  exact {
    lt_size := Nat.lt_of_lt_of_le hlt (m.effect.size_le_size_onCells m.memory)
    get_left := by
      rw [← hleft]
      exact Effect.get_onCells hstore
    get_right := by
      simp only [Effect.apply, overwrite, Effect.onCells_set hstore]
      exact Memory.get_set_self _ _ _
    eq_overwrite := by simp only [Effect.apply, overwrite, Effect.onCells_set hstore] }

/-- What `n` steps do to a difference at a cell that none of them touches. -/
theorem DiffersAt.steps (h : DiffersAt a u v m n) {k : Nat}
    (ha : ∀ s ∈ m.starts k, a ∉ s.touched) :
    List.Forall₂ (fun x y => x.1 = y.1 ∧ DiffersAt a u v x.2 y.2)
      (m.history (List.replicate k .step)) (n.history (List.replicate k .step)) := by
  induction k generalizing m n with
  | zero => exact .nil
  | succ k ih =>
      obtain ⟨hreply, hstep⟩ := h.step (ha m List.mem_cons_self)
      have hrest := ih hstep fun s hs => ha s (List.mem_cons_of_mem m hs)
      exact .cons ⟨hreply, hstep⟩ hrest

/-- **A run depends only on the cells it touches**: the value of a cell that the first `n` steps do
not touch may be replaced by any other.  The answers are the same, faults included, and after each
step the two states differ at this cell only, which holds in each of them what it held at first. -/
theorem untouched_cell {m : Machine} {a n : Nat} (ha : a < m.memory.size)
    (hfree : ∀ s ∈ m.starts n, a ∉ s.touched) (v : Cell) :
    List.Forall₂ (fun x y => x.1 = y.1 ∧ DiffersAt a (m.memory.get a) v x.2 y.2)
      (m.history (List.replicate n .step))
      ((m.overwrite a v).history (List.replicate n .step)) :=
  (differsAt_overwrite ha v).steps hfree

/-- A jump that is not taken passes over its target, which is no address: the target may be any
value, up to the halt and the refusal after it. -/
theorem untouched_cell_jump_target :
    (history { memory := ⟨#[1106, 5, -7, 4, 0, 99]⟩, input := .queue [] }
        (List.replicate 4 .step)).map Prod.fst =
        [.status .running, .status .running, .status .halted, .fault .alreadyHalted] ∧
      List.Forall₂ (fun x y => x.1 = y.1 ∧ DiffersAt 2 (-7) 8 x.2 y.2)
        (history { memory := ⟨#[1106, 5, -7, 4, 0, 99]⟩, input := .queue [] }
          (List.replicate 4 .step))
        (history { memory := ⟨#[1106, 5, 8, 4, 0, 99]⟩, input := .queue [] }
          (List.replicate 4 .step)) := by
  refine ⟨rfl, ?_⟩
  exact untouched_cell (m := { memory := ⟨#[1106, 5, -7, 4, 0, 99]⟩, input := .queue [] })
    (by decide) (by decide +kernel) 8

end Machine

end IntcodeMachine

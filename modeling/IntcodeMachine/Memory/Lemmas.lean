/-
**What the operations do to memory.**

A memory is determined by its size and by the value at each address.  This module says what growth
and writing do to these two, so that nothing later needs to look into the array of cells.

Main results:

* `Memory.ext_get` — memories of the same size with the same values are the same;
* `Memory.size_extend`, `Memory.get_extend` — growth reaches the address and **changes no value**;
* `Memory.size_set`, `Memory.get_set` — a write grows likewise and changes one value;
* `Memory.inRange_extend`, `Memory.inRange_set` — growth within the range keeps the range.
-/

import IntcodeMachine.Memory.Basic

set_option relaxedAutoImplicit false
set_option autoImplicit false

namespace IntcodeMachine

namespace Memory

theorem get_of_size_le {m : Memory} {a : Nat} (h : m.size ≤ a) : m.get a = 0 := by
  simp only [get, size] at *
  simp [Array.getD, Nat.not_lt.2 h]

theorem get_eq_getElem {m : Memory} {a : Nat} (h : a < m.cells.size) :
    m.get a = m.cells[a] := by
  simp [get, Array.getD, h]

/-- Memories of the same size with the same value at each address are the same. -/
theorem ext_get {m n : Memory} (hsize : m.size = n.size) (hget : ∀ a, m.get a = n.get a) :
    m = n := by
  obtain ⟨cells⟩ := m
  obtain ⟨cells'⟩ := n
  congr 1
  refine Array.ext hsize fun a ha ha' => ?_
  have h := hget a
  rwa [get_eq_getElem ha, get_eq_getElem ha'] at h

/-! ### Growth -/

theorem extend_of_lt {m : Memory} {a : Nat} (h : a < m.size) : m.extend a = m := by
  simp [extend, h]

@[simp] theorem size_extend (m : Memory) (a : Nat) :
    (m.extend a).size = max m.size (a + 1) := by
  unfold extend
  split
  · omega
  · simp only [size, Array.size_append, Array.size_replicate] at *
    omega

@[simp] theorem get_extend (m : Memory) (a b : Nat) : (m.extend a).get b = m.get b := by
  unfold extend
  split
  · rfl
  · simp only [get, Array.getD_eq_getD_getElem?]
    by_cases hb : b < m.cells.size
    · rw [Array.getElem?_append_left hb]
    · -- past the end both sides are zero, whether or not the address was added
      have hb := Nat.le_of_not_lt hb
      rw [Array.getElem?_append_right hb, Array.getElem?_replicate, Array.getElem?_eq_none hb]
      split <;> rfl

/-- Growing to an address already present changes nothing. -/
@[simp] theorem extend_extend_self (m : Memory) (a : Nat) :
    (m.extend a).extend a = m.extend a :=
  extend_of_lt (by simp only [size_extend]; omega)

/-! ### Writing -/

@[simp] theorem size_set (m : Memory) (a : Nat) (v : Cell) :
    (m.set a v).size = max m.size (a + 1) := by
  rw [← size_extend]
  simp [set, size]

theorem get_set (m : Memory) (a b : Nat) (v : Cell) :
    (m.set a v).get b = if b = a then v else m.get b := by
  have ha : a < (m.extend a).cells.size := by
    have h := size_extend m a
    simp only [size] at h
    omega
  rw [← get_extend m a b]
  simp only [set, get, Array.getD_eq_getD_getElem?, Array.getElem?_setIfInBounds]
  by_cases h : a = b
  · subst h
    simp [ha]
  · simp [h, Ne.symm h]

@[simp] theorem get_set_self (m : Memory) (a : Nat) (v : Cell) : (m.set a v).get a = v := by
  simp [get_set]

theorem get_set_of_ne (m : Memory) {a b : Nat} (v : Cell) (h : b ≠ a) :
    (m.set a v).get b = m.get b := by
  simp [get_set, h]

/-! ### The range -/

theorem inRange_extend {m : Memory} {a b : Nat} (ha : m.InRange a) :
    (m.extend a).InRange b ↔ m.InRange b := by
  simp only [InRange, size_extend] at *
  omega

theorem inRange_set {m : Memory} {a b : Nat} {v : Cell} (ha : m.InRange a) :
    (m.set a v).InRange b ↔ m.InRange b := by
  simp only [InRange, size_set] at *
  omega

end Memory

end IntcodeMachine

/-
**Growth of memory.**

Every access to memory may make it longer, and never otherwise disturbs it.  This module names the
relation that results, `Memory.GrowsTo`: the cells of the second memory are those of the first,
followed by zeros.  Through the view `Memory.get` it is seen only in the size, which is what makes
growth invisible to a program.

Main definitions:

* `Memory.GrowsTo` — one memory is another one followed by zeros;
* `Memory.cover` — memory extended to have each of several addresses.

Main results:

* `Memory.growsTo_iff` — **growth changes the size and no value**;
* `Memory.GrowsTo.extend_extend`, `Memory.GrowsTo.set_set` — the same access, made on both sides,
  keeps the relation;
* `Memory.growsTo_cover`, `Memory.inRange_cover` — covering addresses in range is growth, and keeps
  the range.
-/

import IntcodeMachine.Memory.Lemmas

set_option relaxedAutoImplicit false
set_option autoImplicit false

namespace IntcodeMachine

namespace Memory

/-! ### The relation -/

/-- `m` **grows to** `n` when the cells of `n` are those of `m` followed by zeros. -/
def GrowsTo (m n : Memory) : Prop := ∃ k, n.cells = m.cells ++ Array.replicate k 0

/-- **Growth changes the size and no value.** -/
theorem growsTo_iff {m n : Memory} :
    m.GrowsTo n ↔ m.size ≤ n.size ∧ ∀ a, n.get a = m.get a := by
  constructor
  · rintro ⟨k, hk⟩
    have hn : n = ⟨m.cells ++ Array.replicate k 0⟩ := by
      obtain ⟨cells⟩ := n
      exact congrArg Memory.mk hk
    subst hn
    refine ⟨by simp [size], fun a => ?_⟩
    simp only [get, Array.getD_eq_getD_getElem?]
    by_cases ha : a < m.cells.size
    · rw [Array.getElem?_append_left ha]
    · -- past the end of `m` the one reads an added zero, or nothing, and the other nothing
      have ha := Nat.le_of_not_lt ha
      rw [Array.getElem?_append_right ha, Array.getElem?_replicate, Array.getElem?_eq_none ha]
      split <;> rfl
  · rintro ⟨hsize, hget⟩
    refine ⟨n.size - m.size, Array.ext ?_ fun a ha _ => ?_⟩
    · simp only [size, Array.size_append, Array.size_replicate] at *
      omega
    · rw [← get_eq_getElem ha, hget, Array.getElem_append]
      split
      · next h => exact get_eq_getElem h
      · next h => rw [get_of_size_le (Nat.le_of_not_lt h), Array.getElem_replicate]

theorem GrowsTo.size_le {m n : Memory} (h : m.GrowsTo n) : m.size ≤ n.size := (growsTo_iff.1 h).1

theorem GrowsTo.get_eq {m n : Memory} (h : m.GrowsTo n) (a : Nat) : n.get a = m.get a :=
  (growsTo_iff.1 h).2 a

/-- The same growth on both sides keeps the relation. -/
theorem GrowsTo.extend_extend {m n : Memory} (h : m.GrowsTo n) (a : Nat) :
    (m.extend a).GrowsTo (n.extend a) := by
  have hsize := h.size_le
  refine growsTo_iff.2 ⟨?_, fun b => ?_⟩
  · rw [size_extend, size_extend]
    omega
  · rw [get_extend, get_extend, h.get_eq]

/-- The same write on both sides keeps the relation. -/
theorem GrowsTo.set_set {m n : Memory} (h : m.GrowsTo n) (a : Nat) (v : Cell) :
    (m.set a v).GrowsTo (n.set a v) := by
  have hsize := h.size_le
  refine growsTo_iff.2 ⟨?_, fun b => ?_⟩
  · rw [size_set, size_set]
    omega
  · rw [get_set, get_set, h.get_eq]

/-- A write reaches its address by itself, so that growth to it beforehand makes no difference. -/
theorem set_extend_self (m : Memory) (a : Nat) (v : Cell) : (m.extend a).set a v = m.set a v := by
  refine ext_get ?_ fun b => ?_
  · rw [size_set, size_set, size_extend]
    omega
  · rw [get_set, get_set, get_extend]

/-- A write and growth may change places. -/
theorem extend_set (m : Memory) (a b : Nat) (v : Cell) :
    (m.set a v).extend b = (m.extend b).set a v := by
  refine ext_get ?_ fun c => ?_
  · rw [size_extend, size_set, size_set, size_extend]
    omega
  · rw [get_extend, get_set, get_set, get_extend]

/-- Writes at different addresses may change places. -/
theorem set_comm (m : Memory) {a b : Nat} (v w : Cell) (h : a ≠ b) :
    (m.set a v).set b w = (m.set b w).set a v := by
  refine ext_get ?_ fun c => ?_
  · simp only [size_set]
    omega
  · simp only [get_set]
    by_cases hb : c = b
    · have ha : c ≠ a := fun ha => h (ha.symm.trans hb)
      rw [if_pos hb, if_neg ha, if_pos hb]
    · rw [if_neg hb, if_neg hb]

/-! ### Covering several addresses -/

/-- Memory extended to have each of the addresses. -/
def cover (m : Memory) (as : List Nat) : Memory := as.foldl extend m

@[simp] theorem cover_nil (m : Memory) : m.cover [] = m := rfl

@[simp] theorem cover_cons (m : Memory) (a : Nat) (as : List Nat) :
    m.cover (a :: as) = (m.extend a).cover as := rfl

theorem cover_append (m : Memory) (as bs : List Nat) :
    m.cover (as ++ bs) = (m.cover as).cover bs :=
  List.foldl_append

@[simp] theorem get_cover (m : Memory) (as : List Nat) (b : Nat) :
    (m.cover as).get b = m.get b := by
  induction as generalizing m with
  | nil => rfl
  | cons a as ih => rw [cover_cons, ih, get_extend]

/-- A write and the covering of addresses may change places. -/
theorem cover_set (m : Memory) (a : Nat) (v : Cell) (as : List Nat) :
    (m.set a v).cover as = (m.cover as).set a v := by
  induction as generalizing m with
  | nil => rfl
  | cons b as ih => rw [cover_cons, extend_set, ih, cover_cons]

theorem size_le_size_cover (m : Memory) (as : List Nat) : m.size ≤ (m.cover as).size := by
  induction as generalizing m with
  | nil => exact Nat.le_refl _
  | cons a as ih =>
      have h := ih (m.extend a)
      rw [size_extend] at h
      rw [cover_cons]
      omega

/-- How far covering reaches depends on the size alone. -/
theorem size_cover_congr {m n : Memory} (h : n.size = m.size) (as : List Nat) :
    (n.cover as).size = (m.cover as).size := by
  induction as generalizing m n with
  | nil => exact h
  | cons a as ih =>
      rw [cover_cons, cover_cons]
      refine ih ?_
      rw [size_extend, size_extend, h]

/-- Covering addresses below a bound stays within it. -/
theorem size_cover_le_of_lt {m : Memory} {as : List Nat} {n : Nat} (hm : m.size ≤ n)
    (has : ∀ a ∈ as, a < n) : (m.cover as).size ≤ n := by
  induction as generalizing m with
  | nil => exact hm
  | cons a as ih =>
      have ha := has a List.mem_cons_self
      refine ih ?_ fun b hb => has b (List.mem_cons_of_mem a hb)
      rw [size_extend]
      omega

/-- Covering addresses in range stays within the range. -/
theorem size_cover_le {m : Memory} {as : List Nat} (h : ∀ a ∈ as, m.InRange a) :
    (m.cover as).size ≤ max m.size maxCells :=
  size_cover_le_of_lt (Nat.le_max_left _ _) h

/-- Covering addresses is growth. -/
theorem growsTo_cover (m : Memory) (as : List Nat) : m.GrowsTo (m.cover as) :=
  growsTo_iff.2 ⟨size_le_size_cover m as, get_cover m as⟩

/-- Covering addresses in range keeps the range. -/
theorem inRange_cover {m : Memory} {as : List Nat} (h : ∀ a ∈ as, m.InRange a) (b : Nat) :
    (m.cover as).InRange b ↔ m.InRange b := by
  induction as generalizing m with
  | nil => exact Iff.rfl
  | cons a as ih =>
      have ha : m.InRange a := h a List.mem_cons_self
      rw [cover_cons, ih fun c hc => (inRange_extend ha).2 (h c (List.mem_cons_of_mem a hc)),
        inRange_extend ha]

end Memory

end IntcodeMachine

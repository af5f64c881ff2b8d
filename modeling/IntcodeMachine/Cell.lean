/-
**Cells.**

A cell is the unit of memory and of arithmetic: a signed integer of 64 bits.  Arithmetic on cells
never wraps.  A sum or a product is formed exactly, over the integers, and is a cell only when it
lies in the range of the word; otherwise there is no result.

Main definitions:

* `Cell` — the 64-bit word;
* `Cell.Fits` — the integers in the range of a cell;
* `Cell.ofInt?` — the cell that holds a given integer, when there is one;
* `Cell.add?`, `Cell.mul?` — exact sum and product;
* `Cell.ofBool` — the cell that records a comparison;
* `Cell.text` — the decimal text of a cell.

Main results:

* `Cell.ofInt?_eq_some_iff` — **a cell is found exactly when it holds the integer asked for**;
* `Cell.ofInt?_eq_none_iff` — there is none exactly when the integer does not fit.
-/

set_option relaxedAutoImplicit false
set_option autoImplicit false

namespace IntcodeMachine

/-- A **cell**: a signed word of 64 bits. -/
abbrev Cell := Int64

namespace Cell

/-! ### Exact arithmetic -/

/-- An integer **fits** when it lies in the range of a cell: from the negative of the 63rd power
of two up to that power, which itself no longer fits. -/
def Fits (n : Int) : Prop := -9223372036854775808 ≤ n ∧ n < 9223372036854775808

instance (n : Int) : Decidable (Fits n) :=
  inferInstanceAs (Decidable (-9223372036854775808 ≤ n ∧ n < 9223372036854775808))

/-- The cell that holds the integer `n`, if `n` fits. -/
def ofInt? (n : Int) : Option Cell := if Fits n then some (Int64.ofInt n) else none

/-- The exact sum of two cells, if it is a cell. -/
def add? (a b : Cell) : Option Cell := ofInt? (a.toInt + b.toInt)

/-- The exact product of two cells, if it is a cell. -/
def mul? (a b : Cell) : Option Cell := ofInt? (a.toInt * b.toInt)

/-- The cell that records the outcome of a comparison: one for true and zero for false. -/
def ofBool (b : Bool) : Cell := if b then 1 else 0

/-- The decimal text of a cell, with a minus sign in front of a negative value. -/
def text (a : Cell) : String := toString a.toInt

/-- Every cell holds an integer that fits. -/
theorem fits_toInt (a : Cell) : Fits a.toInt := ⟨a.le_toInt, a.toInt_lt⟩

theorem toInt_ofInt_of_fits {n : Int} (h : Fits n) : (Int64.ofInt n).toInt = n :=
  Int64.toInt_ofInt_of_le h.1 h.2

/-- **A cell is found exactly when it holds the integer asked for.** -/
theorem ofInt?_eq_some_iff {n : Int} {a : Cell} : ofInt? n = some a ↔ a.toInt = n := by
  unfold ofInt?
  constructor
  · intro h
    split at h
    · next hr =>
        cases h
        exact toInt_ofInt_of_fits hr
    · cases h
  · rintro rfl
    rw [if_pos (fits_toInt a), Int64.ofInt_toInt]

/-- There is no cell exactly when the integer does not fit. -/
theorem ofInt?_eq_none_iff {n : Int} : ofInt? n = none ↔ ¬Fits n := by
  unfold ofInt?
  split <;> simp_all

@[simp] theorem ofInt?_toInt (a : Cell) : ofInt? a.toInt = some a :=
  ofInt?_eq_some_iff.2 rfl

theorem add?_eq_some_iff {a b c : Cell} : add? a b = some c ↔ c.toInt = a.toInt + b.toInt :=
  ofInt?_eq_some_iff

theorem mul?_eq_some_iff {a b c : Cell} : mul? a b = some c ↔ c.toInt = a.toInt * b.toInt :=
  ofInt?_eq_some_iff

@[simp] theorem ofBool_true : ofBool true = 1 := rfl

@[simp] theorem ofBool_false : ofBool false = 0 := rfl

end Cell

end IntcodeMachine

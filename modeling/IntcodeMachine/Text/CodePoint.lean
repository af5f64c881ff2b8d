/-
**Text as code points.**

A program reads and writes text one character at a time, each character as the cell that holds its
code point.  Every character has a code point; a cell is the code point of a character when it is a
Unicode scalar value, that is, not negative, below `0x110000` and no surrogate.

Main definitions:

* `Cell.ofChar`, `Cell.toChar?` — from a character to its cell and back;
* `Text.encodeLine` — the cells of a line of text, with a line feed after it;
* `Text.encodeLines` — the cells of several lines;
* `Text.decode` — **the text of a list of cells**, or the first cell that is no character.

Main results:

* `Cell.toChar?_ofChar` — every character is read back from its cell;
* `Cell.toChar?_eq_some_iff` — and only from that cell.
-/

import IntcodeMachine.Fault

set_option relaxedAutoImplicit false
set_option autoImplicit false

namespace IntcodeMachine

namespace Cell

/-- The cell that holds the code point of a character. -/
def ofChar (c : Char) : Cell := Int64.ofNat c.toNat

/-- The character whose code point a cell holds, if there is one. -/
def toChar? (a : Cell) : Option Char :=
  if 0 ≤ a.toInt ∧ a.toInt.toNat.isValidChar then some (Char.ofNat a.toInt.toNat) else none

/-- The character whose code point a cell holds; any other cell is a fault. -/
def toChar (a : Cell) : Except Fault Char :=
  match toChar? a with
  | some c => .ok c
  | none => .error (.notACharacter a)

private theorem toNat_lt (c : Char) : c.toNat < 0x110000 := by
  rcases c.valid with h | h
  · exact Nat.lt_trans h (by decide)
  · exact h.2

@[simp] theorem toInt_ofChar (c : Char) : (ofChar c).toInt = (c.toNat : Int) := by
  have h := toNat_lt c
  have e : ofChar c = Int64.ofInt (c.toNat : Int) := by simp [ofChar, Int64.ofInt_eq_ofNat]
  rw [e, Int64.toInt_ofInt_of_le (by omega) (by omega)]

/-- Every character is read back from its cell. -/
@[simp] theorem toChar?_ofChar (c : Char) : toChar? (ofChar c) = some c := by
  have hv : c.toNat.isValidChar := c.valid
  simp [toChar?, hv]

/-- A cell is read as the character whose cell it is, and as no other. -/
theorem toChar?_eq_some_iff {a : Cell} {c : Char} : toChar? a = some c ↔ a = ofChar c := by
  constructor
  · intro h
    unfold toChar? at h
    split at h
    · next hv =>
        cases h
        apply Int64.toInt_inj.1
        have e : (Char.ofNat a.toInt.toNat).toNat = a.toInt.toNat := by
          unfold Char.ofNat
          rw [dif_pos hv.2]
          rfl
        rw [toInt_ofChar, e]
        omega
    · cases h
  · rintro rfl
    exact toChar?_ofChar c

end Cell

namespace Text

/-- The cells of a line of text: one for each character, and a line feed. -/
def encodeLine (line : String) : List Cell := line.toList.map Cell.ofChar ++ [10]

/-- The cells of several lines of text, one line after the other. -/
def encodeLines (lines : List String) : List Cell := lines.flatMap encodeLine

/-- The text whose characters a list of cells holds; the first cell that is no character is a
fault. -/
def decode (values : List Cell) : Except Fault String := do
  let characters ← values.mapM Cell.toChar
  return String.ofList characters

end Text

end IntcodeMachine

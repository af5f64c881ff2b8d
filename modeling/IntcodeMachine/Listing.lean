/-
**Program listings.**

A listing is a text of integers with commas between them; around an integer there may be spaces,
tabs and line ends.  It is read from left to right, one integer after the other.  Reading stops in
front of a comma that no integer follows, and behind an integer that neither a comma nor the end
follows; a listing is accepted when nothing is left over.  A listing that is blank altogether is
empty.  Any other that is not accepted is malformed: from the length of what is left over the field
in which reading stopped is found again, and reported by its text and its position.

Main definitions:

* `Listing.cell?` — the integer at the start of a text;
* `Listing.cells` — the integers at the start of a text, and what is left over;
* `Listing.stoppedAt`, `Listing.fieldStart` — where reading stopped, and where that field begins;
* `Listing.malformed` — the report of that field;
* `Listing.parse` — **the cells of a listing**, or the load error;
* `Machine.ofListing` — the machine at the start of the program of a listing.
-/

import IntcodeMachine.Machine.Basic
import IntcodeMachine.Text.Blank
import IntcodeMachine.Text.Bytes
import IntcodeMachine.Text.Numeral

set_option relaxedAutoImplicit false
set_option autoImplicit false

namespace IntcodeMachine

namespace Listing

/-! ### Reading -/

/-- The characters allowed around an integer. -/
def isGap (c : Char) : Bool := c == ' ' || c == '\t' || c == '\r' || c == '\n'

/-- The numeral at the start of a text, and what follows it.  The numeral is a minus sign, if there
is one, and all the digits after it. -/
def numeral : List Char → List Char × List Char
  | '-' :: cs => ('-' :: cs.takeWhile Char.isDigit, cs.dropWhile Char.isDigit)
  | cs => (cs.takeWhile Char.isDigit, cs.dropWhile Char.isDigit)

/-- The cell at the start of a text, with gaps around it, and what follows it.  There is none if the
numeral has no digits, or a value out of the range of a cell. -/
def cell? (cs : List Char) : Option (Cell × List Char) :=
  let found := numeral (Text.trimStart isGap cs)
  match Text.readCell found.1 with
  | .ok value => some (value, Text.trimStart isGap found.2)
  | .error _ => none

theorem numeral_suffix (cs : List Char) : (numeral cs).2 <:+ cs := by
  unfold numeral
  split
  · exact (List.dropWhile_suffix _).trans (List.suffix_cons _ _)
  · exact List.dropWhile_suffix _

/-- What follows a cell is the end of the text that it was read from. -/
theorem suffix_of_cell? {cs rest : List Char} {value : Cell}
    (h : cell? cs = some (value, rest)) : rest <:+ cs := by
  simp only [cell?] at h
  split at h
  · cases h
    have hn := numeral_suffix (Text.trimStart isGap cs)
    exact (List.dropWhile_suffix _).trans (hn.trans (List.dropWhile_suffix _))
  · cases h

/-- Reads further cells, each with a comma in front of it, after those in `read`.  It stops where no
comma stands, and in front of a comma that no cell follows. -/
def collect (read : Array Cell) (cs : List Char) : Array Cell × List Char :=
  match cs with
  | ',' :: ds =>
      match h : cell? ds with
      | some (value, rest) =>
          have : rest.length ≤ ds.length := (suffix_of_cell? h).length_le
          collect (read.push value) rest
      | none => (read, ',' :: ds)
  | _ => (read, cs)
termination_by cs.length

@[simp] theorem collect_nil (read : Array Cell) : collect read [] = (read, []) := by
  rw [collect]
  simp

theorem collect_of_ne {c : Char} (hc : c ≠ ',') (read : Array Cell) (cs : List Char) :
    collect read (c :: cs) = (read, c :: cs) := by
  rw [collect]
  simp [hc]

theorem collect_of_some {cs rest : List Char} {value : Cell} (h : cell? cs = some (value, rest))
    (read : Array Cell) : collect read (',' :: cs) = collect (read.push value) rest := by
  rw [collect]
  split <;> simp_all

theorem collect_of_none {cs : List Char} (h : cell? cs = none) (read : Array Cell) :
    collect read (',' :: cs) = (read, ',' :: cs) := by
  rw [collect]
  split <;> simp_all

/-- The cells at the start of a text, with commas between them, and what is left over. -/
def cells (cs : List Char) : Array Cell × List Char :=
  match cell? cs with
  | some (value, rest) => collect #[value] rest
  | none => (#[], cs)

/-! ### The field at fault -/

/-- The position at which reading stopped, in a text of which `rest` is left over. -/
def stoppedAt (cs rest : List Char) : Nat := Text.byteLength cs - Text.byteLength rest

/-- The position at which the field begins in which reading stopped: behind the comma in front of
which it stopped, else behind the last comma before that. -/
def fieldStart (cs rest : List Char) : Nat :=
  if rest.head? = some ',' then stoppedAt cs rest + 1
  else Text.byteLength (Text.trimEnd (· != ',') (Text.takeBytes (stoppedAt cs rest) cs))

/-- The text from that field on, without the blank characters at its start. -/
def remainder (cs rest : List Char) : List Char :=
  Text.trimStart Text.isBlank (Text.dropBytes (fieldStart cs rest) cs)

/-- The load error for a text of which `rest` is left over: how many bytes stand in front of the
field in which reading stopped, and its text, without the blank characters around it. -/
def malformed (cs rest : List Char) : LoadError :=
  .malformed (Text.byteLength cs - Text.byteLength (remainder cs rest))
    (String.ofList (Text.trimEnd Text.isBlank ((remainder cs rest).takeWhile (· != ','))))

/-- The cells of a listing, in order. -/
def parse (text : String) : Except LoadError (List Cell) :=
  let cs := text.toList
  if (Text.trim Text.isBlank cs).isEmpty then .error .emptyProgram
  else
    match cells cs with
    | (values, []) => .ok values.toList
    | (_, rest) => .error (malformed cs rest)

end Listing

/-- The machine at the start of the program of a listing, with its input. -/
def Machine.ofListing (listing : String) (input : Input) : Except LoadError Machine :=
  match Listing.parse listing with
  | .ok program => load program input
  | .error e => .error e

end IntcodeMachine

/-
**Byte positions.**

A position in a text is the number of bytes in front of it, in UTF-8.  A text can be cut at a
position where a character begins, or at its end; these positions are its boundaries.

Main definitions:

* `Text.byteLength` — the number of bytes of a text;
* `Text.IsBoundary` — the positions at which a text can be cut;
* `Text.splitBytes` — a text cut at a position, and `Text.takeBytes`, `Text.dropBytes`, the two
  parts of it.

Main results:

* `Text.takeBytes_append`, `Text.dropBytes_append` — **at a boundary, the cut gives the two parts
  that meet there**.
-/

set_option relaxedAutoImplicit false
set_option autoImplicit false

namespace IntcodeMachine

namespace Text

/-- The number of bytes of a text in UTF-8. -/
def byteLength (cs : List Char) : Nat := (String.ofList cs).utf8ByteSize

@[simp] theorem byteLength_nil : byteLength [] = 0 := rfl

@[simp] theorem byteLength_cons (c : Char) (cs : List Char) :
    byteLength (c :: cs) = c.utf8Size + byteLength cs := by
  simp [byteLength, String.ofList_cons]

@[simp] theorem byteLength_append (cs ds : List Char) :
    byteLength (cs ++ ds) = byteLength cs + byteLength ds := by
  simp [byteLength]

/-- A position is a **boundary** of a text when the characters in front of it are whole. -/
def IsBoundary (cs : List Char) (n : Nat) : Prop :=
  ∃ front back, cs = front ++ back ∧ byteLength front = n

/-- A boundary does not lie past the end. -/
theorem IsBoundary.le_byteLength {cs : List Char} {n : Nat} (h : IsBoundary cs n) :
    n ≤ byteLength cs := by
  obtain ⟨front, back, rfl, rfl⟩ := h
  rw [byteLength_append]
  exact Nat.le_add_right _ _

/-! ### Cutting a text -/

/-- A text cut after `n` bytes; the characters of `front`, last one first, are already cut off.  A
character that reaches past the cut is left to the second part. -/
def splitBytes : Nat → List Char → List Char → List Char × List Char
  | _, front, [] => (front.reverse, [])
  | n, front, c :: cs =>
      if c.utf8Size ≤ n then splitBytes (n - c.utf8Size) (c :: front) cs
      else (front.reverse, c :: cs)

/-- The first `n` bytes of a text. -/
def takeBytes (n : Nat) (cs : List Char) : List Char := (splitBytes n [] cs).1

/-- A text without its first `n` bytes. -/
def dropBytes (n : Nat) (cs : List Char) : List Char := (splitBytes n [] cs).2

theorem splitBytes_append (done front back : List Char) :
    splitBytes (byteLength front) done (front ++ back) = (done.reverse ++ front, back) := by
  induction front generalizing done with
  | nil =>
      cases back with
      | nil => simp [splitBytes]
      | cons c cs =>
          have hc : ¬c.utf8Size ≤ 0 := Nat.not_le.2 c.utf8Size_pos
          simp [splitBytes, hc]
  | cons c front ih =>
      have hle : c.utf8Size ≤ c.utf8Size + byteLength front := Nat.le_add_right _ _
      rw [byteLength_cons, List.cons_append, splitBytes, if_pos hle, Nat.add_sub_cancel_left, ih]
      simp

/-- A cut at a boundary leaves, in front, the text in front of it. -/
@[simp] theorem takeBytes_append (front back : List Char) :
    takeBytes (byteLength front) (front ++ back) = front := by
  simp [takeBytes, splitBytes_append]

/-- A cut at a boundary leaves, behind, the text behind it. -/
@[simp] theorem dropBytes_append (front back : List Char) :
    dropBytes (byteLength front) (front ++ back) = back := by
  simp [dropBytes, splitBytes_append]

end Text

end IntcodeMachine

/-
**Blank characters.**

The characters of the Unicode property `White_Space`, and the text that is left when the characters
of a class are taken off its ends.  Texts are lists of characters here, so that they can be taken
apart by recursion.

Main definitions:

* `Text.isBlank` — the property `White_Space`;
* `Text.trimStart`, `Text.trimEnd`, `Text.trim` — a text without the characters of a class at its
  ends.

Main results:

* `Text.isBlank_of_isWhitespace` — the property holds of the ASCII blanks;
* `Text.trim_eq_nil_iff` — nothing is left exactly when all characters are in the class.
-/

set_option relaxedAutoImplicit false
set_option autoImplicit false

namespace IntcodeMachine

namespace Text

/-- The ranges of code points, first and last, that have the property `White_Space`. -/
def blankRanges : List (Nat × Nat) :=
  [(0x0009, 0x000D), (0x0020, 0x0020), (0x0085, 0x0085), (0x00A0, 0x00A0), (0x1680, 0x1680),
    (0x2000, 0x200A), (0x2028, 0x2029), (0x202F, 0x202F), (0x205F, 0x205F), (0x3000, 0x3000)]

/-- Whether a character has the property `White_Space`. -/
def isBlank (c : Char) : Bool :=
  blankRanges.any fun range => decide (range.1 ≤ c.toNat ∧ c.toNat ≤ range.2)

/-- The characters known to the standard library as white space are blank. -/
theorem isBlank_of_isWhitespace {c : Char} (h : c.isWhitespace = true) : isBlank c = true := by
  simp only [Char.isWhitespace, Bool.or_eq_true, decide_eq_true_eq] at h
  rcases h with ((rfl | rfl) | rfl) | rfl <;> decide

/-! ### Trimming -/

/-- A text without the characters of a class at its start. -/
def trimStart (p : Char → Bool) (cs : List Char) : List Char := cs.dropWhile p

/-- A text without the characters of a class at its end. -/
def trimEnd (p : Char → Bool) (cs : List Char) : List Char := (cs.reverse.dropWhile p).reverse

/-- A text without the characters of a class at its two ends. -/
def trim (p : Char → Bool) (cs : List Char) : List Char := trimEnd p (trimStart p cs)

private theorem dropWhile_eq_nil {p : Char → Bool} {cs : List Char} :
    cs.dropWhile p = [] ↔ ∀ c ∈ cs, p c = true := by
  induction cs with
  | nil => simp
  | cons c cs ih =>
      cases h : p c with
      | true => simp [h, ih]
      | false => simp [h]

/-- Nothing is left of a text exactly when all its characters are in the class. -/
theorem trim_eq_nil_iff {p : Char → Bool} {cs : List Char} :
    trim p cs = [] ↔ ∀ c ∈ cs, p c = true := by
  simp only [trim, trimEnd, trimStart, List.reverse_eq_nil_iff, dropWhile_eq_nil,
    List.mem_reverse]
  constructor
  · intro h
    refine dropWhile_eq_nil.1 ?_
    -- what is left at the start would begin with a character outside the class
    cases hd : cs.dropWhile p with
    | nil => rfl
    | cons d ds =>
        have hp : p d = true := h d (by simp [hd])
        have hn := List.head?_dropWhile_not p cs
        rw [hd] at hn
        simp [hp] at hn
  · intro h c hc
    exact h c ((List.dropWhile_sublist p).subset hc)

end Text

end IntcodeMachine

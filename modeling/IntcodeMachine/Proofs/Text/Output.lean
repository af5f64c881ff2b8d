/-
**Output as text and as numbers.**

The output of a program is a list of cells, and there are two ways to print it.  As text each cell
is a character, which works exactly when all of them are Unicode scalar values; the first that is
not is the fault.  As numbers each cell stands in decimal on a line of its own, which always works,
and nothing is lost: the lines of two lists are the same only if the lists are.

Main definitions:

* `Cell.IsScalar` — the Unicode scalar values;
* `Text.decimalLines` — the values of a list, each on a line of its own.

Main results:

* `Cell.isScalar_iff` — the scalar values are the code points of characters;
* `Text.decode_eq_ok_iff`, `Text.decode_eq_error_iff` — **the text of a list of cells**, and the
  fault if there is none;
* `Text.decimalLines_injective` — **the values can be read back from their lines**.
-/

import IntcodeMachine.Text.CodePoint
import Mathlib

set_option relaxedAutoImplicit false
set_option autoImplicit false

namespace IntcodeMachine

namespace Cell

/-- A **Unicode scalar value**: a code point that is no surrogate. -/
def IsScalar (a : Cell) : Prop :=
  0 ≤ a.toInt ∧ a.toInt ≤ 0x10FFFF ∧ ¬(0xD800 ≤ a.toInt ∧ a.toInt ≤ 0xDFFF)

/-- The scalar values are the code points of characters. -/
theorem isScalar_iff {a : Cell} : a.IsScalar ↔ ∃ c, a = ofChar c := by
  have hchar : a.IsScalar ↔ 0 ≤ a.toInt ∧ a.toInt.toNat.isValidChar := by
    unfold IsScalar Nat.isValidChar
    omega
  rw [hchar]
  constructor
  · intro h
    exact ⟨Char.ofNat a.toInt.toNat, toChar?_eq_some_iff.1 (if_pos h)⟩
  · rintro ⟨c, rfl⟩
    rw [toInt_ofChar]
    exact ⟨by omega, c.valid⟩

@[simp] theorem toChar_ofChar (c : Char) : toChar (ofChar c) = .ok c := by
  rw [toChar, toChar?_ofChar]

theorem toChar_of_not_isScalar {a : Cell} (h : ¬a.IsScalar) :
    toChar a = .error (.notACharacter a) := by
  have hnone : toChar? a = none := by
    cases hc : toChar? a with
    | none => rfl
    | some c => exact absurd (isScalar_iff.2 ⟨c, toChar?_eq_some_iff.1 hc⟩) h
  rw [toChar, hnone]

end Cell

namespace Text

/-! ### Text -/

/-- Characters are read back from their cells. -/
theorem decode_map_ofChar (cs : List Char) :
    decode (cs.map Cell.ofChar) = .ok (String.ofList cs) := by
  have hmap : (cs.map Cell.ofChar).mapM Cell.toChar = .ok cs := by
    induction cs with
    | nil => rfl
    | cons c cs ih =>
        rw [List.map_cons, List.mapM_cons, Cell.toChar_ofChar, ih]
        rfl
  rw [decode, hmap]
  rfl

/-- The first cell that is no scalar value is the fault. -/
theorem decode_of_not_isScalar {before : List Cell} {v : Cell} (hb : ∀ b ∈ before, b.IsScalar)
    (hv : ¬v.IsScalar) (after : List Cell) :
    decode (before ++ v :: after) = .error (.notACharacter v) := by
  have hmap : (before ++ v :: after).mapM Cell.toChar = .error (.notACharacter v) := by
    induction before with
    | nil =>
        rw [List.nil_append, List.mapM_cons, Cell.toChar_of_not_isScalar hv]
        rfl
    | cons b before ih =>
        rw [List.forall_mem_cons] at hb
        obtain ⟨c, rfl⟩ := Cell.isScalar_iff.1 hb.1
        rw [List.cons_append, List.mapM_cons, Cell.toChar_ofChar, ih hb.2]
        rfl
  rw [decode, hmap]
  rfl

/-- A list of cells is the code points of a text, or there is a first one that is no scalar
value. -/
theorem exists_map_ofChar_or (vs : List Cell) :
    (∃ cs : List Char, vs = cs.map Cell.ofChar) ∨
      ∃ before v after, vs = before ++ v :: after ∧ (∀ b ∈ before, b.IsScalar) ∧ ¬v.IsScalar := by
  induction vs with
  | nil => exact .inl ⟨[], rfl⟩
  | cons w vs ih =>
      by_cases hw : w.IsScalar
      · obtain ⟨c, rfl⟩ := Cell.isScalar_iff.1 hw
        rcases ih with ⟨cs, rfl⟩ | ⟨before, v, after, rfl, hb, hv⟩
        · exact .inl ⟨c :: cs, rfl⟩
        · refine .inr ⟨Cell.ofChar c :: before, v, after, rfl, ?_, hv⟩
          rw [List.forall_mem_cons]
          exact ⟨hw, hb⟩
      · exact .inr ⟨[], w, vs, rfl, by simp, hw⟩

/-- **The text of a list of cells** has these as its code points. -/
theorem decode_eq_ok_iff {vs : List Cell} {s : String} :
    decode vs = .ok s ↔ s.toList.map Cell.ofChar = vs := by
  constructor
  · intro h
    rcases exists_map_ofChar_or vs with ⟨cs, rfl⟩ | ⟨before, v, after, rfl, hb, hv⟩
    · rw [decode_map_ofChar] at h
      cases h
      rw [String.toList_ofList]
    · rw [decode_of_not_isScalar hb hv] at h
      cases h
  · rintro rfl
    rw [decode_map_ofChar, String.ofList_toList]

/-- **A list of cells has no text** exactly if one of them is no scalar value; the first of these is
the fault. -/
theorem decode_eq_error_iff {vs : List Cell} {e : Fault} :
    decode vs = .error e ↔
      ∃ before v after, vs = before ++ v :: after ∧ (∀ b ∈ before, b.IsScalar) ∧ ¬v.IsScalar ∧
        e = .notACharacter v := by
  constructor
  · intro h
    rcases exists_map_ofChar_or vs with ⟨cs, rfl⟩ | ⟨before, v, after, rfl, hb, hv⟩
    · rw [decode_map_ofChar] at h
      cases h
    · rw [decode_of_not_isScalar hb hv] at h
      cases h
      exact ⟨before, v, after, rfl, hb, hv, rfl⟩
  · rintro ⟨before, v, after, rfl, hb, hv, rfl⟩
    exact decode_of_not_isScalar hb hv after

/-- A list of cells is the code points of a text exactly if all of them are scalar values. -/
theorem exists_map_ofChar_iff {vs : List Cell} :
    (∃ s : String, s.toList.map Cell.ofChar = vs) ↔ ∀ v ∈ vs, v.IsScalar := by
  constructor
  · rintro ⟨s, rfl⟩ v hv
    obtain ⟨c, -, rfl⟩ := List.mem_map.1 hv
    exact Cell.isScalar_iff.2 ⟨c, rfl⟩
  · intro h
    rcases exists_map_ofChar_or vs with ⟨cs, rfl⟩ | ⟨before, v, after, rfl, -, hv⟩
    · exact ⟨String.ofList cs, by rw [String.toList_ofList]⟩
    · exact absurd (h v (by simp)) hv

/-! ### Numbers -/

/-- The values of a list in decimal, each on a line of its own. -/
def decimalLines (vs : List Cell) : String := String.join (vs.map fun v => toString v.toInt ++ "\n")

theorem toList_decimalLines_cons (v : Cell) (vs : List Cell) :
    (decimalLines (v :: vs)).toList =
      (toString v.toInt).toList ++ '\n' :: (decimalLines vs).toList := by
  simp [decimalLines, String.toList_join]

/-- No decimal text has a line feed in it. -/
theorem lineFeed_notMem_decimal (n : Int) : '\n' ∉ (toString n).toList := by
  have hdigits : ∀ k : Nat, '\n' ∉ k.repr.toList := by
    intro k hk
    rw [Nat.toList_repr] at hk
    exact absurd (Nat.isDigit_of_mem_toDigits (by omega) (by omega) hk) (by decide)
  rw [Int.toString_eq_repr, Int.repr_eq_if]
  split
  · exact hdigits _
  · rw [String.toList_append, List.mem_append, not_or]
    exact ⟨by decide, hdigits _⟩

/-- A text is cut at its first line feed in one way. -/
theorem eq_of_append_lineFeed {xs ys xs' ys' : List Char} (hx : '\n' ∉ xs) (hx' : '\n' ∉ xs')
    (h : xs ++ '\n' :: ys = xs' ++ '\n' :: ys') : xs = xs' ∧ ys = ys' := by
  have hlines : ∀ zs : List Char, '\n' ∉ zs → ∀ c ∈ zs, (c != '\n') = true := by
    intro zs hzs c hc
    rw [bne_iff_ne]
    rintro rfl
    exact hzs hc
  have htake := congrArg (List.takeWhile (· != '\n')) h
  rw [List.takeWhile_append_of_pos (hlines xs hx), List.takeWhile_append_of_pos (hlines xs' hx')]
    at htake
  obtain rfl : xs = xs' := by simpa using htake
  exact ⟨rfl, (List.cons.inj (List.append_cancel_left h)).2⟩

/-- **The values of a list can be read back from their lines.** -/
theorem decimalLines_injective : Function.Injective decimalLines := by
  intro vs ws h
  have hlist := congrArg String.toList h
  clear h
  induction vs generalizing ws with
  | nil =>
      cases ws with
      | nil => rfl
      | cons w ws =>
          rw [toList_decimalLines_cons] at hlist
          exact absurd hlist.symm (List.append_ne_nil_of_right_ne_nil _ (List.cons_ne_nil _ _))
  | cons v vs ih =>
      cases ws with
      | nil =>
          rw [toList_decimalLines_cons] at hlist
          exact absurd hlist (List.append_ne_nil_of_right_ne_nil _ (List.cons_ne_nil _ _))
      | cons w ws =>
          rw [toList_decimalLines_cons, toList_decimalLines_cons] at hlist
          obtain ⟨hv, hvs⟩ := eq_of_append_lineFeed (lineFeed_notMem_decimal _)
            (lineFeed_notMem_decimal _) hlist
          have hint : v.toInt = w.toInt := Int.repr_injective (String.toList_inj.1 hv)
          rw [Int64.toInt_inj.1 hint, ih hvs]

end Text

end IntcodeMachine

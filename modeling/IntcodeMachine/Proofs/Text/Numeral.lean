/-
**What the readers of numerals accept.**

The digits of a numeral are added one by one, and the reader gives up at the digit that carries the
value out of the range.  Since a further digit never makes the value smaller, nothing is lost by
that: a text is read exactly when it consists of digits and its value lies in the range.

Main definitions:

* `Text.Digits` — a text of decimal digits, at least one;
* `Text.Unsigned`, `Text.Signed` — the numerals of a number, without and with a minus sign.

Main results:

* `Text.readDigits_eq_ok_iff` — **the digits read, their value, and its bound**;
* `Text.readPositive_eq_ok_iff`, `Text.readNegative_eq_ok_iff` — the cells that are read;
* `Text.readNat64_eq_ok_iff`, `Text.readCell_eq_ok_iff` — **the numerals that are read**, signs
  included;
* `Text.unsigned_toString`, `Text.signed_text` — the text of a number is a numeral of it.
-/

import IntcodeMachine.Text.Numeral

set_option relaxedAutoImplicit false
set_option autoImplicit false

namespace IntcodeMachine

namespace Text

/-- A text of ASCII digits, at least one. -/
def Digits (cs : List Char) : Prop := cs ≠ [] ∧ ∀ c ∈ cs, c.isDigit = true

/-! ### Digits -/

/-- More digits never make a value smaller. -/
theorem le_ofDigitChars (n : Nat) (cs : List Char) : n ≤ Nat.ofDigitChars 10 cs n := by
  induction cs generalizing n with
  | nil => exact Nat.le_refl n
  | cons c cs ih =>
      rw [Nat.ofDigitChars_cons]
      have h := ih (10 * n + (c.toNat - '0'.toNat))
      omega

/-- Reading digits onto a value within the limit succeeds exactly when all are digits and the value
of the whole is within the limit; that value is the result. -/
theorem readDigits_eq_ok_iff {limit n v : Nat} {beyond : NumeralError} {cs : List Char}
    (hn : n ≤ limit) :
    readDigits limit beyond n cs = .ok v ↔
      (∀ c ∈ cs, c.isDigit = true) ∧ Nat.ofDigitChars 10 cs n = v ∧ v ≤ limit := by
  induction cs generalizing n with
  | nil =>
      rw [readDigits, Except.ok.injEq]
      constructor
      · rintro rfl
        exact ⟨by simp, rfl, hn⟩
      · rintro ⟨-, h, -⟩
        exact h
  | cons c cs ih =>
      rw [readDigits, Nat.ofDigitChars_cons, List.forall_mem_cons]
      by_cases hc : c.isDigit = true
      · by_cases hl : 10 * n + (c.toNat - '0'.toNat) ≤ limit
        · rw [if_pos hc, if_pos hl, ih hl]
          simp only [hc, true_and]
        · -- the value has left the range, and no further digit brings it back
          have hle := le_ofDigitChars (10 * n + (c.toNat - '0'.toNat)) cs
          rw [if_pos hc, if_neg hl]
          constructor
          · intro h
            cases h
          · rintro ⟨-, h, hv⟩
            omega
      · rw [if_neg hc]
        constructor
        · intro h
          cases h
        · rintro ⟨h, -⟩
          exact absurd h.1 hc

theorem readMagnitude_eq_ok_iff {limit v : Nat} {beyond : NumeralError} {cs : List Char} :
    readMagnitude limit beyond cs = .ok v ↔
      Digits cs ∧ Nat.ofDigitChars 10 cs 0 = v ∧ v ≤ limit := by
  cases cs with
  | nil => simp [readMagnitude, Digits]
  | cons c cs =>
      have h : readMagnitude limit beyond (c :: cs) = readDigits limit beyond 0 (c :: cs) := rfl
      rw [h, readDigits_eq_ok_iff (Nat.zero_le _)]
      simp [Digits]

/-! ### Cells -/

/-- A signed reader, whose limit is just where the value with its sign no longer fits, reads the
cell that holds that value. -/
theorem map_readMagnitude_eq_ok_iff {limit : Nat} {beyond : NumeralError} (signed : Nat → Int)
    (hs : ∀ n, n ≤ limit ↔ Cell.Fits (signed n)) {cs : List Char} {a : Cell} :
    (readMagnitude limit beyond cs).map (fun n => Int64.ofInt (signed n)) = .ok a ↔
      Digits cs ∧ a.toInt = signed (Nat.ofDigitChars 10 cs 0) := by
  constructor
  · intro h
    cases hm : readMagnitude limit beyond cs with
    | error e =>
        rw [hm] at h
        cases h
    | ok n =>
        rw [hm] at h
        cases h
        obtain ⟨hd, hv, hl⟩ := readMagnitude_eq_ok_iff.1 hm
        rw [hv]
        exact ⟨hd, Cell.toInt_ofInt_of_fits ((hs n).1 hl)⟩
  · rintro ⟨hd, ha⟩
    have hl : Nat.ofDigitChars 10 cs 0 ≤ limit := by
      rw [hs, ← ha]
      exact Cell.fits_toInt a
    rw [readMagnitude_eq_ok_iff.2 ⟨hd, rfl, hl⟩, ← Int64.ofInt_toInt a, ha]
    rfl

/-- Digits without a sign are read as the cell that holds their value, if there is one. -/
theorem readPositive_eq_ok_iff {cs : List Char} {a : Cell} :
    readPositive cs = .ok a ↔ Digits cs ∧ a.toInt = (Nat.ofDigitChars 10 cs 0 : Nat) := by
  rw [readPositive]
  refine map_readMagnitude_eq_ok_iff (fun n => (n : Int)) ?_
  intro n
  unfold Cell.Fits
  omega

/-- Digits behind a minus sign are read as the cell that holds the negative of their value, if
there is one. -/
theorem readNegative_eq_ok_iff {cs : List Char} {a : Cell} :
    readNegative cs = .ok a ↔ Digits cs ∧ a.toInt = -(Nat.ofDigitChars 10 cs 0 : Nat) := by
  rw [readNegative]
  refine map_readMagnitude_eq_ok_iff (fun n => -(n : Int)) ?_
  intro n
  unfold Cell.Fits
  omega

/-- A text of digits alone is read as a cell without a sign; there is none if it is empty. -/
theorem readCell_eq_ok_iff_of_isDigit {cs : List Char} (h : ∀ c ∈ cs, c.isDigit = true) {a : Cell} :
    readCell cs = .ok a ↔ cs ≠ [] ∧ a.toInt = (Nat.ofDigitChars 10 cs 0 : Nat) := by
  unfold readCell
  split
  · simp
  · exact absurd (h '-' (by simp)) (by decide)
  · exact absurd (h '+' (by simp)) (by decide)
  · rw [readPositive_eq_ok_iff]
    constructor
    · rintro ⟨hd, ha⟩
      exact ⟨hd.1, ha⟩
    · rintro ⟨hne, ha⟩
      exact ⟨⟨hne, h⟩, ha⟩

/-! ### Numerals with signs -/

/-- A **numeral without a minus sign**: digits, most significant first, and an optional plus sign in
front of them. -/
inductive Unsigned : List Char → Nat → Prop
  | plain {digits : List Char} : Digits digits → Unsigned digits (Nat.ofDigitChars 10 digits 0)
  | plus {digits : List Char} :
      Digits digits → Unsigned ('+' :: digits) (Nat.ofDigitChars 10 digits 0)

/-- A **numeral**, with a minus sign in front of its digits or without one. -/
inductive Signed : List Char → Int → Prop
  | unsigned {cs : List Char} {n : Nat} : Unsigned cs n → Signed cs n
  | minus {digits : List Char} :
      Digits digits → Signed ('-' :: digits) (-(Nat.ofDigitChars 10 digits 0 : Nat))

variable {cs : List Char}

theorem Digits.head_isDigit {c : Char} (h : Digits (c :: cs)) : c.isDigit = true :=
  h.2 c List.mem_cons_self

theorem Unsigned.ne_nil {n : Nat} (h : Unsigned cs n) : cs ≠ [] := by
  cases h with
  | plain hd => exact hd.1
  | plus hd => exact List.cons_ne_nil _ _

theorem Signed.ne_nil {n : Int} (h : Signed cs n) : cs ≠ [] := by
  cases h with
  | unsigned hu => exact hu.ne_nil
  | minus hd => exact List.cons_ne_nil _ _

/-- A numeral is made up of digits and signs. -/
theorem Signed.mem {n : Int} (h : Signed cs n) {c : Char} (hc : c ∈ cs) :
    c.isDigit = true ∨ c = '+' ∨ c = '-' := by
  cases h with
  | unsigned hu =>
      cases hu with
      | plain hd => exact .inl (hd.2 c hc)
      | plus hd =>
          rcases List.mem_cons.1 hc with rfl | hc
          · exact .inr (.inl rfl)
          · exact .inl (hd.2 c hc)
  | minus hd =>
      rcases List.mem_cons.1 hc with rfl | hc
      · exact .inr (.inr rfl)
      · exact .inl (hd.2 c hc)

/-- A character that is neither a digit nor a sign is not in a numeral. -/
theorem Signed.notMem {n : Int} (h : Signed cs n) {c : Char} (hdigit : c.isDigit = false)
    (hplus : c ≠ '+') (hminus : c ≠ '-') : c ∉ cs := by
  intro hc
  rcases h.mem hc with hd | he | he
  · rw [hdigit] at hd
    cases hd
  · exact hplus he
  · exact hminus he

theorem readUnsigned_eq_ok_iff {n : Nat} :
    readUnsigned cs = .ok n ↔
      Digits cs ∧ Nat.ofDigitChars 10 cs 0 = n ∧ n ≤ 18446744073709551615 :=
  readMagnitude_eq_ok_iff

/-- **The numerals that are read as an unsigned integer** are those without a minus sign, of a number
below the 64th power of two. -/
theorem readNat64_eq_ok_iff {n : Nat} :
    readNat64 cs = .ok n ↔ Unsigned cs n ∧ n ≤ 18446744073709551615 := by
  unfold readNat64
  split
  · constructor
    · intro h
      cases h
    · rintro ⟨h, -⟩
      exact absurd rfl h.ne_nil
  · rw [readUnsigned_eq_ok_iff]
    constructor
    · rintro ⟨hd, rfl, hn⟩
      exact ⟨.plus hd, hn⟩
    · rintro ⟨h, hn⟩
      cases h with
      | plain hd => exact absurd hd.head_isDigit (by decide)
      | plus hd => exact ⟨hd, rfl, hn⟩
  · next hplus =>
      rw [readUnsigned_eq_ok_iff]
      constructor
      · rintro ⟨hd, rfl, hn⟩
        exact ⟨.plain hd, hn⟩
      · rintro ⟨h, hn⟩
        cases h with
        | plain hd => exact ⟨hd, rfl, hn⟩
        | plus hd => exact absurd rfl (hplus _)

/-- **The numerals that are read as a cell** are those of the number that the cell holds. -/
theorem readCell_eq_ok_iff {a : Cell} : readCell cs = .ok a ↔ Signed cs a.toInt := by
  -- the number is kept apart from the cell, so that the numeral can be taken apart
  obtain ⟨n, hn⟩ : ∃ n, a.toInt = n := ⟨_, rfl⟩
  rw [hn]
  unfold readCell
  split
  · constructor
    · intro h
      cases h
    · intro h
      exact absurd rfl h.ne_nil
  · rw [readNegative_eq_ok_iff, hn]
    constructor
    · rintro ⟨hd, rfl⟩
      exact .minus hd
    · intro h
      cases h with
      | unsigned hu =>
          cases hu with
          | plain hd => exact absurd hd.head_isDigit (by decide)
      | minus hd => exact ⟨hd, rfl⟩
  · rw [readPositive_eq_ok_iff, hn]
    constructor
    · rintro ⟨hd, rfl⟩
      exact .unsigned (.plus hd)
    · intro h
      cases h with
      | unsigned hu =>
          cases hu with
          | plain hd => exact absurd hd.head_isDigit (by decide)
          | plus hd => exact ⟨hd, rfl⟩
  · next hminus hplus =>
      rw [readPositive_eq_ok_iff, hn]
      constructor
      · rintro ⟨hd, rfl⟩
        exact .unsigned (.plain hd)
      · intro h
        cases h with
        | unsigned hu =>
            cases hu with
            | plain hd => exact ⟨hd, rfl⟩
            | plus hd => exact absurd rfl (hplus _)
        | minus hd => exact absurd rfl (hminus _)

/-! ### The text of a number -/

theorem digits_repr (n : Nat) : Digits n.repr.toList := by
  rw [Nat.toList_repr]
  refine ⟨Nat.toDigits_ne_nil, ?_⟩
  intro c hc
  exact Nat.isDigit_of_mem_toDigits (by omega) (by omega) hc

theorem ofDigitChars_repr (n : Nat) : Nat.ofDigitChars 10 n.repr.toList 0 = n := by
  rw [Nat.toList_repr, Nat.ofDigitChars_ten_toDigits]

theorem unsigned_toString (n : Nat) : Unsigned (toString n).toList n := by
  have h := Unsigned.plain (digits_repr n)
  rwa [ofDigitChars_repr] at h

theorem signed_text (a : Cell) : Signed a.text.toList a.toInt := by
  unfold Cell.text
  cases a.toInt with
  | ofNat n => exact .unsigned (unsigned_toString n)
  | negSucc n =>
      have h := Signed.minus (digits_repr (n + 1))
      rw [ofDigitChars_repr] at h
      have htext : (toString (Int.negSucc n)).toList = '-' :: (n + 1).repr.toList := by
        change ("-" ++ (n + 1).repr).toList = _
        rw [String.toList_append]
        rfl
      rw [htext]
      exact h

end Text

end IntcodeMachine

/-
**Words that differ in the place of an operand.**

The digit of an operand's mode is 0 for a position and 2 for a relative address.  If some digits of
an accepted word that belong to its operands are 0, they can be made 2: the result is again a cell,
whatever the word is, and it is again accepted, with the same operation and with the same modes but
for the places that were changed (`Instruction.exists_decode_of_recoded`).  What the two
instructions have in common is an instruction in which every place is a position.

Main definitions:

* `Mode.absolute`, `Instruction.absolute` — with a position in every place;
* `Instruction.Recoded` — **a word in which some digits have been made 2**.

Main results:

* `Instruction.digit_raise` — one digit of a number is made 2;
* `Instruction.exists_recoded` — the digits of any operands can be changed so;
* `Instruction.exists_decode_of_recoded` — **the word is then accepted as before, but for places**.
-/

import IntcodeMachine.Proofs.Instruction.Refusal

set_option relaxedAutoImplicit false
set_option autoImplicit false

namespace IntcodeMachine

/-! ### Places forgotten -/

/-- A mode with the position in place of any other. -/
def Mode.absolute : Mode → Mode
  | immediate => immediate
  | stored _ => stored .position

namespace Instruction

/-- An instruction with the position in every place. -/
def absolute : Instruction → Instruction
  | binary op left right _ => binary op left.absolute right.absolute .position
  | input _ => input .position
  | output source => output source.absolute
  | jump test condition target => jump test condition.absolute target.absolute
  | adjustBase source => adjustBase source.absolute
  | halt => halt

@[simp] theorem opcode_absolute (i : Instruction) : i.absolute.opcode = i.opcode := by
  cases i <;> rfl

theorem modes_absolute (i : Instruction) : i.absolute.modes = i.modes.map Mode.absolute := by
  cases i <;> rfl

/-- Whether a mode is a literal can be told from its digit. -/
theorem absolute_eq_of_digit (mode : Mode) :
    mode.absolute = if mode.digit = 1 then .immediate else .stored .position := by
  cases mode with
  | immediate => rfl
  | stored p => cases p <;> rfl

/-! ### One digit -/

/-- **One digit of a number is made 2**: adding to a digit that is 0 changes no other. -/
theorem digit_raise {n p : Nat} (h : n / 10 ^ p % 10 = 0) (q : Nat) :
    (n + 2 * 10 ^ p) / 10 ^ q % 10 = if q = p then 2 else n / 10 ^ q % 10 := by
  have hpos : ∀ k, 0 < 10 ^ k := fun k => Nat.pow_pos (by decide)
  have hdigit : (n + 2 * 10 ^ p) / 10 ^ p = n / 10 ^ p + 2 :=
    Nat.add_mul_div_right n 2 (hpos p)
  rcases Nat.lt_trichotomy q p with hlt | rfl | hlt
  · -- below the digit, what is added is a multiple of ten
    obtain ⟨d, rfl⟩ : ∃ d, p = q + (d + 1) := ⟨p - q - 1, by omega⟩
    have hbelow : 2 * 10 ^ (q + (d + 1)) = 10 * (2 * 10 ^ d) * 10 ^ q := by
      rw [pow_add, pow_succ]
      ring
    rw [if_neg (by omega), hbelow, Nat.add_mul_div_right _ _ (hpos q), Nat.add_mul_mod_self_left]
  · rw [if_pos rfl, hdigit]
    omega
  · -- above the digit, nothing is carried
    obtain ⟨d, rfl⟩ : ∃ d, q = p + 1 + d := ⟨q - p - 1, by omega⟩
    have hsplit : ∀ x, x / 10 ^ (p + 1 + d) = x / 10 ^ p / 10 / 10 ^ d := by
      intro x
      rw [pow_add, pow_succ, ← Nat.div_div_eq_div_mul, ← Nat.div_div_eq_div_mul]
    have hcarry : (n / 10 ^ p + 2) / 10 = n / 10 ^ p / 10 := by omega
    rw [if_neg (by omega), hsplit, hsplit, hdigit, hcarry]

variable {pc : Nat} {word word' : Cell} {S : Finset Nat} {i : Instruction}

theorem decimalDigit_eq (word : Cell) (p : Nat) :
    decimalDigit word p = word.toInt.toNat / 10 ^ p % 10 := by
  rw [decimalDigit, Nat.getD_digits _ _ (by decide)]

/-! ### Several digits -/

/-- The word `word'` is `word` with the digits of the operands in `S` made 2, the operands counted
from zero; the code of the operation and all other digits are the same. -/
structure Recoded (S : Finset Nat) (word word' : Cell) : Prop where
  nonneg : 0 ≤ word'.toInt
  code : word'.toInt % 100 = word.toInt % 100
  changed : ∀ k ∈ S, decimalDigit word' (k + 2) = 2
  kept : ∀ k ∉ S, decimalDigit word' (k + 2) = decimalDigit word (k + 2)

/-- One digit more can be changed.  The largest cell ends in 75807, so that the sum is a cell. -/
theorem Recoded.raise {k : Nat} (h : Recoded S word word') (hk : k < 3) (hkS : k ∉ S)
    (hzero : decimalDigit word (k + 2) = 0) : ∃ word'', Recoded (insert k S) word word'' := by
  obtain ⟨n, hn⟩ := Int.eq_ofNat_of_zero_le h.nonneg
  have hdigit : n / 10 ^ (k + 2) % 10 = 0 := by
    rw [← hzero, ← h.kept k hkS, decimalDigit_eq, hn, Int.toNat_natCast]
  have hlt : n < 9223372036854775808 := by
    have hfits := (Cell.fits_toInt word').2
    omega
  have hfits : Cell.Fits ((n + 2 * 10 ^ (k + 2) : Nat) : Int) := by
    unfold Cell.Fits
    obtain rfl | rfl | rfl : k = 0 ∨ k = 1 ∨ k = 2 := by omega
    all_goals omega
  have hvalue := Cell.toInt_ofInt_of_fits hfits
  have hdigits : ∀ j, decimalDigit (Int64.ofInt ((n + 2 * 10 ^ (k + 2) : Nat) : Int)) (j + 2) =
      if j = k then 2 else decimalDigit word' (j + 2) := by
    intro j
    rw [decimalDigit_eq, decimalDigit_eq, hvalue, hn, Int.toNat_natCast, Int.toNat_natCast,
      digit_raise hdigit]
    simp only [Nat.add_right_cancel_iff]
  refine ⟨Int64.ofInt ((n + 2 * 10 ^ (k + 2) : Nat) : Int), ?_, ?_, fun j hj => ?_, fun j hj => ?_⟩
  · rw [hvalue]
    omega
  · have hcode := h.code
    have hpow := pow_add_two k
    rw [hvalue, ← hcode, hn]
    omega
  · rw [hdigits]
    split
    · rfl
    · next hne => exact h.changed j (Finset.mem_of_mem_insert_of_ne hj hne)
  · obtain ⟨hne, hj⟩ := not_or.1 (mt Finset.mem_insert.2 hj)
    rw [hdigits, if_neg hne, h.kept j hj]

/-- **Any digits of operands that are 0 can be made 2.** -/
theorem exists_recoded (hword : 0 ≤ word.toInt)
    (hS : ∀ k ∈ S, k < 3 ∧ decimalDigit word (k + 2) = 0) : ∃ word', Recoded S word word' := by
  induction S using Finset.induction_on with
  | empty =>
      exact ⟨word, hword, rfl, fun k hk => absurd hk (Finset.notMem_empty k), fun k _ => rfl⟩
  | insert k S hk ih =>
      obtain ⟨word', h⟩ := ih fun j hj => hS j (Finset.mem_insert_of_mem hj)
      obtain ⟨hlt, hzero⟩ := hS k (Finset.mem_insert_self k S)
      exact h.raise hlt hk hzero

/-! ### The instruction -/

/-- Made 2 or not, a digit that was 0 names a place. -/
theorem Recoded.digit_eq_one_iff (h : Recoded S word word')
    (hS : ∀ k ∈ S, decimalDigit word (k + 2) = 0) (k : Nat) :
    decimalDigit word' (k + 2) = 1 ↔ decimalDigit word (k + 2) = 1 := by
  by_cases hk : k ∈ S
  · rw [h.changed k hk, hS k hk]
    omega
  · rw [h.kept k hk]

theorem Recoded.digit_le (h : Recoded S word word') {k : Nat}
    (hk : decimalDigit word (k + 2) ≤ 2) : decimalDigit word' (k + 2) ≤ 2 := by
  by_cases hkS : k ∈ S
  · rw [h.changed k hkS]
  · rwa [h.kept k hkS]

theorem arity_pos_of_writes {op : Opcode} (h : op.writes = true) : ∃ k, op.arity = k + 1 := by
  cases op with
  | binary op => exact ⟨2, rfl⟩
  | input => exact ⟨0, rfl⟩
  | _ => cases h

/-- **A recoded word is accepted as before**, but for the places of operands. -/
theorem exists_decode_of_recoded (hd : decode pc word = .ok i)
    (hS : ∀ k ∈ S, decimalDigit word (k + 2) = 0) (h : Recoded S word word') :
    ∃ i', decode pc word' = .ok i' ∧ i'.absolute = i.absolute := by
  have hnames : Names word' i.opcode := ⟨h.nonneg, h.code.trans (names_of_decode hd).2⟩
  obtain ⟨i', hd', hop, hdigits⟩ := exists_decode_of_names pc hnames
    (fun k hk => h.digit_le (digit_le_of_decode hd hk)) (by
      rintro ⟨hwrites, hliteral⟩
      obtain ⟨k, hk⟩ := arity_pos_of_writes hwrites
      rw [hk] at hliteral
      refine digit_ne_one_of_decode hd hwrites ?_
      rw [hk]
      exact (h.digit_eq_one_iff hS k).1 hliteral)
  refine ⟨i', hd', ext_opcode_modes (by simpa using hop) ?_⟩
  have hmap : ∀ modes : List Mode, modes.map Mode.absolute =
      (modes.map Mode.digit).map fun d => if d = 1 then .immediate else .stored .position := by
    intro modes
    rw [List.map_map]
    exact List.map_congr_left fun mode _ => absolute_eq_of_digit mode
  rw [modes_absolute, modes_absolute, hmap, hmap, hdigits, ← digits_of_decode hd, List.map_map,
    List.map_map]
  refine List.map_congr_left fun k _ => ?_
  simp only [Function.comp, h.digit_eq_one_iff hS k]

end Instruction

end IntcodeMachine

/-
**Decoding inverts the digit encoding.**

An instruction has an operation and a table of three modes, one slot for each operand that an
operation can have; the slots that the operation does not need are left at position mode.  Not every
operation with a table of modes is an instruction, since a destination cannot be a literal.  Those
that are have a number: the code of the operation, and above it, for each operand, the digit of its
mode at the operand's place.

A word stands for an instruction exactly when it is not negative and ends in the digits of that
number, that is, agrees with it up to the place of the last operand
(`Instruction.decode_eq_ok_iff_encode`).  How many digits count depends on the operation, and the
operation is read off the word itself; this does no harm, since its two digits are always among
those that count.

Main definitions:

* `Instruction.slots` — the modes of an instruction as a table;
* `Instruction.WellFormed` — the tables of modes that an operation can have;
* `Instruction.number` — **the number of an operation and a table of modes**.

Main results:

* `Instruction.decode_eq_ok_iff` — what the digits of a word say;
* `Instruction.decode_eq_ok_iff_encode` — the same for all digits at once;
* `Instruction.decode_inverts_digits` — **decoding inverts the digit encoding**.
-/

import IntcodeMachine.Proofs.Instruction.Decoding
import Mathlib.Algebra.BigOperators.Fin

set_option relaxedAutoImplicit false
set_option autoImplicit false

namespace IntcodeMachine

namespace Instruction

/-! ### Tables of modes -/

/-- The modes of an instruction as a table of three slots; a slot without an operand is in position
mode. -/
def slots (i : Instruction) (k : Fin 3) : Mode := i.modes.getD k (.stored .position)

/-- A table of modes is **well formed** for an operation if the slots without an operand are in
position mode, and the destination, which is the last operand, is not a literal. -/
structure WellFormed (op : Opcode) (modes : Fin 3 → Mode) : Prop where
  position : ∀ k : Fin 3, op.arity ≤ k.val → modes k = .stored .position
  destination : op.writes = true → ∀ k : Fin 3, k.val + 1 = op.arity → modes k ≠ .immediate

/-- **The number of an operation and a table of modes**: the code of the operation, and the digit of
each operand's mode at its place. -/
def number (op : Opcode) (modes : Fin 3 → Mode) : Nat :=
  op.code + ∑ k : Fin 3 with k.val < op.arity, (modes k).digit * 10 ^ (k.val + 2)

theorem exists_place_of_ne {mode : Mode} (h : mode ≠ .immediate) : ∃ p, mode = .stored p := by
  cases mode with
  | immediate => exact absurd rfl h
  | stored p => exact ⟨p, rfl⟩

/-- A table of modes is determined slot by slot. -/
theorem slots_eq {i : Instruction} {modes : Fin 3 → Mode} (h₀ : i.slots 0 = modes 0)
    (h₁ : i.slots 1 = modes 1) (h₂ : i.slots 2 = modes 2) : i.slots = modes := by
  funext k
  match k with
  | 0 => exact h₀
  | 1 => exact h₁
  | 2 => exact h₂

theorem wellFormed_slots (i : Instruction) : WellFormed i.opcode i.slots := by
  refine ⟨?_, ?_⟩
  · intro k hk
    have hlen : i.modes.length ≤ k.val := by rwa [length_modes]
    rw [slots, List.getD_eq_getElem?_getD, List.getElem?_eq_none hlen]
    rfl
  · intro hw k hk
    cases i with
    | binary op left right destination =>
        obtain rfl : k = 2 := Fin.ext (by simpa [opcode, Opcode.arity] using hk)
        simp [slots, modes]
    | input destination =>
        obtain rfl : k = 0 := Fin.ext (by simpa [opcode, Opcode.arity] using hk)
        simp [slots, modes]
    | _ => cases hw

theorem exists_slots_of_wellFormed {op : Opcode} {modes : Fin 3 → Mode} (h : WellFormed op modes) :
    ∃ i : Instruction, i.opcode = op ∧ i.slots = modes := by
  -- the slots past the operands are what they have to be, and the others make up the instruction
  have hpast : ∀ k : Fin 3, op.arity ≤ k.val → .stored .position = modes k := by
    intro k hk
    exact (h.position k hk).symm
  cases op with
  | binary op =>
      obtain ⟨p, hp⟩ := exists_place_of_ne (h.destination rfl 2 rfl)
      exact ⟨.binary op (modes 0) (modes 1) p, rfl, slots_eq rfl rfl hp.symm⟩
  | input =>
      obtain ⟨p, hp⟩ := exists_place_of_ne (h.destination rfl 0 rfl)
      exact ⟨.input p, rfl, slots_eq hp.symm (hpast 1 (by decide)) (hpast 2 (by decide))⟩
  | output =>
      exact ⟨.output (modes 0), rfl, slots_eq rfl (hpast 1 (by decide)) (hpast 2 (by decide))⟩
  | jump test =>
      exact ⟨.jump test (modes 0) (modes 1), rfl, slots_eq rfl rfl (hpast 2 (Nat.le_refl 2))⟩
  | adjustBase =>
      exact ⟨.adjustBase (modes 0), rfl, slots_eq rfl (hpast 1 (by decide)) (hpast 2 (by decide))⟩
  | halt =>
      exact ⟨.halt, rfl,
        slots_eq (hpast 0 (by decide)) (hpast 1 (by decide)) (hpast 2 (by decide))⟩

/-- The number of an instruction is the word that it is encoded as. -/
theorem number_slots (i : Instruction) : number i.opcode i.slots = i.encode := by
  have hsum : number i.opcode i.slots = i.opcode.code +
      ((if 0 < i.opcode.arity then (i.slots 0).digit * 100 else 0) +
        (if 1 < i.opcode.arity then (i.slots 1).digit * 1000 else 0) +
        (if 2 < i.opcode.arity then (i.slots 2).digit * 10000 else 0)) := by
    rw [number, Finset.sum_filter, Fin.sum_univ_three]
    rfl
  rw [hsum]
  cases i with
  | binary op left right destination =>
      change (Opcode.binary op).code + (left.digit * 100 + right.digit * 1000 +
        (Mode.stored destination).digit * 10000) = (Opcode.binary op).code +
          100 * (left.digit + 10 * (right.digit + 10 * ((Mode.stored destination).digit + 10 * 0)))
      omega
  | input destination =>
      change Opcode.input.code + ((Mode.stored destination).digit * 100 + 0 + 0) =
        Opcode.input.code + 100 * ((Mode.stored destination).digit + 10 * 0)
      omega
  | output source =>
      change Opcode.output.code + (source.digit * 100 + 0 + 0) =
        Opcode.output.code + 100 * (source.digit + 10 * 0)
      omega
  | jump test condition target =>
      change (Opcode.jump test).code + (condition.digit * 100 + target.digit * 1000 + 0) =
        (Opcode.jump test).code + 100 * (condition.digit + 10 * (target.digit + 10 * 0))
      omega
  | adjustBase source =>
      change Opcode.adjustBase.code + (source.digit * 100 + 0 + 0) =
        Opcode.adjustBase.code + 100 * (source.digit + 10 * 0)
      omega
  | halt => rfl

/-! ### What the digits of a word say -/

theorem decodeMode_eq_ok_iff {pc digit : Nat} {mode : Mode} :
    decodeMode pc digit = .ok mode ↔ mode.digit = digit := by
  rw [← Mode.ofDigit?_eq_some_iff, decodeMode]
  cases Mode.ofDigit? digit <;> simp

theorem decodePlace_eq_ok_iff {pc : Nat} {mode : Mode} {p : Place} :
    decodePlace pc mode = .ok p ↔ mode = .stored p := by
  cases mode <;> simp [decodePlace]

theorem decodeOpcode_eq_ok_iff {pc : Nat} {word : Cell} {op : Opcode} :
    decodeOpcode pc word = .ok op ↔ 0 ≤ word.toInt ∧ word.toInt.toNat % 100 = op.code := by
  constructor
  · exact code_of_decodeOpcode
  · rintro ⟨hword, hcode⟩
    rw [decodeOpcode, if_pos hword, hcode, Opcode.ofCode?_code]

/-- The mode digits of an accepted word are those of its instruction. -/
theorem modeDigits_of_decode {pc : Nat} {word : Cell} {i : Instruction}
    (h : decode pc word = .ok i) :
    (List.range i.opcode.arity).map (modeDigit word.toInt.toNat) = i.modes.map Mode.digit := by
  obtain ⟨op, -, h⟩ := ok_of_bind h
  cases op with
  | binary op =>
      obtain ⟨left, hleft, h⟩ := ok_of_bind h
      obtain ⟨right, hright, h⟩ := ok_of_bind h
      obtain ⟨result, hresult, h⟩ := ok_of_bind h
      obtain ⟨destination, hdest, h⟩ := ok_of_bind h
      cases h
      rw [decodeMode_eq_ok_iff] at hleft hright hresult
      rw [decodePlace_eq_ok_iff] at hdest
      simp [opcode, Opcode.arity, modes, List.range_succ, hleft, hright, ← hdest, hresult]
  | input =>
      obtain ⟨result, hresult, h⟩ := ok_of_bind h
      obtain ⟨destination, hdest, h⟩ := ok_of_bind h
      cases h
      rw [decodeMode_eq_ok_iff] at hresult
      rw [decodePlace_eq_ok_iff] at hdest
      simp [opcode, Opcode.arity, modes, ← hdest, hresult]
  | output =>
      obtain ⟨source, hsource, h⟩ := ok_of_bind h
      cases h
      rw [decodeMode_eq_ok_iff] at hsource
      simp [opcode, Opcode.arity, modes, hsource]
  | jump test =>
      obtain ⟨condition, hcondition, h⟩ := ok_of_bind h
      obtain ⟨target, htarget, h⟩ := ok_of_bind h
      cases h
      rw [decodeMode_eq_ok_iff] at hcondition htarget
      simp [opcode, Opcode.arity, modes, List.range_succ, hcondition, htarget]
  | adjustBase =>
      obtain ⟨source, hsource, h⟩ := ok_of_bind h
      cases h
      rw [decodeMode_eq_ok_iff] at hsource
      simp [opcode, Opcode.arity, modes, hsource]
  | halt =>
      cases h
      rfl

theorem ok_bind {α β : Type} {x : Except Fault α} {a : α} (h : x = .ok a) (f : α → Except Fault β) :
    x >>= f = f a := by
  rw [h]
  rfl

/-- A word with the code and the mode digits of an instruction is accepted as that instruction. -/
theorem decode_of_modeDigits {pc : Nat} {word : Cell} {i : Instruction}
    (hop : decodeOpcode pc word = .ok i.opcode)
    (hmodes : (List.range i.opcode.arity).map (modeDigit word.toInt.toNat) =
      i.modes.map Mode.digit) : decode pc word = .ok i := by
  have hmode : ∀ {k mode}, modeDigit word.toInt.toNat k = mode.digit →
      decodeMode pc (modeDigit word.toInt.toNat k) = .ok mode :=
    fun h => decodeMode_eq_ok_iff.2 h.symm
  rw [decode, ok_bind hop]
  cases i with
  | binary op left right destination =>
      obtain ⟨hleft, hright, hresult⟩ : modeDigit word.toInt.toNat 0 = left.digit ∧
          modeDigit word.toInt.toNat 1 = right.digit ∧
          modeDigit word.toInt.toNat 2 = (Mode.stored destination).digit := by
        simpa [opcode, Opcode.arity, modes, List.range_succ] using hmodes
      simp only [opcode]
      rw [ok_bind (hmode hleft), ok_bind (hmode hright), ok_bind (hmode hresult),
        ok_bind (decodePlace_eq_ok_iff.2 rfl)]
      rfl
  | input destination =>
      have hresult : modeDigit word.toInt.toNat 0 = (Mode.stored destination).digit := by
        simpa [opcode, Opcode.arity, modes] using hmodes
      simp only [opcode]
      rw [ok_bind (hmode hresult), ok_bind (decodePlace_eq_ok_iff.2 rfl)]
      rfl
  | output source =>
      have hsource : modeDigit word.toInt.toNat 0 = source.digit := by
        simpa [opcode, Opcode.arity, modes] using hmodes
      simp only [opcode]
      rw [ok_bind (hmode hsource)]
      rfl
  | jump test condition target =>
      obtain ⟨hcondition, htarget⟩ : modeDigit word.toInt.toNat 0 = condition.digit ∧
          modeDigit word.toInt.toNat 1 = target.digit := by
        simpa [opcode, Opcode.arity, modes, List.range_succ] using hmodes
      simp only [opcode]
      rw [ok_bind (hmode hcondition), ok_bind (hmode htarget)]
      rfl
  | adjustBase source =>
      have hsource : modeDigit word.toInt.toNat 0 = source.digit := by
        simpa [opcode, Opcode.arity, modes] using hmodes
      simp only [opcode]
      rw [ok_bind (hmode hsource)]
      rfl
  | halt => rfl

/-- **What the digits of a word say**: a word stands for the instruction whose code is in its last
two digits, and whose modes are in those above. -/
theorem decode_eq_ok_iff {pc : Nat} {word : Cell} {i : Instruction} :
    decode pc word = .ok i ↔
      (0 ≤ word.toInt ∧ word.toInt.toNat % 100 = i.opcode.code) ∧
        (List.range i.opcode.arity).map (modeDigit word.toInt.toNat) = i.modes.map Mode.digit := by
  constructor
  · intro h
    exact ⟨decodeOpcode_eq_ok_iff.1 (decodeOpcode_of_decode h), modeDigits_of_decode h⟩
  · rintro ⟨hcode, hmodes⟩
    exact decode_of_modeDigits (decodeOpcode_eq_ok_iff.2 hcode) hmodes

/-! ### All digits at once -/

theorem encodeModes_lt (ms : List Mode) : encodeModes ms < 10 ^ ms.length := by
  induction ms with
  | nil => decide
  | cons mode ms ih =>
      have hdigit := mode.digit_lt
      rw [encodeModes, List.length_cons, pow_succ]
      omega

/-- A number ends in the digits of some modes exactly when it has these digits one by one. -/
theorem mod_eq_encodeModes_iff (n : Nat) (ms : List Mode) :
    n % 10 ^ ms.length = encodeModes ms ↔
      (List.range ms.length).map (fun k => n / 10 ^ k % 10) = ms.map Mode.digit := by
  induction ms generalizing n with
  | nil => simp [encodeModes, Nat.mod_one]
  | cons mode ms ih =>
      have hdigit := mode.digit_lt
      have hsplit : n % 10 ^ (ms.length + 1) = n % 10 + 10 * (n / 10 % 10 ^ ms.length) := by
        rw [pow_succ', Nat.mod_mul]
      have hshift : ∀ k, n / 10 ^ (k + 1) = n / 10 / 10 ^ k := by
        intro k
        rw [pow_succ', Nat.div_div_eq_div_mul]
      simp only [List.length_cons, List.range_succ_eq_map, List.map_cons, List.map_map,
        Function.comp_def, Nat.succ_eq_add_one, pow_zero, Nat.div_one, hshift, List.cons.injEq,
        ← ih (n / 10), encodeModes, hsplit]
      omega

theorem pow_add_two (k : Nat) : 10 ^ (k + 2) = 100 * 10 ^ k := by
  rw [pow_succ, pow_succ]
  omega

/-- **A word stands for an instruction exactly when it ends in the digits of its encoding.** -/
theorem decode_eq_ok_iff_encode {pc : Nat} {word : Cell} {i : Instruction} :
    decode pc word = .ok i ↔
      0 ≤ word.toInt ∧ word.toInt % 10 ^ (i.opcode.arity + 2) = i.encode := by
  rw [decode_eq_ok_iff, and_assoc]
  refine and_congr_right fun hword => ?_
  obtain ⟨n, hn⟩ := Int.eq_ofNat_of_zero_le hword
  have hdigits : (List.range i.opcode.arity).map (modeDigit n) =
      (List.range i.opcode.arity).map fun k => n / 100 / 10 ^ k % 10 := by
    refine List.map_congr_left fun k _ => ?_
    rw [Nat.div_div_eq_div_mul, modeDigit, Nat.pow_eq, pow_add_two]
  have hmodes := mod_eq_encodeModes_iff (n / 100) i.modes
  rw [length_modes] at hmodes
  have hcast : ((n : Int) % 10 ^ (i.opcode.arity + 2) = i.encode) ↔
      n % 10 ^ (i.opcode.arity + 2) = i.encode := by
    exact_mod_cast Iff.rfl
  have hcode := i.opcode.code_lt
  rw [hn, Int.toNat_natCast, hdigits, ← hmodes, hcast, pow_add_two, Nat.mod_mul, encode]
  omega

/-- The encoding of an instruction has no further digits. -/
theorem encode_lt (i : Instruction) : i.encode < 10 ^ (i.opcode.arity + 2) := by
  have hcode := i.opcode.code_lt
  have hmodes := encodeModes_lt i.modes
  rw [length_modes] at hmodes
  rw [encode, pow_add_two]
  omega

theorem arity_le (op : Opcode) : op.arity ≤ 3 := by
  cases op <;> simp [Opcode.arity]

/-- Every instruction is decoded from its encoding, which is a cell. -/
theorem decode_encode (pc : Nat) (i : Instruction) :
    ∃ word : Cell, word.toInt = i.encode ∧ decode pc word = .ok i := by
  have hlt := i.encode_lt
  have hpow : 10 ^ (i.opcode.arity + 2) ≤ 10 ^ 5 := by
    have harity := arity_le i.opcode
    exact Nat.pow_le_pow_right (by decide) (by omega)
  have hword : (Int64.ofInt i.encode).toInt = i.encode := by
    refine Cell.toInt_ofInt_of_fits ?_
    unfold Cell.Fits
    omega
  refine ⟨Int64.ofInt i.encode, hword, decode_eq_ok_iff_encode.2 ?_⟩
  rw [hword]
  refine ⟨Int.natCast_nonneg _, ?_⟩
  exact_mod_cast Nat.mod_eq_of_lt hlt

/-- Words of one operation stand for the same instruction exactly when they end in the same
digits. -/
theorem eq_iff_of_decode {pc pc' : Nat} {word word' : Cell} {i i' : Instruction}
    (h : decode pc word = .ok i) (h' : decode pc' word' = .ok i') (hop : i.opcode = i'.opcode) :
    i = i' ↔
      word.toInt % 10 ^ (i.opcode.arity + 2) = word'.toInt % 10 ^ (i.opcode.arity + 2) := by
  obtain ⟨hword, hmod⟩ := decode_eq_ok_iff_encode.1 h
  obtain ⟨-, hmod'⟩ := decode_eq_ok_iff_encode.1 h'
  constructor
  · rintro rfl
    rw [hmod, hmod']
  · intro he
    rw [hop, hmod'] at he
    -- the word is decoded to both instructions
    have hi' : decode pc word = .ok i' := decode_eq_ok_iff_encode.2 ⟨hword, he⟩
    rw [h] at hi'
    exact Except.ok.inj hi'

/-- **Decoding inverts the digit encoding.**  A word is decoded to an operation with a table of modes
exactly when it is not negative, the table is well formed for the operation, and the word ends in
the digits of their number.  Hence every well-formed table is decoded from its number, and two words
that are decoded to the same operation stand for the same instruction exactly when they end in the
same digits. -/
theorem decode_inverts_digits (pc : Nat) :
    (∀ (word : Cell) (op : Opcode) (modes : Fin 3 → Mode),
      (∃ i, decode pc word = .ok i ∧ i.opcode = op ∧ i.slots = modes) ↔
        0 ≤ word.toInt ∧ WellFormed op modes ∧
          word.toInt % 10 ^ (op.arity + 2) = number op modes) ∧
    (∀ (op : Opcode) (modes : Fin 3 → Mode), WellFormed op modes →
      ∃ word : Cell, word.toInt = number op modes ∧
        ∃ i, decode pc word = .ok i ∧ i.opcode = op ∧ i.slots = modes) ∧
    (∀ (pc' : Nat) (word word' : Cell) (i i' : Instruction), decode pc word = .ok i →
      decode pc' word' = .ok i' → i.opcode = i'.opcode →
        (i = i' ↔
          word.toInt % 10 ^ (i.opcode.arity + 2) = word'.toInt % 10 ^ (i.opcode.arity + 2))) := by
  refine ⟨?_, ?_, ?_⟩
  · intro word op modes
    constructor
    · rintro ⟨i, h, rfl, rfl⟩
      obtain ⟨hword, hmod⟩ := decode_eq_ok_iff_encode.1 h
      rw [number_slots]
      exact ⟨hword, wellFormed_slots i, hmod⟩
    · rintro ⟨hword, hmodes, hmod⟩
      obtain ⟨i, rfl, rfl⟩ := exists_slots_of_wellFormed hmodes
      rw [number_slots] at hmod
      exact ⟨i, decode_eq_ok_iff_encode.2 ⟨hword, hmod⟩, rfl, rfl⟩
  · intro op modes hmodes
    obtain ⟨i, rfl, rfl⟩ := exists_slots_of_wellFormed hmodes
    obtain ⟨word, hword, h⟩ := decode_encode pc i
    rw [number_slots]
    exact ⟨word, hword, i, h, rfl, rfl⟩
  · intro pc' word word' i i' h h' hop
    exact eq_iff_of_decode h h' hop

/-- A word of an addition with a further digit, which is ignored; a destination may be relative. -/
theorem decode_inverts_digits_add :
    WellFormed (.binary .add) ![.immediate, .stored .position, .stored .relative] ∧
    number (.binary .add) ![.immediate, .stored .position, .stored .relative] = 20101 ∧
    ∃ i, decode 4 720101 = .ok i ∧ i.opcode = .binary .add ∧
      i.slots = ![.immediate, .stored .position, .stored .relative] := by
  have hmodes : WellFormed (.binary .add) ![.immediate, .stored .position, .stored .relative] :=
    ⟨by decide, by decide⟩
  have hnumber :
      number (.binary .add) ![.immediate, .stored .position, .stored .relative] = 20101 := by
    decide
  refine ⟨hmodes, hnumber, ((decode_inverts_digits 4).1 _ _ _).2 ⟨by decide, hmodes, ?_⟩⟩
  rw [hnumber]
  decide

end Instruction

end IntcodeMachine

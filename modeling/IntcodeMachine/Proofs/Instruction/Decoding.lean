/-
**Why a word is refused, and what an accepted word says.**

A word that stands for no instruction is refused for one of three reasons, and the fault names the
word and the digit that are to blame.  A word that is accepted has the code of its operation in its
last two digits.

Main definitions:

* `Fault.OfWord` — the faults that may be found in a word at an address, and when they are true.

Main results:

* `Instruction.ofWord_of_decode` — **the fault of a word that is refused is true of that word**;
* `Instruction.decodeOpcode_of_decode`, `Instruction.code_of_decodeOpcode` — the operation of a word
  that is accepted.
-/

import IntcodeMachine.Instruction.Encoding

set_option relaxedAutoImplicit false
set_option autoImplicit false

namespace IntcodeMachine

/-- The faults of the word `word` at `pc`: it names no operation, a digit of it that belongs to an
operand names no mode, or the digit of its destination makes that a literal. -/
def Fault.OfWord (pc : Nat) (word : Cell) : Fault → Prop
  | unknownOpcode p w =>
      p = pc ∧ w = word ∧ (word.toInt < 0 ∨ Opcode.ofCode? (word.toInt.toNat % 100) = none)
  | invalidMode p digit =>
      p = pc ∧ 2 < digit ∧ ∃ op k, Instruction.decodeOpcode pc word = .ok op ∧ k < op.arity ∧
        digit = Instruction.modeDigit word.toInt.toNat k
  | immediateDestination p =>
      p = pc ∧ ∃ op, Instruction.decodeOpcode pc word = .ok op ∧ op.writes = true ∧
        Instruction.modeDigit word.toInt.toNat (op.arity - 1) = 1
  | _ => False

namespace Instruction

/-- If two steps of decoding have only faults that are true of the word, so has one after the
other. -/
theorem ofWord_of_bind {α β : Type} {pc : Nat} {word : Cell} {e : Fault} {x : Except Fault α}
    {f : α → Except Fault β} (h : x >>= f = .error e) (hx : x = .error e → e.OfWord pc word)
    (hf : ∀ a, x = .ok a → f a = .error e → e.OfWord pc word) : e.OfWord pc word := by
  cases x with
  | error e' =>
      cases h
      exact hx rfl
  | ok a => exact hf a rfl h

theorem ofWord_of_decodeOpcode {pc : Nat} {word : Cell} {e : Fault}
    (h : decodeOpcode pc word = .error e) : e.OfWord pc word := by
  unfold decodeOpcode at h
  split at h
  · split at h
    · cases h
    · next hcode =>
        cases h
        exact ⟨rfl, rfl, .inr hcode⟩
  · next hneg =>
      cases h
      exact ⟨rfl, rfl, .inl (Int.not_le.1 hneg)⟩

theorem ofWord_of_decodeMode {pc k : Nat} {word : Cell} {op : Opcode} {e : Fault}
    (hop : decodeOpcode pc word = .ok op) (hk : k < op.arity)
    (h : decodeMode pc (modeDigit word.toInt.toNat k) = .error e) : e.OfWord pc word := by
  unfold decodeMode at h
  split at h
  · cases h
  · next hmode =>
      cases h
      exact ⟨rfl, Mode.ofDigit?_eq_none_iff.1 hmode, op, k, hop, hk, rfl⟩

theorem ofWord_of_decodePlace {pc : Nat} {word : Cell} {op : Opcode} {mode : Mode} {e : Fault}
    (hop : decodeOpcode pc word = .ok op) (hwrites : op.writes = true)
    (hmode : decodeMode pc (modeDigit word.toInt.toNat (op.arity - 1)) = .ok mode)
    (h : decodePlace pc mode = .error e) : e.OfWord pc word := by
  unfold decodeMode at hmode
  split at hmode
  · next hdigit =>
      cases hmode
      cases mode with
      | immediate =>
          cases h
          exact ⟨rfl, op, hop, hwrites, (Mode.ofDigit?_eq_some_iff.1 hdigit).symm⟩
      | stored place => cases h
  · cases hmode

/-- **The fault of a word that is refused is true of that word.** -/
theorem ofWord_of_decode {pc : Nat} {word : Cell} {e : Fault} (h : decode pc word = .error e) :
    e.OfWord pc word := by
  refine ofWord_of_bind h ofWord_of_decodeOpcode fun op hop h => ?_
  -- the modes are decoded first to last, and the destination only after all of them
  cases op with
  | binary op =>
      refine ofWord_of_bind h (ofWord_of_decodeMode hop (by simp [Opcode.arity])) fun left _ h => ?_
      refine ofWord_of_bind h (ofWord_of_decodeMode hop (by simp [Opcode.arity]))
        fun right _ h => ?_
      refine ofWord_of_bind h (ofWord_of_decodeMode hop (by simp [Opcode.arity]))
        fun result hresult h => ?_
      refine ofWord_of_bind h (ofWord_of_decodePlace hop rfl hresult) fun destination _ h => ?_
      cases h
  | input =>
      refine ofWord_of_bind h (ofWord_of_decodeMode hop (by simp [Opcode.arity]))
        fun result hresult h => ?_
      refine ofWord_of_bind h (ofWord_of_decodePlace hop rfl hresult) fun destination _ h => ?_
      cases h
  | output =>
      refine ofWord_of_bind h (ofWord_of_decodeMode hop (by simp [Opcode.arity]))
        fun source _ h => ?_
      cases h
  | jump test =>
      refine ofWord_of_bind h (ofWord_of_decodeMode hop (by simp [Opcode.arity]))
        fun condition _ h => ?_
      refine ofWord_of_bind h (ofWord_of_decodeMode hop (by simp [Opcode.arity]))
        fun target _ h => ?_
      cases h
  | adjustBase =>
      refine ofWord_of_bind h (ofWord_of_decodeMode hop (by simp [Opcode.arity]))
        fun source _ h => ?_
      cases h
  | halt => cases h

/-! ### What an accepted word says -/

/-- If one step of decoding after another succeeds, both do. -/
theorem ok_of_bind {α β : Type} {x : Except Fault α} {f : α → Except Fault β} {b : β}
    (h : x >>= f = .ok b) : ∃ a, x = .ok a ∧ f a = .ok b := by
  cases x with
  | ok a => exact ⟨a, rfl, h⟩
  | error e => cases h

/-- The operation of an instruction is the one that its word names. -/
theorem decodeOpcode_of_decode {pc : Nat} {word : Cell} {i : Instruction}
    (h : decode pc word = .ok i) : decodeOpcode pc word = .ok i.opcode := by
  obtain ⟨op, hop, h⟩ := ok_of_bind h
  rw [hop]
  cases op with
  | binary op =>
      obtain ⟨left, -, h⟩ := ok_of_bind h
      obtain ⟨right, -, h⟩ := ok_of_bind h
      obtain ⟨result, -, h⟩ := ok_of_bind h
      obtain ⟨destination, -, h⟩ := ok_of_bind h
      cases h
      rfl
  | input =>
      obtain ⟨result, -, h⟩ := ok_of_bind h
      obtain ⟨destination, -, h⟩ := ok_of_bind h
      cases h
      rfl
  | output =>
      obtain ⟨source, -, h⟩ := ok_of_bind h
      cases h
      rfl
  | jump test =>
      obtain ⟨condition, -, h⟩ := ok_of_bind h
      obtain ⟨target, -, h⟩ := ok_of_bind h
      cases h
      rfl
  | adjustBase =>
      obtain ⟨source, -, h⟩ := ok_of_bind h
      cases h
      rfl
  | halt =>
      cases h
      rfl

/-- A word names the operation whose code is in its last two digits. -/
theorem code_of_decodeOpcode {pc : Nat} {word : Cell} {op : Opcode}
    (h : decodeOpcode pc word = .ok op) :
    0 ≤ word.toInt ∧ word.toInt.toNat % 100 = op.code := by
  unfold decodeOpcode at h
  split at h
  · next hword =>
      split at h
      · next hcode =>
          cases h
          exact ⟨hword, (Opcode.ofCode?_eq_some_iff.1 hcode).symm⟩
      · cases h
  · cases h

end Instruction

end IntcodeMachine

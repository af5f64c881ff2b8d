/-
**The reason for which a word is refused.**

A word can be wrong in several ways at once: it may name no operation, have several digits that name
no mode, and have a literal for its destination.  It is refused for one reason all the same, the
first in a fixed order, and the digits past the operands of its operation never count.  This module
states the order as a relation between a word and a fault, `Instruction.Refused`, in which each
reason stands only where none before it applies.  The relation leaves no choice
(`Instruction.Refused.unique`), and it is all there is to say: a word is refused with a fault
exactly if the relation gives that fault.

In memory there is one more reason, which comes before the others: the word cannot be read.  If it
can, memory has its cell afterwards, be the word accepted or refused, and so to decode once more
gives the same again.

Main definitions:

* `Instruction.decimalDigit`, `Instruction.Names` — the digits of a word, and the operation that it
  names;
* `Instruction.Refused` — **why a word is refused**;
* `Memory.leaves`, `Memory.Refuses` — what decoding does to memory, and with which fault it fails;
* `Memory.DecodesByRule` — the outcome of decoding at an address, reason by reason.

Main results:

* `Instruction.decode_eq_error_iff_refused` — **a word is refused for the first reason that
  applies**;
* `Instruction.exists_decode_of_names` — the words that are accepted;
* `Memory.decodeAt_by_rule` — **decoding in memory**, with what it does to memory.
-/

import IntcodeMachine.Proofs.Instruction.Digits
import IntcodeMachine.Proofs.Memory.Growth
import Mathlib.Data.Nat.Digits.Lemmas

set_option relaxedAutoImplicit false
set_option autoImplicit false

namespace IntcodeMachine

namespace Instruction

variable {pc : Nat} {word : Cell} {op : Opcode} {e e' : Fault}

/-! ### Digits -/

/-- The decimal digit of a word at the place of the power `p` of ten; zero past the highest digit. -/
def decimalDigit (word : Cell) (p : Nat) : Nat := (Nat.digits 10 word.toInt.toNat).getD p 0

/-- A word **names** the operation whose code is in its last two digits, unless it is negative. -/
def Names (word : Cell) (op : Opcode) : Prop := 0 ≤ word.toInt ∧ word.toInt % 100 = op.code

theorem modeDigit_eq_decimalDigit (word : Cell) (k : Nat) :
    modeDigit word.toInt.toNat k = decimalDigit word (k + 2) := by
  rw [decimalDigit, Nat.getD_digits _ _ (by decide), modeDigit, Nat.pow_eq]

theorem decodeOpcode_eq_ok_iff_names : decodeOpcode pc word = .ok op ↔ Names word op := by
  rw [decodeOpcode_eq_ok_iff, Names]
  omega

/-- A word names at most one operation. -/
theorem Names.unique {op' : Opcode} (h : Names word op) (h' : Names word op') : op = op' := by
  have hcode : op.code = op'.code := by
    have hop := h.2
    have hop' := h'.2
    omega
  have hsome := Opcode.ofCode?_code op
  rw [hcode, Opcode.ofCode?_code] at hsome
  exact (Option.some.inj hsome).symm

theorem not_names_iff :
    (∀ op, ¬Names word op) ↔ word.toInt < 0 ∨ ∀ op : Opcode, word.toInt % 100 ≠ op.code := by
  constructor
  · intro h
    by_cases hword : word.toInt < 0
    · exact .inl hword
    · exact .inr fun op hop => h op ⟨Int.not_lt.1 hword, hop⟩
  · rintro (hword | hcode) op ⟨hnonneg, hop⟩
    · omega
    · exact hcode op hop

/-! ### Reasons -/

/-- **Why a word is refused.**  A reason stands only where none before it applies: the word names no
operation; a digit that belongs to an operand names no mode, and is the lowest that does not; the
digit of the destination makes that a literal. -/
inductive Refused (pc : Nat) (word : Cell) : Fault → Prop
  | opcode (hop : ∀ op, ¬Names word op) : Refused pc word (.unknownOpcode pc word)
  | mode {op : Opcode} {k : Nat} (hop : Names word op) (hk : k < op.arity)
      (hdigit : 2 < decimalDigit word (k + 2))
      (hlower : ∀ j < k, decimalDigit word (j + 2) ≤ 2) :
      Refused pc word (.invalidMode pc (decimalDigit word (k + 2)))
  | destination {op : Opcode} (hop : Names word op)
      (hmodes : ∀ k < op.arity, decimalDigit word (k + 2) ≤ 2) (hwrites : op.writes = true)
      (hliteral : decimalDigit word (op.arity + 1) = 1) :
      Refused pc word (.immediateDestination pc)

/-- The reasons leave no choice. -/
theorem Refused.unique (h : Refused pc word e) (h' : Refused pc word e') : e = e' := by
  cases h with
  | opcode hop =>
      cases h' with
      | opcode => rfl
      | mode hop' => exact absurd hop' (hop _)
      | destination hop' => exact absurd hop' (hop _)
  | @mode op k hop hk hdigit hlower =>
      cases h' with
      | opcode hop' => exact absurd hop (hop' _)
      | @mode op' k' hop' hk' hdigit' hlower' =>
          obtain rfl := hop.unique hop'
          -- two digits that are both the lowest to name no mode stand at the same place
          rcases Nat.lt_trichotomy k k' with hlt | rfl | hlt
          · have hle := hlower' k hlt
            omega
          · rfl
          · have hle := hlower k' hlt
            omega
      | destination hop' hmodes =>
          obtain rfl := hop.unique hop'
          have hle := hmodes k hk
          omega
  | destination hop hmodes =>
      cases h' with
      | opcode hop' => exact absurd hop (hop' _)
      | @mode op' k hop' hk hdigit =>
          obtain rfl := hop.unique hop'
          have hle := hmodes k hk
          omega
      | destination => rfl

/-! ### One reason at a time -/

theorem refused_unknownOpcode_iff :
    Refused pc word (.unknownOpcode pc word) ↔ ∀ op, ¬Names word op := by
  constructor
  · rintro ⟨hop⟩
    exact hop
  · exact .opcode

theorem refused_invalidMode_iff (hop : Names word op) {d : Nat} :
    Refused pc word (.invalidMode pc d) ↔
      ∃ k < op.arity, d = decimalDigit word (k + 2) ∧ 2 < d ∧
        ∀ j < k, decimalDigit word (j + 2) ≤ 2 := by
  constructor
  · intro hd
    cases hd with
    | @mode op' k hop' hk hdigit hlower =>
        obtain rfl := hop.unique hop'
        exact ⟨k, hk, rfl, hdigit, hlower⟩
  · rintro ⟨k, hk, rfl, hdigit, hlower⟩
    exact .mode hop hk hdigit hlower

theorem refused_immediateDestination_iff (hop : Names word op)
    (hmodes : ∀ k < op.arity, decimalDigit word (k + 2) ≤ 2) :
    Refused pc word (.immediateDestination pc) ↔
      op.writes = true ∧ decimalDigit word (op.arity + 1) = 1 := by
  constructor
  · intro hd
    cases hd with
    | destination hop' _ hwrites hliteral =>
        obtain rfl := hop.unique hop'
        exact ⟨hwrites, hliteral⟩
  · rintro ⟨hwrites, hliteral⟩
    exact .destination hop hmodes hwrites hliteral

/-- There are three kinds of reasons. -/
theorem Refused.cases_fault (h : Refused pc word e) : e = .unknownOpcode pc word ∨
    (∃ d, e = .invalidMode pc d) ∨ e = .immediateDestination pc := by
  cases h with
  | opcode => exact .inl rfl
  | mode => exact .inr (.inl ⟨_, rfl⟩)
  | destination => exact .inr (.inr rfl)

/-! ### Decoding looks for the reasons in order -/

/-- The next mode: its digit is the first that names no mode, or names one, and decoding goes on
above it. -/
theorem refused_of_mode {β : Type} {k : Nat} {f : Mode → Except Fault β} (hop : Names word op)
    (hk : k < op.arity) (hlower : ∀ j < k, decimalDigit word (j + 2) ≤ 2)
    (h : decodeMode pc (modeDigit word.toInt.toNat k) >>= f = .error e)
    (hf : ∀ mode, mode.digit = decimalDigit word (k + 2) →
      (∀ j < k + 1, decimalDigit word (j + 2) ≤ 2) → f mode = .error e → Refused pc word e) :
    Refused pc word e := by
  rw [modeDigit_eq_decimalDigit] at h
  cases hmode : Mode.ofDigit? (decimalDigit word (k + 2)) with
  | none =>
      simp only [decodeMode, hmode] at h
      cases h
      exact .mode hop hk (Mode.ofDigit?_eq_none_iff.1 hmode) hlower
  | some mode =>
      simp only [decodeMode, hmode] at h
      have hdigit := Mode.ofDigit?_eq_some_iff.1 hmode
      refine hf mode hdigit (fun j hj => ?_) h
      rcases Nat.lt_succ_iff_lt_or_eq.1 hj with hj | rfl
      · exact hlower j hj
      · have hlt := mode.digit_lt
        omega

/-- The destination, once all modes are known: it is a literal. -/
theorem refused_of_place {β : Type} {mode : Mode} {f : Place → β} (hop : Names word op)
    (hwrites : op.writes = true) (hmodes : ∀ k < op.arity, decimalDigit word (k + 2) ≤ 2)
    (hmode : mode.digit = decimalDigit word (op.arity + 1))
    (h : (decodePlace pc mode >>= fun p => pure (f p)) = .error e) : Refused pc word e := by
  cases mode with
  | immediate =>
      cases h
      exact .destination hop hmodes hwrites hmode.symm
  | stored p => cases h

/-- The operation: there is no other fault in it than that it is unknown. -/
theorem refused_of_decodeOpcode (h : decodeOpcode pc word = .error e) : Refused pc word e := by
  have hnone : ∀ op, ¬Names word op := by
    intro op hop
    rw [decodeOpcode_eq_ok_iff_names.2 hop] at h
    cases h
  unfold decodeOpcode at h
  split at h
  · split at h
    · cases h
    · cases h
      exact .opcode hnone
  · cases h
    exact .opcode hnone

theorem refused_of_decode (h : decode pc word = .error e) : Refused pc word e := by
  unfold decode at h
  cases hop : decodeOpcode pc word with
  | error f =>
      rw [hop] at h
      cases h
      exact refused_of_decodeOpcode hop
  | ok op =>
      rw [ok_bind hop] at h
      have hop := decodeOpcode_eq_ok_iff_names.1 hop
      have hnone : ∀ j < 0, decimalDigit word (j + 2) ≤ 2 := by
        intro j hj
        omega
      -- the modes are looked at first to last, and the destination only after all of them
      cases op with
      | binary op =>
          refine refused_of_mode hop (by simp [Opcode.arity]) hnone h fun left _ h₁ h => ?_
          refine refused_of_mode hop (by simp [Opcode.arity]) h₁ h fun right _ h₂ h => ?_
          refine refused_of_mode hop (by simp [Opcode.arity]) h₂ h fun result hresult h₃ h => ?_
          exact refused_of_place hop rfl h₃ hresult h
      | input =>
          refine refused_of_mode hop (by simp [Opcode.arity]) hnone h fun result hresult h₁ h => ?_
          exact refused_of_place hop rfl h₁ hresult h
      | output =>
          refine refused_of_mode hop (by simp [Opcode.arity]) hnone h fun source _ _ h => ?_
          cases h
      | jump test =>
          refine refused_of_mode hop (by simp [Opcode.arity]) hnone h fun condition _ h₁ h => ?_
          refine refused_of_mode hop (by simp [Opcode.arity]) h₁ h fun target _ _ h => ?_
          cases h
      | adjustBase =>
          refine refused_of_mode hop (by simp [Opcode.arity]) hnone h fun source _ _ h => ?_
          cases h
      | halt => cases h

/-! ### Accepted words -/

/-- The digits of an accepted word that belong to operands are those of the modes. -/
theorem digits_of_decode {i : Instruction} (h : decode pc word = .ok i) :
    (List.range i.opcode.arity).map (fun k => decimalDigit word (k + 2)) =
      i.modes.map Mode.digit := by
  simp only [← modeDigit_eq_decimalDigit]
  exact modeDigits_of_decode h

theorem names_of_decode {i : Instruction} (h : decode pc word = .ok i) : Names word i.opcode :=
  decodeOpcode_eq_ok_iff_names.1 (decodeOpcode_of_decode h)

/-- In an accepted word every digit that belongs to an operand names a mode. -/
theorem digit_le_of_decode {i : Instruction} (h : decode pc word = .ok i) {k : Nat}
    (hk : k < i.opcode.arity) : decimalDigit word (k + 2) ≤ 2 := by
  have hmem : decimalDigit word (k + 2) ∈ i.modes.map Mode.digit := by
    rw [← digits_of_decode h]
    exact List.mem_map.2 ⟨k, List.mem_range.2 hk, rfl⟩
  obtain ⟨mode, -, hmode⟩ := List.mem_map.1 hmem
  have hlt := mode.digit_lt
  omega

/-- The destination of an accepted word is no literal. -/
theorem digit_ne_one_of_decode {i : Instruction} (h : decode pc word = .ok i)
    (hwrites : i.opcode.writes = true) : decimalDigit word (i.opcode.arity + 1) ≠ 1 := by
  have hdigits := digits_of_decode h
  have hplace : ∀ p : Place, (Mode.stored p).digit ≠ 1 := by
    intro p
    cases p <;> decide
  cases i with
  | binary op left right destination =>
      simp only [opcode, Opcode.arity, modes, List.range_succ, List.range_zero, List.nil_append,
        List.cons_append, List.map_cons, List.map_nil, List.cons.injEq] at hdigits
      simpa [opcode, Opcode.arity, hdigits] using hplace destination
  | input destination =>
      simp only [opcode, Opcode.arity, modes, List.range_succ, List.range_zero, List.nil_append,
        List.map_cons, List.map_nil, List.cons.injEq] at hdigits
      simpa [opcode, Opcode.arity, hdigits] using hplace destination
  | _ => cases hwrites

/-- No reason applies to an accepted word. -/
theorem not_refused_of_decode {i : Instruction} (h : decode pc word = .ok i) :
    ¬Refused pc word e := by
  have hi := names_of_decode h
  intro hrefused
  cases hrefused with
  | opcode hop => exact hop _ hi
  | @mode op k hop hk hdigit =>
      obtain rfl := hop.unique hi
      have hle := digit_le_of_decode h hk
      omega
  | @destination op hop _ hwrites hliteral =>
      obtain rfl := hop.unique hi
      exact digit_ne_one_of_decode h hwrites hliteral

/-- **A word is refused for the first reason that applies.** -/
theorem decode_eq_error_iff_refused : decode pc word = .error e ↔ Refused pc word e := by
  constructor
  · exact refused_of_decode
  · intro h
    cases hd : decode pc word with
    | ok i => exact absurd h (not_refused_of_decode hd)
    | error f => rw [(refused_of_decode hd).unique h]

/-- A word is accepted if no reason applies to it, with the operation that it names and the modes
that its digits name. -/
theorem exists_decode_of_names (pc : Nat) (hop : Names word op)
    (hmodes : ∀ k < op.arity, decimalDigit word (k + 2) ≤ 2)
    (hplace : ¬(op.writes = true ∧ decimalDigit word (op.arity + 1) = 1)) :
    ∃ i, decode pc word = .ok i ∧ i.opcode = op ∧
      i.modes.map Mode.digit = (List.range op.arity).map fun k => decimalDigit word (k + 2) := by
  cases hd : decode pc word with
  | ok i =>
      obtain rfl := (names_of_decode hd).unique hop
      exact ⟨i, rfl, rfl, (digits_of_decode hd).symm⟩
  | error e =>
      exfalso
      cases refused_of_decode hd with
      | opcode hnone => exact hnone op hop
      | @mode op' k hop' hk hdigit =>
          obtain rfl := hop.unique hop'
          have hle := hmodes k hk
          omega
      | destination hop' _ hwrites hliteral =>
          obtain rfl := hop.unique hop'
          exact hplace ⟨hwrites, hliteral⟩

end Instruction

/-! ### Decoding in memory -/

namespace Memory

open Instruction

/-- The memory that an access leaves, whether or not it succeeds. -/
def leaves {α : Type} : EStateM.Result Fault Memory α → Memory
  | .ok _ m => m
  | .error _ m => m

/-- Decoding at `pc` **fails** with a fault. -/
def Refuses (m : Memory) (pc : Nat) (e : Fault) : Prop := ∃ m', decodeAt pc m = .error e m'

variable {m : Memory} {pc : Nat} {e : Fault}

/-- A word that can be read is refused for the first reason that applies to it. -/
theorem refuses_iff_refused (h : m.InRange pc) : m.Refuses pc e ↔ Refused pc (m.get pc) e := by
  rw [← decode_eq_error_iff_refused]
  constructor
  · rintro ⟨m', hm'⟩
    cases hd : decode pc (m.get pc) with
    | ok i =>
        rw [decodeAt_of_decode h hd] at hm'
        cases hm'
    | error f =>
        rw [decodeAt_of_undecodable h hd] at hm'
        cases hm'
        rfl
  · intro hd
    exact ⟨_, decodeAt_of_undecodable h hd⟩

/-- A word that cannot be read is refused for that. -/
theorem refuses_iff_of_not_inRange (h : ¬m.InRange pc) :
    m.Refuses pc e ↔ e = .addressOutOfRange pc := by
  rw [Refuses, decodeAt_of_not_inRange h]
  constructor
  · rintro ⟨m', hm'⟩
    cases hm'
    rfl
  · rintro rfl
    exact ⟨m, rfl⟩

/-- If the word can be read, memory has its cell afterwards. -/
theorem leaves_decodeAt (h : m.InRange pc) : leaves (decodeAt pc m) = m.extend pc := by
  cases hd : decode pc (m.get pc) with
  | ok i => rw [decodeAt_of_decode h hd, leaves]
  | error e => rw [decodeAt_of_undecodable h hd, leaves]

/-- **To decode once more** gives the same, and changes nothing. -/
theorem decodeAt_leaves (m : Memory) (pc : Nat) :
    decodeAt pc (leaves (decodeAt pc m)) = decodeAt pc m := by
  by_cases h : m.InRange pc
  · have h' : (m.extend pc).InRange pc := (inRange_extend h).2 h
    have hget : (m.extend pc).get pc = m.get pc := get_extend m pc pc
    rw [leaves_decodeAt h]
    cases hd : decode pc (m.get pc) with
    | ok i =>
        rw [decodeAt_of_decode h hd, decodeAt_of_decode h' (hget ▸ hd), extend_extend_self]
    | error e =>
        rw [decodeAt_of_undecodable h hd, decodeAt_of_undecodable h' (hget ▸ hd),
          extend_extend_self]
  · rw [decodeAt_of_not_inRange h, leaves, decodeAt_of_not_inRange h]

/-- **What comes of decoding** the word at `pc`, with the reasons to refuse it in the order in which
they count. -/
structure DecodesByRule (m : Memory) (pc : Nat) : Prop where
  /-- First, the word cannot be read. -/
  outOfRange : m.Refuses pc (.addressOutOfRange pc) ↔ max m.size maxCells ≤ pc
  /-- Otherwise it names no operation, whatever its other digits are. -/
  opcode : pc < max m.size maxCells →
    (m.Refuses pc (.unknownOpcode pc (m.get pc)) ↔
      (m.get pc).toInt < 0 ∨ ∀ op : Opcode, (m.get pc).toInt % 100 ≠ op.code)
  /-- Otherwise a digit that belongs to an operand is above two; the lowest of them is reported. -/
  mode : pc < max m.size maxCells → ∀ op, Names (m.get pc) op → ∀ d,
    (m.Refuses pc (.invalidMode pc d) ↔
      ∃ k < op.arity, d = decimalDigit (m.get pc) (k + 2) ∧ 2 < d ∧
        ∀ j < k, decimalDigit (m.get pc) (j + 2) ≤ 2)
  /-- Otherwise the digit of the destination, where there is one, makes it a literal. -/
  destination : pc < max m.size maxCells → ∀ op, Names (m.get pc) op →
    (∀ k < op.arity, decimalDigit (m.get pc) (k + 2) ≤ 2) →
      (m.Refuses pc (.immediateDestination pc) ↔
        op.writes = true ∧ decimalDigit (m.get pc) (op.arity + 1) = 1)
  /-- Otherwise the word is accepted, with its operation and its modes, and the operands begin in
  the next cell. -/
  accepted : pc < max m.size maxCells → ∀ op, Names (m.get pc) op →
    (∀ k < op.arity, decimalDigit (m.get pc) (k + 2) ≤ 2) →
      ¬(op.writes = true ∧ decimalDigit (m.get pc) (op.arity + 1) = 1) →
        ∃ i m', decodeAt pc m = .ok (i, pc + 1) m' ∧ i.opcode = op ∧
          i.modes.map Mode.digit =
            (List.range op.arity).map fun k => decimalDigit (m.get pc) (k + 2)
  /-- There are no other faults. -/
  faults : ∀ e, m.Refuses pc e → e = .addressOutOfRange pc ∨ e = .unknownOpcode pc (m.get pc) ∨
    (∃ d, e = .invalidMode pc d) ∨ e = .immediateDestination pc
  /-- If the word can be read, memory is extended with zeros to have its cell, and not otherwise
  changed. -/
  grows : pc < max m.size maxCells → m.GrowsTo (leaves (decodeAt pc m)) ∧
    (leaves (decodeAt pc m)).size = max m.size (pc + 1)
  /-- If the word cannot be read, nothing changes. -/
  unchanged : max m.size maxCells ≤ pc → leaves (decodeAt pc m) = m
  /-- To decode once more gives the same result, and leaves the same memory. -/
  again : decodeAt pc (leaves (decodeAt pc m)) = decodeAt pc m

/-- **Decoding in memory** gives one determined result for every word, be it right or wrong in
several ways. -/
theorem decodeAt_by_rule (m : Memory) (pc : Nat) : DecodesByRule m pc where
  outOfRange := by
    by_cases h : m.InRange pc
    · rw [refuses_iff_refused h]
      refine iff_of_false nofun ?_
      exact Nat.not_le.2 h
    · rw [refuses_iff_of_not_inRange h]
      exact iff_of_true rfl (Nat.not_lt.1 h)
  opcode := by
    intro h
    rw [refuses_iff_refused h, refused_unknownOpcode_iff, not_names_iff]
  mode := by
    intro h op hop d
    rw [refuses_iff_refused h, refused_invalidMode_iff hop]
  destination := by
    intro h op hop hmodes
    rw [refuses_iff_refused h, refused_immediateDestination_iff hop hmodes]
  accepted := by
    intro h op hop hmodes hplace
    obtain ⟨i, hd, hopcode, hdigits⟩ := exists_decode_of_names pc hop hmodes hplace
    exact ⟨i, _, decodeAt_of_decode h hd, hopcode, hdigits⟩
  faults := by
    intro e he
    by_cases h : m.InRange pc
    · exact .inr ((refuses_iff_refused h).1 he).cases_fault
    · exact .inl ((refuses_iff_of_not_inRange h).1 he)
  grows := by
    intro h
    rw [leaves_decodeAt h, size_extend]
    exact ⟨growsTo_cover m [pc], rfl⟩
  unchanged := by
    intro h
    rw [decodeAt_of_not_inRange (Nat.not_lt.2 h), leaves]
  again := decodeAt_leaves m pc

/-- An addition with a literal for its destination and two digits that name no mode, one of its
second operand and one past its operands: the digit of the second operand is reported. -/
theorem decodeAt_by_rule_second_mode :
    DecodesByRule ⟨#[99, 714001]⟩ 1 ∧ Names 714001 (.binary .add) ∧
      decodeAt 1 ⟨#[99, 714001]⟩ = .error (.invalidMode 1 4) ⟨#[99, 714001]⟩ ∧
      Refuses ⟨#[99, 714001]⟩ 1 (.invalidMode 1 4) := by
  have hrule := decodeAt_by_rule ⟨#[99, 714001]⟩ 1
  have hnames : Names 714001 (.binary .add) := ⟨by decide, by decide⟩
  refine ⟨hrule, hnames, rfl, (hrule.mode (by decide) _ hnames 4).2 ⟨1, by decide, ?_⟩⟩
  simp [decimalDigit, get]

end Memory

end IntcodeMachine

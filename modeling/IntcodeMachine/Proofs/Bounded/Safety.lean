/-
**Bounded indices are enough.**

The machine of `IntcodeMachine.Proofs.Bounded.Basic` may crash: by a sum of indices that is no
index, by a negative difference, by an index outside its table.  It never does.  The tables of a
word and of memory are safe by themselves, since growth comes before every access and the addresses
that memory grows to are small.  What needs an argument is the program counter.  A jump may set it
to any address that a cell can hold, which is far beyond every memory; but from there it does not
move, because there is nothing to fetch.  After a cell has been fetched it is no larger than memory,
and it stays small until the instruction is over.

So two bounds carry the proof, one for the states between steps and a smaller one for the states
within a step (`Bounded.Sound`), and every action of the machine is shown to do the same with
bounded indices and to lead from the one bound to the other (`Bounded.Tracks`).

Main definitions:

* `Bounded.Sound` — the states in which no index is too large;
* `Bounded.Tracks` — an action with bounded indices does the same as one without;
* `Bounded.CrashFree` — whatever is done next, bounded indices make no difference.

Main results:

* `Bounded.read_eq_lift`, `Bounded.write_eq_lift`, `Bounded.decode_eq_liftExcept` — accesses to
  memory and decoding never crash;
* `Bounded.Tracks.bind`, `Bounded.tracks_fetch`, `Bounded.tracks_execute` — one action after
  another, fetching, and **the effect of an instruction**;
* `Bounded.tracks_step`, `Bounded.run_eq_of_sound`, `Bounded.window_eq_of_sound` — steps, runs and
  the state table;
* `Bounded.session_crashFree` — **no session reaches a state in which the machine crashes**.
-/

import IntcodeMachine.Machine.Lemmas
import IntcodeMachine.Proofs.Bounded.Basic
import IntcodeMachine.Proofs.Session

set_option relaxedAutoImplicit false
set_option autoImplicit false

namespace IntcodeMachine

namespace Bounded

/-! ### One action after another -/

variable {σ α β : Type}

theorem bind_of_ok {x : Action σ α} {f : α → Action σ β} {s t : σ} {v : α} (h : x s = .ok v t) :
    (x >>= f) s = f v t := by
  simp only [bind, EStateM.bind, h]

theorem bind_of_error {x : Action σ α} {f : α → Action σ β} {s t : σ} {e : Stop}
    (h : x s = .error e t) : (x >>= f) s = .error e t := by
  simp only [bind, EStateM.bind, h]

/-! ### Accesses to memory -/

theorem add?_of_lt {a b : Nat} (h : a + b < indexCount) : add? a b = some (a + b) := if_pos h

theorem sub?_of_le {a b : Nat} (h : b ≤ a) : sub? a b = some (a - b) := if_pos h

/-- How far memory has to grow can be computed where it is allowed to. -/
theorem lacking?_of_lt {m : Memory} {a : Nat} (hsize : m.size ≤ a) (ha : a < Memory.maxCells) :
    lacking? m a = some (a + 1 - m.size) := by
  have hmax : Memory.maxCells < indexCount := by decide
  rw [lacking?, add?_of_lt (by omega)]
  exact sub?_of_le (by omega)

theorem reserve_of_inRange {m : Memory} {a : Nat} (h : m.InRange a) :
    reserve a m = .ok () (m.extend a) := by
  unfold reserve Memory.extend
  by_cases ha : a < m.size
  · rw [if_pos ha, if_pos ha]
  · have hlt : a < max m.size Memory.maxCells := h
    rw [if_neg ha, if_neg ha, if_neg (by omega), lacking?_of_lt (by omega) (by omega)]

theorem reserve_of_not_inRange {m : Memory} {a : Nat} (h : ¬m.InRange a) :
    reserve a m = .error (.fault (.addressOutOfRange a)) m := by
  have hle : ¬a < max m.size Memory.maxCells := h
  rw [reserve, if_neg (by omega), if_pos (by omega)]

/-- Growth brings the index into the table. -/
theorem lt_size_extend (m : Memory) (a : Nat) : a < (m.extend a).cells.size := by
  have hsize : (m.extend a).cells.size = max m.size (a + 1) := Memory.size_extend m a
  omega

/-- **A read** never crashes. -/
theorem read_eq_lift (a : Nat) : read a = lift (Memory.read a) := by
  funext m
  by_cases h : m.InRange a
  · have ha := lt_size_extend m a
    rw [read, bind_of_ok (reserve_of_inRange h), load, Array.getElem?_eq_getElem ha, lift,
      Memory.read, if_pos h, ← Memory.get_eq_getElem ha, Memory.get_extend]
    rfl
  · rw [read, bind_of_error (reserve_of_not_inRange h), lift, Memory.read, if_neg h]
    rfl

/-- **A write** never crashes. -/
theorem write_eq_lift (a : Nat) (v : Cell) : write a v = lift (Memory.write a v) := by
  funext m
  by_cases h : m.InRange a
  · have ha := lt_size_extend m a
    rw [write, bind_of_ok (reserve_of_inRange h), store, if_pos ha, lift, Memory.write, if_pos h]
    rfl
  · rw [write, bind_of_error (reserve_of_not_inRange h), lift, Memory.write, if_neg h]
    rfl

theorem read_of_inRange {m : Memory} {a : Nat} (h : m.InRange a) :
    read a m = .ok (m.get a) (m.extend a) := by
  rw [read_eq_lift, lift, Memory.read, if_pos h]
  rfl

theorem read_of_not_inRange {m : Memory} {a : Nat} (h : ¬m.InRange a) :
    read a m = .error (.fault (.addressOutOfRange a)) m := by
  rw [read_eq_lift, lift, Memory.read, if_neg h]
  rfl

/-! ### Instruction words -/

/-- The table of modes of an instruction. -/
def Decoded.ofInstruction : Instruction → Decoded
  | .binary op left right destination => ⟨.binary op, #v[left, right, .stored destination]⟩
  | .input destination => ⟨.input, #v[.stored destination, .stored .position, .stored .position]⟩
  | .output source => ⟨.output, #v[source, .stored .position, .stored .position]⟩
  | .jump test condition target => ⟨.jump test, #v[condition, target, .stored .position]⟩
  | .adjustBase source => ⟨.adjustBase, #v[source, .stored .position, .stored .position]⟩
  | .halt => ⟨.halt, #v[.stored .position, .stored .position, .stored .position]⟩

theorem operandModes?_ofInstruction (i : Instruction) :
    (Decoded.ofInstruction i).operandModes? = some i.modes := by
  cases i <;> rfl

private theorem range_one : List.range (min 1 3) = [0] := rfl

private theorem range_two : List.range (min 2 3) = [0, 1] := rfl

private theorem range_three : List.range (min 3 3) = [0, 1, 2] := rfl

/-- The modes of a word with one operand. -/
theorem decodeModes_one (pc n : Nat) :
    decodeModes pc n 1 = do
      let first ← liftExcept (Instruction.decodeMode pc (Instruction.modeDigit n 0))
      return #v[first, .stored .position, .stored .position] := by
  simp only [decodeModes, range_one, List.foldlM_cons, List.foldlM_nil, bind_assoc, pure_bind]
  rfl

/-- The modes of a word with two operands. -/
theorem decodeModes_two (pc n : Nat) :
    decodeModes pc n 2 = do
      let first ← liftExcept (Instruction.decodeMode pc (Instruction.modeDigit n 0))
      let second ← liftExcept (Instruction.decodeMode pc (Instruction.modeDigit n 1))
      return #v[first, second, .stored .position] := by
  simp only [decodeModes, range_two, List.foldlM_cons, List.foldlM_nil, bind_assoc, pure_bind]
  rfl

/-- The modes of a word with three operands. -/
theorem decodeModes_three (pc n : Nat) :
    decodeModes pc n 3 = do
      let first ← liftExcept (Instruction.decodeMode pc (Instruction.modeDigit n 0))
      let second ← liftExcept (Instruction.decodeMode pc (Instruction.modeDigit n 1))
      let third ← liftExcept (Instruction.decodeMode pc (Instruction.modeDigit n 2))
      return #v[first, second, third] := by
  simp only [decodeModes, range_three, List.foldlM_cons, List.foldlM_nil, bind_assoc, pure_bind]
  rfl

/-- **Decoding** never crashes, and gives the table of modes of the instruction. -/
theorem decode_eq_liftExcept (pc : Nat) (word : Cell) :
    decode pc word = liftExcept ((Instruction.decode pc word).map Decoded.ofInstruction) := by
  unfold decode Instruction.decode
  dsimp only
  cases Instruction.decodeOpcode pc word with
  | error e => rfl
  | ok op =>
      generalize word.toInt.toNat = n
      change (decodeModes pc n op.arity >>= fun modes => do
        checkDestination pc op modes
        return (⟨op, modes⟩ : Decoded)) = _
      -- both sides stop at the first digit that is no mode
      cases op with
      | binary op =>
          rw [Opcode.arity, decodeModes_three]
          cases Instruction.decodeMode pc (Instruction.modeDigit n 0) with
          | error e => rfl
          | ok first =>
              cases Instruction.decodeMode pc (Instruction.modeDigit n 1) with
              | error e => rfl
              | ok second =>
                  cases Instruction.decodeMode pc (Instruction.modeDigit n 2) with
                  | error e => rfl
                  | ok third => cases third <;> rfl
      | input =>
          rw [Opcode.arity, decodeModes_one]
          cases Instruction.decodeMode pc (Instruction.modeDigit n 0) with
          | error e => rfl
          | ok first => cases first <;> rfl
      | output =>
          rw [Opcode.arity, decodeModes_one]
          cases Instruction.decodeMode pc (Instruction.modeDigit n 0) <;> rfl
      | jump test =>
          rw [Opcode.arity, decodeModes_two]
          cases Instruction.decodeMode pc (Instruction.modeDigit n 0) with
          | error e => rfl
          | ok first => cases Instruction.decodeMode pc (Instruction.modeDigit n 1) <;> rfl
      | adjustBase =>
          rw [Opcode.arity, decodeModes_one]
          cases Instruction.decodeMode pc (Instruction.modeDigit n 0) <;> rfl
      | halt => rfl

/-! ### Sound states -/

/-- The 60th power of two; a program has fewer cells. -/
def sizeLimit : Nat := 1152921504606846976

/-- The 63rd power of two; every cell that is an address is below it. -/
def counterLimit : Nat := 9223372036854775808

/-- A state is **sound** up to `limit` when memory is neither empty nor too large, and the program
counter is below `limit`. -/
structure Sound (limit : Nat) (m : Machine) : Prop where
  size_pos : 0 < m.memory.size
  size_lt : m.memory.size < sizeLimit
  pc_lt : m.pc < limit

/-- The states **within** a step, once a cell has been fetched. -/
abbrev Within : Machine → Prop := Sound (sizeLimit + 1)

variable {m : Machine} {limit limit' a : Nat}

theorem Sound.mono (h : Sound limit m) (hle : limit ≤ limit') : Sound limit' m :=
  ⟨h.size_pos, h.size_lt, Nat.lt_of_lt_of_le h.pc_lt hle⟩

theorem within_le : sizeLimit + 1 ≤ counterLimit := by decide

/-- An address in range is small. -/
theorem Sound.lt_of_inRange (h : Sound limit m) (ha : m.memory.InRange a) : a < sizeLimit := by
  have hsize := h.size_lt
  have hmax : Memory.maxCells < sizeLimit := by decide
  have ha : a < max m.memory.size Memory.maxCells := ha
  omega

/-- Growth to an address in range keeps memory small. -/
theorem Sound.of_size {memory : Memory} (h : Sound limit m) (ha : m.memory.InRange a)
    (hsize : memory.size = max m.memory.size (a + 1)) : Sound limit { m with memory } := by
  have hpos := h.size_pos
  have hlt := h.size_lt
  have hmax : Memory.maxCells < sizeLimit := by decide
  have ha : a < max m.memory.size Memory.maxCells := ha
  refine ⟨?_, ?_, h.pc_lt⟩
  · show 0 < memory.size
    omega
  · show memory.size < sizeLimit
    omega

theorem Sound.extend (h : Sound limit m) (ha : m.memory.InRange a) :
    Sound limit { m with memory := m.memory.extend a } :=
  h.of_size ha (Memory.size_extend _ _)

theorem Sound.set (h : Sound limit m) (ha : m.memory.InRange a) (v : Cell) :
    Sound limit { m with memory := m.memory.set a v } :=
  h.of_size ha (Memory.size_set _ _ _)

/-- **Fetching a cell leaves the program counter small**, wherever it was allowed to stand. -/
theorem Sound.advance (h : Sound limit m) (hr : m.memory.InRange m.pc) : Within m.advance := by
  have hextend := h.extend hr
  have hpc := h.lt_of_inRange hr
  refine ⟨hextend.size_pos, hextend.size_lt, ?_⟩
  rw [Machine.advance_pc]
  omega

/-! ### Doing the same -/

/-- Started in a state with `P`, the action `y` with bounded indices **does the same** as `x`, so
that it does not crash.  A result is followed by `Q`; a fault leaves a state that is sound between
steps. -/
def Tracks (P : Machine → Prop) (y : Exec α) (x : Machine.Exec α) (Q : α → Machine → Prop) : Prop :=
  ∀ m, P m → y m = lift x m ∧
    match x m with
    | .ok v n => Q v n
    | .error _ n => Sound counterLimit n

variable {P : Machine → Prop} {Q : α → Machine → Prop} {R : β → Machine → Prop}

/-- An action that computes no index. -/
theorem tracks_lift {x : Machine.Exec α}
    (h : ∀ m, P m →
      match x m with
      | .ok v n => Q v n
      | .error _ n => Sound counterLimit n) : Tracks P (lift x) x Q :=
  fun m hm => ⟨rfl, h m hm⟩

/-- **One action after another.** -/
theorem Tracks.bind {y : Exec α} {x : Machine.Exec α} {g : α → Exec β} {f : α → Machine.Exec β}
    (h : Tracks P y x Q) (hf : ∀ v, Tracks (Q v) (g v) (f v) R) :
    Tracks P (y >>= g) (x >>= f) R := by
  intro m hm
  obtain ⟨hy, hQ⟩ := h m hm
  cases hx : x m with
  | ok v n =>
      rw [hx] at hQ
      rw [lift, hx] at hy
      rw [bind_of_ok hy, lift, Machine.bind_of_ok hx]
      exact hf v n hQ
  | error e n =>
      rw [hx] at hQ
      rw [lift, hx] at hy
      rw [bind_of_error hy, lift, Machine.bind_of_error hx]
      exact ⟨rfl, hQ⟩

/-- The end of an instruction. -/
theorem tracks_end (s : Machine.Status) (h : ∀ m, P m → Sound counterLimit m) :
    Tracks P (return s) (return s) fun _ => Sound counterLimit :=
  fun m hm => ⟨rfl, h m hm⟩

/-! ### Actions on memory and on the program counter -/

theorem onMemory_of_ok {x : Action Memory α} {v : α} {memory : Memory}
    (h : x m.memory = .ok v memory) : onMemory x m = .ok v { m with memory } := by
  rw [onMemory, h]

theorem onMemory_of_error {x : Action Memory α} {e : Stop} {memory : Memory}
    (h : x m.memory = .error e memory) : onMemory x m = .error e { m with memory } := by
  rw [onMemory, h]

theorem onMemory_lift (x : Memory.Action α) : onMemory (lift x) = lift (Machine.onMemory x) := by
  funext m
  simp only [onMemory, lift]
  cases hx : x m.memory with
  | ok v memory =>
      rw [Machine.onMemory_of_ok hx]
      rfl
  | error e memory =>
      rw [Machine.onMemory_of_error hx]
      rfl

theorem tracks_read (a : Nat) (hle : limit ≤ counterLimit) :
    Tracks (Sound limit) (onMemory (read a)) (Machine.onMemory (Memory.read a))
      fun _ => Sound limit := by
  rw [read_eq_lift, onMemory_lift]
  refine tracks_lift ?_
  intro m hm
  by_cases ha : m.memory.InRange a
  · rw [Machine.onMemory_read_of_inRange ha]
    exact hm.extend ha
  · rw [Machine.onMemory_read_of_not_inRange ha]
    exact hm.mono hle

theorem tracks_write (a : Nat) (v : Cell) (hle : limit ≤ counterLimit) :
    Tracks (Sound limit) (onMemory (write a v)) (Machine.onMemory (Memory.write a v))
      fun _ => Sound limit := by
  rw [write_eq_lift, onMemory_lift]
  refine tracks_lift ?_
  intro m hm
  by_cases ha : m.memory.InRange a
  · rw [Machine.onMemory_write_of_inRange ha]
    exact hm.set ha v
  · rw [Machine.onMemory_write_of_not_inRange ha]
    exact hm.mono hle

/-- The address after the program counter is an index, wherever the program counter may stand. -/
theorem skip_of_lt (h : m.pc < counterLimit) : skip m = .ok () { m with pc := m.pc + 1 } := by
  have hlimit : counterLimit < indexCount := by decide
  rw [skip, bind_of_ok (show lift Machine.counter m = .ok m.pc m from rfl), add?_of_lt (by omega)]
  rfl

/-- **Fetching a cell**, from a state between steps or within one, leads into the step. -/
theorem tracks_fetch (hle : limit ≤ counterLimit) :
    Tracks (Sound limit) fetch Machine.fetch fun _ => Within := by
  intro m hm
  have hcounter : lift Machine.counter m = .ok m.pc m := rfl
  by_cases hr : m.memory.InRange m.pc
  · have hread := onMemory_of_ok (read_of_inRange hr)
    have hskip := @skip_of_lt { m with memory := m.memory.extend m.pc } (hm.mono hle).pc_lt
    rw [fetch, bind_of_ok hcounter, bind_of_ok hread, bind_of_ok hskip, lift,
      Machine.fetch_of_inRange hr]
    exact ⟨rfl, hm.advance hr⟩
  · have hread := onMemory_of_error (read_of_not_inRange hr)
    rw [fetch, bind_of_ok hcounter, bind_of_error hread, lift, Machine.fetch_of_not_inRange hr]
    exact ⟨rfl, hm.mono hle⟩

theorem tracks_skip : Tracks Within skip Machine.skip fun _ => Sound counterLimit := by
  intro m hm
  have hpc := hm.pc_lt
  have hlimit : sizeLimit + 2 ≤ counterLimit := by decide
  rw [skip_of_lt (hm.mono within_le).pc_lt, lift, Machine.skip_eq]
  refine ⟨rfl, hm.size_pos, hm.size_lt, ?_⟩
  show m.pc + 1 < counterLimit
  omega

/-! ### Operands and instructions -/

/-- An action that yields a value or a fault, and leaves the state alone. -/
theorem tracks_pure {x : Machine.Exec α} (h : ∀ m, (∃ v, x m = .ok v m) ∨ ∃ e, x m = .error e m) :
    Tracks Within (lift x) x fun _ => Within := by
  refine tracks_lift ?_
  intro m hm
  rcases h m with ⟨v, hx⟩ | ⟨e, hx⟩
  · rw [hx]
    exact hm
  · rw [hx]
    exact hm.mono within_le

theorem tracks_ofExcept (r : Except Fault α) :
    Tracks Within (lift (Machine.ofExcept r)) (Machine.ofExcept r) fun _ => Within := by
  refine tracks_pure ?_
  intro m
  cases r with
  | ok v => exact .inl ⟨v, rfl⟩
  | error e => exact .inr ⟨e, rfl⟩

theorem tracks_orFault (e : Fault) (r : Option α) :
    Tracks Within (lift (Machine.orFault e r)) (Machine.orFault e r) fun _ => Within := by
  refine tracks_pure ?_
  intro m
  cases r with
  | some v => exact .inl ⟨v, rfl⟩
  | none => exact .inr ⟨e, rfl⟩

theorem tracks_base : Tracks Within (lift Machine.base) Machine.base fun _ => Within :=
  tracks_lift fun _ hm => hm

theorem tracks_receive (pc : Nat) :
    Tracks Within (lift (Machine.receive pc)) (Machine.receive pc) fun _ => Within := by
  refine tracks_lift ?_
  intro m hm
  cases hnext : m.input.next with
  | some r =>
      simp only [Machine.receive, hnext]
      exact ⟨hm.size_pos, hm.size_lt, hm.pc_lt⟩
  | none =>
      simp only [Machine.receive, hnext]
      exact hm.mono within_le

theorem tracks_designate (pc : Nat) (place : Place) :
    Tracks Within (designate pc place) (Machine.designate pc place) fun _ => Within := by
  refine (tracks_fetch within_le).bind fun literal => ?_
  refine tracks_base.bind fun base => ?_
  exact tracks_ofExcept _

theorem tracks_source (pc : Nat) (mode : Mode) :
    Tracks Within (source pc mode) (Machine.source pc mode) fun _ => Within := by
  cases mode with
  | immediate => exact tracks_fetch within_le
  | stored place => exact (tracks_designate pc place).bind fun a => tracks_read a within_le

/-- A cell that is an address is below the limit of the program counter. -/
theorem lt_of_ofCell {v : Cell} (h : Address.ofCell v = .ok a) : a < counterLimit := by
  have ha : Address.ofCell? v = some a := by
    unfold Address.ofCell at h
    split at h
    · next b hb =>
        cases h
        exact hb
    · cases h
  have hv := v.toInt_lt
  have hva := Address.ofCell?_eq_some_iff.1 ha
  unfold counterLimit
  omega

/-- The target of a jump that is taken. -/
theorem tracks_target (v : Cell) :
    Tracks Within (lift (Machine.ofExcept (Address.ofCell v)))
      (Machine.ofExcept (Address.ofCell v)) fun a m => a < counterLimit ∧ Within m := by
  refine tracks_lift ?_
  intro m hm
  cases h : Address.ofCell v with
  | ok a => exact ⟨lt_of_ofCell h, hm⟩
  | error e => exact hm.mono within_le

theorem tracks_jumpTo (a : Nat) :
    Tracks (fun m => a < counterLimit ∧ Within m) (lift (Machine.jumpTo a)) (Machine.jumpTo a)
      fun _ => Sound counterLimit :=
  tracks_lift fun _ hm => ⟨hm.2.size_pos, hm.2.size_lt, hm.1⟩

/-- **The effect of an instruction** is the same with bounded indices. -/
theorem tracks_execute (pc : Nat) (i : Instruction) :
    Tracks Within (execute pc (Decoded.ofInstruction i)) (Machine.execute pc i)
      fun _ => Sound counterLimit := by
  have hend : ∀ m, Within m → Sound counterLimit m := fun m hm => hm.mono within_le
  cases i with
  | binary op left right place =>
      refine (tracks_source pc left).bind fun a => ?_
      refine (tracks_source pc right).bind fun b => ?_
      refine (tracks_designate pc place).bind fun target => ?_
      refine (tracks_orFault _ _).bind fun result => ?_
      exact (tracks_write target result within_le).bind fun _ => tracks_end _ hend
  | input place =>
      refine (tracks_designate pc place).bind fun target => ?_
      refine (tracks_receive pc).bind fun value => ?_
      exact (tracks_write target value within_le).bind fun _ => tracks_end _ hend
  | output mode =>
      refine (tracks_source pc mode).bind fun value => ?_
      refine Tracks.bind (Q := fun _ => Within) ?_ fun _ => tracks_end _ hend
      exact tracks_lift fun _ hm => ⟨hm.size_pos, hm.size_lt, hm.pc_lt⟩
  | jump test condition target =>
      refine (tracks_source pc condition).bind fun value => ?_
      cases ht : test.holds value with
      | true =>
          simp only [if_true]
          refine (tracks_source pc target).bind fun v => ?_
          refine (tracks_target v).bind fun a => ?_
          exact (tracks_jumpTo a).bind fun _ => tracks_end _ fun _ hm => hm
      | false =>
          simp only [Bool.false_eq_true, if_false]
          exact tracks_skip.bind fun _ => tracks_end _ fun _ hm => hm
  | adjustBase mode =>
      refine (tracks_source pc mode).bind fun offset => ?_
      refine tracks_base.bind fun base => ?_
      refine (tracks_orFault _ _).bind fun sum => ?_
      refine Tracks.bind (Q := fun _ => Within) ?_ fun _ => tracks_end _ hend
      exact tracks_lift fun _ hm => ⟨hm.size_pos, hm.size_lt, hm.pc_lt⟩
  | halt =>
      refine Tracks.bind (Q := fun _ => Within) ?_ fun _ => tracks_end _ hend
      exact tracks_lift fun _ hm => ⟨hm.size_pos, hm.size_lt, hm.pc_lt⟩

/-! ### Steps, runs and patches -/

theorem decodeAt_of_not_inRange {memory : Memory} {pc : Nat} (h : ¬memory.InRange pc) :
    decodeAt pc memory = .error (.fault (.addressOutOfRange pc)) memory := by
  rw [decodeAt, bind_of_error (read_of_not_inRange h)]

theorem decodeAt_of_undecodable {memory : Memory} {pc : Nat} {e : Fault} (h : memory.InRange pc)
    (hd : Instruction.decode pc (memory.get pc) = .error e) :
    decodeAt pc memory = .error (.fault e) (memory.extend pc) := by
  rw [decodeAt, bind_of_ok (read_of_inRange h), decode_eq_liftExcept, hd]
  rfl

theorem decodeAt_of_decode {memory : Memory} {pc : Nat} {i : Instruction} (h : memory.InRange pc)
    (hd : Instruction.decode pc (memory.get pc) = .ok i) (hpc : pc < counterLimit) :
    decodeAt pc memory = .ok (Decoded.ofInstruction i, pc + 1) (memory.extend pc) := by
  have hlimit : counterLimit < indexCount := by decide
  rw [decodeAt, bind_of_ok (read_of_inRange h), decode_eq_liftExcept, hd, add?_of_lt (by omega)]
  rfl

theorem step_of_running (h : m.halted = false) :
    step m = (onMemory (decodeAt m.pc) >>= fun r => do
      lift (Machine.jumpTo r.2)
      let _ ← orCrash r.1.operandModes?
      execute m.pc r.1) m := by
  have hrunning : lift Machine.requireRunning m = .ok () m := by
    rw [lift, Machine.requireRunning, h]
    rfl
  rw [step, bind_of_ok hrunning, bind_of_ok (show lift Machine.counter m = .ok m.pc m from rfl)]

/-- **A step** is the same with bounded indices, and leads from a sound state to a sound state. -/
theorem tracks_step :
    Tracks (Sound counterLimit) step Machine.step fun _ => Sound counterLimit := by
  intro m hm
  cases hh : m.halted with
  | true =>
      have hrefused : lift Machine.requireRunning m = .error (.fault .alreadyHalted) m := by
        rw [lift, Machine.requireRunning, hh]
        rfl
      rw [step, bind_of_error hrefused, lift, Machine.step_of_halted hh]
      exact ⟨rfl, hm⟩
  | false =>
      rw [step_of_running hh, lift]
      by_cases hr : m.memory.InRange m.pc
      · cases hd : Instruction.decode m.pc (m.memory.get m.pc) with
        | error e =>
            rw [bind_of_error (onMemory_of_error (decodeAt_of_undecodable hr hd)),
              Machine.step_of_undecodable hh hr hd]
            exact ⟨rfl, hm.extend hr⟩
        | ok i =>
            have hexecute := tracks_execute m.pc i m.advance (hm.advance hr)
            rw [bind_of_ok (onMemory_of_ok (decodeAt_of_decode hr hd hm.pc_lt)),
              Machine.step_of_decode hh hr hd, operandModes?_ofInstruction]
            exact hexecute
      · rw [bind_of_error (onMemory_of_error (decodeAt_of_not_inRange hr)),
          Machine.step_of_not_inRange hh hr]
        exact ⟨rfl, hm⟩

/-- **A run** is the same with bounded indices. -/
theorem run_eq_of_sound (h : Sound counterLimit m) (n : Nat) :
    run n m = (Machine.run n m).map liftResult := by
  induction n generalizing m with
  | zero => rfl
  | succ n ih =>
      obtain ⟨hstep, hsound⟩ := tracks_step m h
      rw [lift] at hstep
      rw [run, hstep, Machine.run]
      cases hs : Machine.step m with
      | ok s m' =>
          rw [hs] at hsound
          cases s with
          | running => exact ih hsound
          | halted => rfl
      | error e m' => rfl

theorem patch_eq_lift (a : Nat) (v : Cell) : patch a v = lift (Machine.patch a v) := by
  rw [patch, write_eq_lift, onMemory_lift]
  rfl

/-! ### The state table -/

private theorem mapM_of_forall {f : α → Option β} {g : α → β} {l : List α}
    (h : ∀ x ∈ l, f x = some (g x)) : l.mapM f = some (l.map g) := by
  induction l with
  | nil => rfl
  | cons x l ih =>
      have hx := h x List.mem_cons_self
      have hl := ih fun y hy => h y (List.mem_cons_of_mem x hy)
      rw [List.mapM_cons, hx, hl]
      rfl

/-- The cells of a slice, each with its address. -/
theorem slice_zipIdx {memory : Memory} {start stop : Nat} (hstop : stop ≤ memory.size) :
    (((memory.cells.toList.drop start).take (stop - start)).zipIdx.map fun x =>
        (x.2 + start, x.1)) =
      (List.range' start (stop - start)).map fun a => (a, memory.get a) := by
  have hsize : memory.size = memory.cells.size := rfl
  refine List.ext_getElem ?_ ?_
  · simp
    omega
  · intro i h₁ h₂
    have hi : i < stop - start := by simpa using h₂
    have hlt : start + i < memory.cells.size := by omega
    simp [Memory.get_eq_getElem hlt, Nat.add_comm i start]

/-- **The state table** shows the same cells with bounded indices. -/
theorem window_eq_of_sound (h : Sound counterLimit m) : window m = some m.window := by
  have hpc := h.pc_lt
  have hsize := h.size_lt
  have hcells : m.memory.size = m.memory.cells.size := rfl
  have hcounter : counterLimit + 9 < indexCount := by decide
  have hlimit : sizeLimit < indexCount := by decide
  have hradius : Machine.windowRadius = 8 := rfl
  unfold window
  rw [add?_of_lt (by omega), Option.bind_eq_bind, Option.bind_some, add?_of_lt (by omega),
    Option.bind_eq_bind, Option.bind_some, slice?, if_pos (by omega), Option.bind_some,
    Machine.window, ← slice_zipIdx (Nat.min_le_right _ _)]
  refine mapM_of_forall ?_
  rintro ⟨v, i⟩ hi
  have hlt := List.snd_lt_of_mem_zipIdx hi
  rw [List.length_take, List.length_drop, Array.length_toList] at hlt
  simp only
  rw [add?_of_lt (by omega)]
  rfl

/-! ### Sessions -/

variable {p : List Cell} {input : Input} {m' : Machine}

/-- A program that is not too long starts in a sound state. -/
theorem sound_of_load (hp : p.length < sizeLimit) (h : Machine.load p input = .ok m) :
    Sound counterLimit m := by
  have hsize := Machine.size_of_load h
  unfold Machine.load Memory.ofProgram? at h
  split at h
  · next memory hmemory =>
      split at hmemory
      · cases hmemory
      · next hne =>
          cases h
          have hpos : 0 < p.length := List.length_pos_iff.2 (by simpa using hne)
          exact ⟨by omega, by omega, show 0 < counterLimit by decide⟩
  · cases h

/-- Several steps lead from a sound state to a sound state. -/
theorem Sound.steps (h : Sound counterLimit m) (k : Nat) :
    Sound counterLimit (m.after (List.replicate k .step)) := by
  induction k generalizing m with
  | zero => exact h
  | succ k ih =>
      refine ih ?_
      have hstep := (tracks_step m h).2
      rw [Machine.perform_step_snd]
      cases hs : Machine.step m with
      | ok s n =>
          rw [hs] at hstep
          exact hstep
      | error e n =>
          rw [hs] at hstep
          exact hstep

/-- A patch leads from a sound state to a sound state. -/
theorem Sound.patch (h : Sound counterLimit m) (a : Nat) (v : Cell) :
    Sound counterLimit (Machine.endState (Machine.patch a v m)) := by
  have hpatch := (tracks_write a v (Nat.le_refl _) m h).2
  unfold Machine.patch
  cases hs : Machine.onMemory (Memory.patch a v) m with
  | ok s n =>
      rw [hs] at hpatch
      exact hpatch
  | error e n =>
      rw [hs] at hpatch
      exact hpatch

/-- A run leads from a sound state to a sound state. -/
theorem Sound.run (h : Sound counterLimit m) {n : Nat} {result : Array Cell → Except Fault α}
    {answer : α → Answer} {r : Answer}
    (hr : ((Machine.run n m).map (Machine.finish result)).map (Machine.answered answer) =
      some (r, m')) : Sound counterLimit m' := by
  rw [Option.map_map, Option.map_eq_some_iff] at hr
  obtain ⟨o, ho, hr⟩ := hr
  rw [Machine.endState_of_answered hr, Machine.endState_finish, Machine.endState_of_run ho]
  exact h.steps _

/-- A call, of whatever kind, leads from a sound state to a sound state. -/
theorem Sound.call (h : Sound counterLimit m) {n : Nat} {c : Call} {r : Answer}
    (hc : m.call n c = some (r, m')) : Sound counterLimit m' := by
  cases c with
  | step =>
      rw [Machine.endState_of_answered (Option.some.inj hc), ← Machine.perform_step_snd]
      exact h.steps 1
  | run => exact h.run hc
  | runValues => exact h.run hc
  | patch a v =>
      rw [Machine.endState_of_answered (Option.some.inj hc)]
      exact h.patch a v

/-- **Every state of a session is sound**, if the first is. -/
theorem Sound.session {es : List Event} (h : Sound counterLimit m)
    (hs : Machine.Session m es m') : Sound counterLimit m' := by
  induction hs with
  | nil m => exact h
  | cons hc _ ih => exact ih (h.call hc)

/-- Whatever is done next in the state `m`, every index can be computed and none lies outside its
table: with bounded indices the machine **does the same**, and so does not crash. -/
structure CrashFree (m : Machine) : Prop where
  step : step m = lift Machine.step m
  run : ∀ n, run n m = (Machine.run n m).map liftResult
  patch : ∀ a v, patch a v m = lift (Machine.patch a v) m
  window : window m = some m.window

theorem Sound.crashFree (h : Sound counterLimit m) : CrashFree m where
  step := (tracks_step m h).1
  run := run_eq_of_sound h
  patch a v := by rw [patch_eq_lift]
  window := window_eq_of_sound h

/-- **No session reaches a state in which the machine crashes**: if the program has fewer cells than
the 60th power of two, then in every state that a session reaches memory is not empty, the program
counter is below the 63rd power of two, and bounded indices make no difference to what can be done
next. -/
theorem session_crashFree {p : List Cell} {input : Input} {m₀ m : Machine} {es : List Event}
    (hp : p.length < 1152921504606846976) (hload : Machine.load p input = .ok m₀)
    (hs : Machine.Session m₀ es m) :
    0 < m.memory.size ∧ m.pc ≤ 9223372036854775807 ∧ CrashFree m := by
  have h := (sound_of_load hp hload).session hs
  exact ⟨h.size_pos, Nat.le_of_lt_succ h.pc_lt, h.crashFree⟩

/-- A jump to the largest address that a cell can hold, and a step from there, which is refused. -/
theorem session_crashFree_far_jump :
    ∃ m₀ m es, Machine.load [1105, 1, 9223372036854775807] (.queue []) = .ok m₀ ∧
      Machine.Session m₀ es m ∧
      es.map Event.answer = [.status .running, .fault (.addressOutOfRange 9223372036854775807)] ∧
      m.pc = 9223372036854775807 ∧ CrashFree m := by
  have hload : Machine.load [1105, 1, 9223372036854775807] (.queue []) =
      .ok { memory := ⟨#[1105, 1, 9223372036854775807]⟩, input := .queue [] } := rfl
  have hs := Machine.Session.cons
    (m := { memory := ⟨#[1105, 1, 9223372036854775807]⟩, input := .queue [] })
    (n := 0) (c := .step) rfl (.cons (n := 0) (c := .step) rfl (.nil _))
  exact ⟨_, _, _, hload, hs, rfl, rfl, (session_crashFree (by decide) hload hs).2.2⟩

end Bounded

end IntcodeMachine

/-
**A program that echoes a line.**

The program reads a value into the cell behind its end, puts it out, compares it with a line feed,
and begins again unless it was one.  Fed with lines of text, it puts out the first of them, line
feed included, and halts; the other lines are left in the queue.

The loop has an invariant, `Echo.Stands`: the program stands in memory as it was loaded, and memory
has at most two cells behind it.  The first round begins without these cells and the later ones with
them, which is why the invariant says nothing about what they hold.  A round takes four steps and
consumes one value (`Echo.exists_round`), and an induction over the values up to the first line feed
gives the whole run.

Main definitions:

* `Echo.program` — the program;
* `Echo.state` — its states;
* `Echo.Stands` — **the invariant of the loop**.

Main results:

* `Echo.exists_round` — a round of the loop;
* `Echo.exists_rounds` — all rounds up to the first line feed;
* `Echo.echoes_first_line` — **the first line is echoed**, and the others are left.
-/

import IntcodeMachine.Proofs.Runs
import IntcodeMachine.Proofs.Step.Rules
import IntcodeMachine.Proofs.Text.RoundTrip

set_option relaxedAutoImplicit false
set_option autoImplicit false

namespace IntcodeMachine

namespace Echo

open Machine

/-- **The program**: read a value into the cell 12, put it out, record in the cell 13 whether it is
a line feed, and go back to the start if it is none. -/
def program : List Cell := [3, 12, 4, 12, 1008, 12, 10, 13, 1006, 13, 0, 99]

/-- A state of the program, with the values `q` in the queue. -/
def state (pc : Nat) (memory : Memory) (q : List Cell) (output : Array Cell) : Machine :=
  { memory, pc, input := .queue q, output }

/-- **The invariant of the loop**: the program stands in memory, with at most two cells behind. -/
structure Stands (memory : Memory) : Prop where
  word : ∀ k < 12, memory.get k = program.getD k 0
  size_le : memory.size ≤ 14

variable {memory memory' : Memory} {pc : Nat} {q : List Cell} {output : Array Cell} {v : Cell}

/-! ### The invariant -/

theorem stands_program : Stands ⟨program.toArray⟩ where
  word := by
    intro k _
    simp [Memory.get]
  size_le := by decide

namespace Stands

/-- Growth to the two cells behind the program keeps the invariant. -/
theorem of_growsWithin (h : Stands memory) (hgrows : memory.GrowsWithin 14 memory') :
    Stands memory' where
  word := by
    intro k hk
    rw [hgrows.growsTo.get_eq, h.word k hk]
  size_le := by
    have hbefore := h.size_le
    have hafter := hgrows.size_le
    omega

/-- Storing into one of the two cells behind the program keeps the invariant. -/
theorem set (h : Stands memory) {a : Nat} (ha : 12 ≤ a) (ha' : a < 14) (v : Cell) :
    Stands (memory.set a v) where
  word := by
    intro k hk
    rw [Memory.get_set_of_ne _ _ (by omega), h.word k hk]
  size_le := by
    have hsize := h.size_le
    rw [Memory.size_set]
    omega

/-- A step of the program finds the instruction that was loaded. -/
theorem finds (h : Stands memory) {i : Instruction} (hpc : pc + 1 + i.opcode.arity ≤ 12)
    (hd : Instruction.decode pc (program.getD pc 0) = .ok i) :
    Finds 14 (state pc memory q output) i where
  running := rfl
  decode := by
    rw [← h.word pc (by omega)] at hd
    exact hd
  past_le := Nat.le_trans hpc (by decide)
  bound_le := Nat.le_trans (by decide) (Nat.le_max_right _ _)

theorem literal_eq (h : Stands memory) {k : Nat} (hk : pc + k < 12) :
    (state pc memory q output).literal k = program.getD (pc + k) 0 := h.word (pc + k) hk

/-- An operand of the program designates the address that was loaded. -/
theorem designates (h : Stands memory) {k a : Nat} (hk : pc + k < 12) (ha : a < 14)
    (hliteral : (program.getD (pc + k) 0).toInt = (a : Int)) :
    (state pc memory q output).Designates 14 k .position a := by
  rw [← h.literal_eq hk] at hliteral
  exact designates_position hliteral ha

/-- An operand of the program reads as the value that was loaded. -/
theorem reads_immediate (h : Stands memory) {k : Nat} (hk : pc + k < 12) :
    (state pc memory q output).Reads 14 k .immediate (program.getD (pc + k) 0) := by
  rw [← h.literal_eq hk]
  exact .immediate

end Stands

/-! ### The instructions -/

/-- A value is read into the cell 12. -/
theorem step_read (h : Stands memory) :
    ∃ memory', step (state 0 memory (v :: q) output) = .ok .running (state 2 memory' q output) ∧
      Stands memory' ∧ memory'.get 12 = v := by
  have hfinds : Finds 14 (state 0 memory (v :: q) output) (.input .position) :=
    h.finds (by decide) rfl
  obtain ⟨memory', hgrows, hstep⟩ :=
    hfinds.input (h.designates (a := 12) (by decide) (by decide) rfl) rfl
  exact ⟨_, hstep, (h.of_growsWithin hgrows).set (by decide) (by decide) v,
    Memory.get_set_self _ _ _⟩

/-- The value is put out. -/
theorem step_write (h : Stands memory) (hv : memory.get 12 = v) :
    ∃ memory', step (state 2 memory q output) =
        .ok .running (state 4 memory' q (output.push v)) ∧
      Stands memory' ∧ memory'.get 12 = v := by
  have hfinds : Finds 14 (state 2 memory q output) (.output (.stored .position)) :=
    h.finds (by decide) rfl
  obtain ⟨memory', hgrows, hstep⟩ :=
    hfinds.output (.stored (h.designates (a := 12) (by decide) (by decide) rfl))
  rw [← hv]
  exact ⟨_, hstep, h.of_growsWithin hgrows, hgrows.growsTo.get_eq 12⟩

/-- The cell 13 records whether the value is a line feed. -/
theorem step_compare (h : Stands memory) (hv : memory.get 12 = v) :
    ∃ memory', step (state 4 memory q output) = .ok .running (state 8 memory' q output) ∧
      Stands memory' ∧ 14 ≤ memory'.size ∧ memory'.get 13 = Cell.ofBool (decide (v = 10)) := by
  have hfinds : Finds 14 (state 4 memory q output)
      (.binary .equals (.stored .position) .immediate .position) := h.finds (by decide) rfl
  obtain ⟨memory', hgrows, hstep⟩ :=
    hfinds.binary (.stored (h.designates (a := 12) (by decide) (by decide) rfl))
      (h.reads_immediate (by decide)) (h.designates (a := 13) (by decide) (by decide) rfl) rfl
  rw [← hv]
  refine ⟨_, hstep, (h.of_growsWithin hgrows).set (by decide) (by decide) _, ?_,
    Memory.get_set_self _ _ _⟩
  rw [Memory.size_set]
  omega

/-- The program goes back to the start, unless the value was a line feed. -/
theorem step_repeat (h : Stands memory) (hsize : 14 ≤ memory.size)
    (hflag : memory.get 13 = Cell.ofBool (decide (v = 10))) :
    ∃ memory', step (state 8 memory q output) =
        .ok .running (state (if v = 10 then 11 else 0) memory' q output) ∧
      Stands memory' ∧ 14 ≤ memory'.size := by
  have hfinds : Finds 14 (state 8 memory q output)
      (.jump .zero (.stored .position) .immediate) := h.finds (by decide) rfl
  have hread : (state 8 memory q output).Reads 14 1 (.stored .position) (memory.get 13) :=
    .stored (h.designates (by decide) (by decide) rfl)
  rw [hflag] at hread
  by_cases hv : v = 10
  · obtain ⟨memory', hgrows, hstep⟩ := hfinds.jumpUntaken hread (by simp [hv]; rfl)
    rw [if_pos hv]
    exact ⟨_, hstep, h.of_growsWithin hgrows, Nat.le_trans hsize hgrows.growsTo.size_le⟩
  · obtain ⟨memory', hgrows, hstep⟩ :=
      hfinds.jumpTaken (a := 0) hread (by simp [hv]; rfl) (h.reads_immediate (by decide)) rfl
    rw [if_neg hv]
    exact ⟨_, hstep, h.of_growsWithin hgrows, Nat.le_trans hsize hgrows.growsTo.size_le⟩

/-- Behind the loop the program halts. -/
theorem step_halt (h : Stands memory) (hsize : 14 ≤ memory.size) :
    ∃ m', step (state 11 memory q output) = .ok .halted m' ∧ m'.output = output ∧
      m'.halted = true ∧ m'.pc = 12 ∧ m'.memory.size = 14 ∧ m'.input = .queue q := by
  have hfinds : Finds 14 (state 11 memory q output) .halt := h.finds (by decide) rfl
  obtain ⟨memory', hgrows, hstep⟩ := hfinds.halt
  have hsize' : memory'.size = 14 := Nat.le_antisymm (h.of_growsWithin hgrows).size_le
    (Nat.le_trans hsize hgrows.growsTo.size_le)
  exact ⟨_, hstep, rfl, rfl, rfl, hsize', rfl⟩

/-! ### The loop -/

/-- **A round of the loop**: one value is read and put out. -/
theorem exists_round (h : Stands memory) (v : Cell) (q : List Cell) (output : Array Cell) :
    ∃ memory', Reaches (state 0 memory (v :: q) output) 4
        (state (if v = 10 then 11 else 0) memory' q (output.push v)) ∧
      Stands memory' ∧ 14 ≤ memory'.size := by
  obtain ⟨memory₁, hread, h₁, hv₁⟩ := step_read h
  obtain ⟨memory₂, hwrite, h₂, hv₂⟩ := step_write h₁ hv₁
  obtain ⟨memory₃, hcompare, h₃, hsize₃, hflag⟩ := step_compare h₂ hv₂
  obtain ⟨memory₄, hrepeat, h₄, hsize₄⟩ := step_repeat h₃ hsize₃ hflag
  exact ⟨memory₄, (((Reaches.of_step hread).trans (.of_step hwrite)).trans
    (.of_step hcompare)).trans (.of_step hrepeat), h₄, hsize₄⟩

/-- **All rounds up to the first line feed**: the values up to there are put out, and the program
has come to its end. -/
theorem exists_rounds (h : Stands memory) {vs : List Cell} (hvs : ∀ v ∈ vs, v ≠ 10)
    (q : List Cell) (output : Array Cell) :
    ∃ memory', Reaches (state 0 memory (vs ++ 10 :: q) output) (4 * (vs.length + 1))
        (state 11 memory' q (output ++ (vs ++ [10]).toArray)) ∧
      Stands memory' ∧ 14 ≤ memory'.size := by
  induction vs generalizing memory output with
  | nil => exact exists_round h 10 q output
  | cons v vs ih =>
      obtain ⟨hv, hvs⟩ := List.forall_mem_cons.1 hvs
      obtain ⟨memory₁, hround, h₁, -⟩ := exists_round h v (vs ++ 10 :: q) output
      -- `v` is no line feed, so that the round leads back to where it began
      rw [if_neg hv] at hround
      obtain ⟨memory₂, hrounds, h₂, hsize⟩ := ih h₁ hvs (output.push v)
      have hcount : 4 * ((v :: vs).length + 1) = 4 + 4 * (vs.length + 1) := by
        rw [List.length_cons]
        omega
      have houtput : output ++ (v :: vs ++ [10]).toArray =
          output.push v ++ (vs ++ [10]).toArray := by
        simp
      rw [hcount, houtput]
      exact ⟨memory₂, hround.trans hrounds, h₂, hsize⟩

/-! ### The run -/

theorem ofChar_ne_lineFeed {c : Char} (hc : c ≠ '\n') : Cell.ofChar c ≠ 10 := by
  intro h
  have hread : Cell.toChar? (Cell.ofChar c) = Cell.toChar? (Cell.ofChar '\n') :=
    congrArg Cell.toChar? h
  rw [Cell.toChar?_ofChar, Cell.toChar?_ofChar] at hread
  exact hc (Option.some.inj hread)

/-- **The first line is echoed.**  Fed with lines of text of which the first holds no line feed, the
program puts out that line and a line feed.  It takes four steps for each character and for the line
feed, and one more to halt; then memory has the two cells behind the program, and exactly the other
lines are left in the queue. -/
theorem echoes_first_line (l : String) (rest : List String) (hl : '\n' ∉ l.toList) :
    ∃ m m', load program (Input.ofLines (l :: rest)) = .ok m ∧
      (∀ k, runText k m =
        if 4 * (l.length + 1) + 1 ≤ k then some (.ok (l ++ "\n") m') else none) ∧
      m' = m.stepped (4 * (l.length + 1) + 1) ∧
      m'.halted = true ∧ m'.pc = 12 ∧ m'.memory.size = 14 ∧
      m'.input = .queue (Text.encodeLines rest) := by
  have hload : load program (Input.ofLines (l :: rest)) =
      .ok (state 0 ⟨program.toArray⟩ (l.toList.map Cell.ofChar ++ 10 :: Text.encodeLines rest)
        #[]) := by
    rw [Input.ofLines_eq, Text.encodeLines_cons, Text.encodeLine, List.append_assoc]
    rfl
  have hchars : ∀ v ∈ l.toList.map Cell.ofChar, v ≠ 10 := by
    intro v hv
    obtain ⟨c, hc, rfl⟩ := List.mem_map.1 hv
    exact ofChar_ne_lineFeed fun h => hl (h ▸ hc)
  obtain ⟨memory, hreaches, hstands, hsize⟩ :=
    exists_rounds stands_program hchars (Text.encodeLines rest) #[]
  rw [List.length_map, String.length_toList] at hreaches
  obtain ⟨m', hhalt, houtput, hend⟩ := step_halt (q := Text.encodeLines rest) hstands hsize
  have hconcludes := Concludes.of_halted hreaches.goesOn (hreaches.stepped_eq ▸ hhalt)
  have htext : Text.decode m'.output.toList = .ok (l ++ "\n") := by
    rw [houtput, Array.empty_append, List.toList_toArray]
    exact Text.decode_eq_ok_iff_spells.2 (Text.spells_encodeLine l)
  have hcall : ∀ k m, runText k m =
      (run k m).map (finish fun output => Text.decode output.toList) := fun _ _ => rfl
  refine ⟨_, m', hload, fun k => ?_, hconcludes.endState_eq, hend⟩
  rw [call_of_concludes hcall hconcludes, finish_ok, htext]
  rfl

/-- A line with a character beyond ASCII, before an empty line and another one. -/
theorem echoes_first_line_of_three :
    ∃ m m', load program (Input.ofLines ["né", "", "b"]) = .ok m ∧
      runText 13 m = some (.ok "né\n" m') ∧ runText 12 m = none ∧
      m'.input = .queue [10, 98, 10] := by
  obtain ⟨m, m', hload, hrun, -, -, -, -, hinput⟩ :=
    echoes_first_line "né" ["", "b"] (by decide)
  exact ⟨m, m', hload, hrun 13, hrun 12, hinput⟩

end Echo

end IntcodeMachine

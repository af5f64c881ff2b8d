/-
**Programs that adjust the relative base.**

A program that does nothing but add offsets to the relative base leaves their sum there.  The base is
a cell, and it is a cell after each of the adjustments: it is not enough that the sum of all offsets
fits if the sum of the first few does not.  Then the program stops at the first adjustment whose sum
does not fit, and the base is still the sum before it.

After `k` adjustments the program counter is at `2 * k`, and the base is the sum of the first `k`
offsets (`Offsets.exists_reaches`).  From there one step shows how the program goes on: with another
adjustment, with the halt behind the last one, or with the fault.

Main definitions:

* `Offsets.program`, `Offsets.state` — the program for a list of offsets, and its states;
* `Offsets.total` — the sum of offsets, as an integer;
* `Offsets.PrefixesFit`, `Offsets.FirstOverflow` — all sums fit; the first that does not;
* `Offsets.RunsTo` — what both kinds of run return, and where;
* `Offsets.AddsUp` — what is said about the program.

Main results:

* `Offsets.exists_reaches` — the state after some adjustments;
* `Offsets.base_adds_up` — **adjustments of the relative base add up**.
-/

import IntcodeMachine.Proofs.Runs
import IntcodeMachine.Proofs.Step.Rules

set_option relaxedAutoImplicit false
set_option autoImplicit false

namespace IntcodeMachine

namespace Offsets

open Machine

/-- **The program** that adds each of the offsets to the relative base, and halts. -/
def program : List Cell → List Cell
  | [] => [99]
  | o :: os => 109 :: o :: program os

/-- A state of the program. -/
def state (os : List Cell) (input : Input) (pc : Nat) (relativeBase : Cell) : Machine :=
  { memory := ⟨(program os).toArray⟩, pc, relativeBase, input }

/-! ### Sums of offsets -/

/-- The sum of offsets, as an integer. -/
def total : List Cell → Int
  | [] => 0
  | o :: os => o.toInt + total os

/-- The sums of the first offsets all fit into a cell, whatever their number. -/
def PrefixesFit (os : List Cell) : Prop := ∀ k ≤ os.length, Cell.Fits (total (os.take k))

/-- The offset `k`, counted from zero, is the **first** whose sum with those before it does not fit
into a cell. -/
structure FirstOverflow (os : List Cell) (k : Nat) : Prop where
  lt_length : k < os.length
  fits : ∀ j ≤ k, Cell.Fits (total (os.take j))
  overflow : ¬Cell.Fits (total (os.take (k + 1)))

variable {os : List Cell} {input : Input} {k n : Nat} {r r' : Cell}

theorem total_take_succ (hk : k < os.length) :
    total (os.take (k + 1)) = total (os.take k) + os[k].toInt := by
  induction os generalizing k with
  | nil => cases hk
  | cons o os ih =>
      cases k with
      | zero =>
          simp only [List.take_succ_cons, List.take_zero, total, List.getElem_cons_zero]
          omega
      | succ k =>
          have hrest := ih (Nat.lt_of_succ_lt_succ hk)
          simp only [List.take_succ_cons, total, List.getElem_cons_succ] at hrest ⊢
          omega

/-- Either the sums of the first offsets fit, or there is a first that does not. -/
theorem fits_or_firstOverflow (hn : n ≤ os.length) :
    (∀ j ≤ n, Cell.Fits (total (os.take j))) ∨ ∃ k, FirstOverflow os k := by
  induction n with
  | zero =>
      left
      intro j hj
      obtain rfl : j = 0 := Nat.le_zero.1 hj
      exact (by decide : Cell.Fits 0)
  | succ n ih =>
      rcases ih (by omega) with hfits | hover
      · by_cases hnext : Cell.Fits (total (os.take (n + 1)))
        · left
          intro j hj
          rcases Nat.lt_or_eq_of_le hj with hlt | rfl
          · exact hfits j (by omega)
          · exact hnext
        · exact .inr ⟨n, hn, hfits, hnext⟩
      · exact .inr hover

theorem FirstOverflow.unique {k' : Nat} (h : FirstOverflow os k) (h' : FirstOverflow os k') :
    k = k' := by
  rcases Nat.lt_trichotomy k k' with hlt | heq | hlt
  · exact absurd (h'.fits (k + 1) hlt) h.overflow
  · exact heq
  · exact absurd (h.fits (k' + 1) hlt) h'.overflow

/-! ### The program in memory -/

theorem length_program (os : List Cell) : (program os).length = 2 * os.length + 1 := by
  induction os with
  | nil => rfl
  | cons o os ih =>
      rw [program, List.length_cons, List.length_cons, List.length_cons, ih]
      omega

theorem getD_program_word (hk : k < os.length) : (program os).getD (2 * k) 0 = 109 := by
  induction os generalizing k with
  | nil => cases hk
  | cons o os ih =>
      cases k with
      | zero => rfl
      | succ k => exact ih (Nat.lt_of_succ_lt_succ hk)

theorem getD_program_offset (hk : k < os.length) : (program os).getD (2 * k + 1) 0 = os[k] := by
  induction os generalizing k with
  | nil => cases hk
  | cons o os ih =>
      cases k with
      | zero => rfl
      | succ k => exact ih (Nat.lt_of_succ_lt_succ hk)

theorem getD_program_halt (os : List Cell) : (program os).getD (2 * os.length) 0 = 99 := by
  induction os with
  | nil => rfl
  | cons o os ih => exact ih

theorem get_state (os : List Cell) (input : Input) (pc : Nat) (r : Cell) (a : Nat) :
    (state os input pc r).memory.get a = (program os).getD a 0 := by
  simp [state, Memory.get]

theorem size_state (os : List Cell) (input : Input) (pc : Nat) (r : Cell) :
    (state os input pc r).memory.size = 2 * os.length + 1 := by
  simp [state, Memory.size, length_program]

/-- A step of the program finds an adjustment at each even address before the end. -/
theorem finds_adjustBase (hk : k < os.length) :
    Finds (2 * os.length + 1) (state os input (2 * k) r) (.adjustBase .immediate) where
  running := rfl
  decode := by
    rw [get_state]
    exact (getD_program_word hk).symm ▸ rfl
  past_le := by
    show 2 * k + 1 + 1 ≤ 2 * os.length + 1
    omega
  bound_le := by
    rw [size_state]
    exact Nat.le_max_left _ _

theorem reads_offset (hk : k < os.length) :
    (state os input (2 * k) r).Reads n 1 .immediate os[k] := by
  rw [← getD_program_offset hk, ← get_state os input (2 * k) r]
  exact .immediate

theorem finds_halt : Finds (2 * os.length + 1) (state os input (2 * os.length) r) .halt where
  running := rfl
  decode := by
    rw [get_state]
    exact (getD_program_halt os).symm ▸ rfl
  past_le := Nat.le_refl _
  bound_le := by
    rw [size_state]
    exact Nat.le_max_left _ _

/-! ### The steps -/

/-- An adjustment whose sum is a cell. -/
theorem step_adjust (hk : k < os.length) (hr : r'.toInt = r.toInt + os[k].toInt) :
    step (state os input (2 * k) r) = .ok .running (state os input (2 * (k + 1)) r') := by
  obtain ⟨memory, hgrows, hstep⟩ := (finds_adjustBase hk).adjustBase (reads_offset hk) hr
  obtain rfl := hgrows.eq_of_le (size_state ..).ge
  exact hstep

/-- An adjustment whose sum is no cell. -/
theorem step_overflow (hk : k < os.length) (hr : ¬Cell.Fits (r.toInt + os[k].toInt)) :
    step (state os input (2 * k) r) =
      .error (.overflow (2 * k)) (state os input (2 * (k + 1)) r) := by
  obtain ⟨memory, hgrows, hstep⟩ :=
    (finds_adjustBase hk).adjustBase_overflow (reads_offset hk) hr
  obtain rfl := hgrows.eq_of_le (size_state ..).ge
  exact hstep

/-- Behind the last adjustment the program halts. -/
theorem step_halt : step (state os input (2 * os.length) r) =
    .ok .halted { state os input (2 * os.length + 1) r with halted := true } := by
  obtain ⟨memory, hgrows, hstep⟩ := finds_halt.halt
  obtain rfl := hgrows.eq_of_le (size_state ..).ge
  exact hstep

/-- **The state after `k` adjustments**, as long as all sums fit. -/
theorem exists_reaches (input : Input) (hk : k ≤ os.length)
    (hfits : ∀ j ≤ k, Cell.Fits (total (os.take j))) :
    ∃ r : Cell, r.toInt = total (os.take k) ∧
      Reaches (state os input 0 0) k (state os input (2 * k) r) := by
  induction k with
  | zero => exact ⟨0, rfl, goesOn_zero _, rfl⟩
  | succ k ih =>
      obtain ⟨r, hr, hreaches⟩ := ih (by omega) fun j hj => hfits j (by omega)
      have hr' := Cell.toInt_ofInt_of_fits (hfits (k + 1) (Nat.le_refl _))
      refine ⟨_, hr', hreaches.trans (.of_step (step_adjust hk ?_))⟩
      rw [hr', hr, total_take_succ hk]

/-! ### The run -/

/-- The machine `m` **runs to** `m'` in `n` steps: both kinds of run return there, with a result or
a fault, and not with fewer steps. -/
structure RunsTo (m : Machine) (n : Nat) (values : Except Fault (Array Cell))
    (text : Except Fault String) (m' : Machine) : Prop where
  values : ∀ j, runValues j m = if n ≤ j then some (outcomeIn m' values) else none
  text : ∀ j, runText j m = if n ≤ j then some (outcomeIn m' text) else none

theorem runsTo_of_halted {m m' : Machine} (h : Concludes m n (.ok () m')) :
    RunsTo m (n + 1) (.ok m'.output) (Text.decode m'.output.toList) m' where
  values := by
    intro j
    have hcall : runValues j m = _ := call_of_concludes (fun _ _ => rfl) h j
    rwa [finish_ok] at hcall
  text := by
    intro j
    have hcall : runText j m = _ := call_of_concludes (fun _ _ => rfl) h j
    rwa [finish_ok] at hcall

theorem runsTo_of_failed {m m' : Machine} {e : Fault} (h : Concludes m n (.error e m')) :
    RunsTo m (n + 1) (.error e) (.error e) m' where
  values := call_of_concludes (fun _ _ => rfl) h
  text := call_of_concludes (fun _ _ => rfl) h

theorem RunsTo.returns {m m' : Machine} {values : Except Fault (Array Cell)}
    {text : Except Fault String} (h : RunsTo m n values text m') :
    Returns runText m (outcomeIn m' text) :=
  ⟨n, (h.text n).trans (if_pos (Nat.le_refl n))⟩

/-- If all sums fit, the program halts with the sum of all offsets. -/
theorem runsTo_of_prefixesFit (input : Input) (h : PrefixesFit os) :
    ∃ r : Cell, r.toInt = total os ∧
      RunsTo (state os input 0 0) (os.length + 1) (.ok #[]) (.ok "")
        { state os input (2 * os.length + 1) r with halted := true } := by
  obtain ⟨r, hr, hreaches⟩ := exists_reaches input (Nat.le_refl os.length) h
  rw [List.take_length] at hr
  have hhalt := Concludes.of_halted hreaches.goesOn (hreaches.stepped_eq ▸ step_halt)
  exact ⟨r, hr, runsTo_of_halted hhalt⟩

/-- The program fails at the first sum that does not fit, with the sum before it. -/
theorem runsTo_of_firstOverflow (input : Input) (h : FirstOverflow os k) :
    ∃ r : Cell, r.toInt = total (os.take k) ∧
      RunsTo (state os input 0 0) (k + 1) (.error (.overflow (2 * k)))
        (.error (.overflow (2 * k))) (state os input (2 * k + 2) r) := by
  obtain ⟨hk, hfits, hoverflow⟩ := h
  obtain ⟨r, hr, hreaches⟩ := exists_reaches input (Nat.le_of_lt hk) hfits
  rw [total_take_succ hk, ← hr] at hoverflow
  have hfail :=
    Concludes.of_failed hreaches.goesOn (hreaches.stepped_eq ▸ step_overflow hk hoverflow)
  exact ⟨r, hr, runsTo_of_failed hfail⟩

/-- **What is said about the program** for the offsets `os`, with any input. -/
structure AddsUp (os : List Cell) (input : Input) : Prop where
  load : load (program os) input = .ok (state os input 0 0)
  /-- If the sums of the first offsets all fit, the program halts without output.  The relative base
  is the sum of all offsets, and memory and input are as they were. -/
  fits : PrefixesFit os → ∃ r : Cell, r.toInt = total os ∧
    RunsTo (state os input 0 0) (os.length + 1) (.ok #[]) (.ok "")
      { state os input (2 * os.length + 1) r with halted := true }
  /-- Otherwise it fails at the first offset whose sum does not fit.  The relative base is the sum of
  the offsets before it, and the program counter is behind it. -/
  overflows : ¬PrefixesFit os → ∃ k, FirstOverflow os k ∧ ∃ r : Cell, r.toInt = total (os.take k) ∧
    RunsTo (state os input 0 0) (k + 1) (.error (.overflow (2 * k)))
      (.error (.overflow (2 * k))) (state os input (2 * k + 2) r)
  /-- Other offsets with the same sum, all of whose sums fit, leave the same relative base. -/
  sameTotal : ∀ os' input', PrefixesFit os → PrefixesFit os' → total os' = total os →
    ∃ m m', Returns runText (state os input 0 0) (.ok "" m) ∧
      Returns runText (state os' input' 0 0) (.ok "" m') ∧ m'.relativeBase = m.relativeBase

theorem load_program (os : List Cell) (input : Input) :
    load (program os) input = .ok (state os input 0 0) := by
  cases os <;> rfl

/-- **Adjustments of the relative base add up.** -/
theorem base_adds_up (os : List Cell) (input : Input) : AddsUp os input where
  load := load_program os input
  fits := runsTo_of_prefixesFit input
  overflows := by
    intro h
    rcases fits_or_firstOverflow (Nat.le_refl os.length) with hfits | ⟨k, hk⟩
    · exact absurd hfits h
    · exact ⟨k, hk, runsTo_of_firstOverflow input hk⟩
  sameTotal := by
    intro os' input' h h' htotal
    obtain ⟨r, hr, hruns⟩ := runsTo_of_prefixesFit input h
    obtain ⟨r', hr', hruns'⟩ := runsTo_of_prefixesFit input' h'
    have hbase : r' = r := Int64.toInt_inj.1 (by rw [hr', hr, htotal])
    exact ⟨_, _, hruns.returns, hruns'.returns, hbase⟩

/-- Three offsets whose sum is the largest cell, but not in that order: the second is the first whose
sum does not fit. -/
theorem base_adds_up_overflow_midway :
    Cell.Fits (total [9223372036854775807, 1, -1]) ∧
      RunsTo (state [9223372036854775807, 1, -1] (.queue [7]) 0 0) 2 (.error (.overflow 2))
        (.error (.overflow 2))
        (state [9223372036854775807, 1, -1] (.queue [7]) 4 9223372036854775807) := by
  have hfirst : FirstOverflow [9223372036854775807, 1, -1] 1 :=
    ⟨by decide, by decide, by decide⟩
  obtain ⟨k, hk, r, hr, hruns⟩ :=
    (base_adds_up [9223372036854775807, 1, -1] (.queue [7])).overflows fun h =>
      hfirst.overflow (h 2 (by decide))
  obtain rfl := hk.unique hfirst
  obtain rfl : r = 9223372036854775807 := Int64.toInt_inj.1 hr
  exact ⟨by decide, hruns⟩

end Offsets

end IntcodeMachine

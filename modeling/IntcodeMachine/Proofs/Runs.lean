/-
**Runs and steps.**

A run is given a number of steps that it may make, and has no outcome if that number is too small.
This module takes the number away: a run returns with an outcome if it has that outcome for some
number.  What it returns is then told by the steps alone.  They are called one after the other as
long as they say that the program goes on; the first that does not ends the run, and the run returns
in the state which that step leaves, with its fault or, if the program has halted in it, with all of
the output.

Since a run is nothing but its steps, it does not matter who makes them.  A machine that has made
some steps on its way and is run then comes to the same end as if it had been run at once.

Main definitions:

* `Machine.stepped`, `Machine.GoesOn`, `Machine.StopsAfter` — the state after some calls of the step,
  and what these calls answer;
* `Machine.Reaches` — the state to which some steps lead with which the program goes on;
* `Machine.EndsRun`, `Machine.Concludes` — **the end of a run, told by the steps**;
* `Machine.Returns` — the outcome of a run, given enough steps;
* `Machine.DrivenBySteps` — what the runs of a machine have to do with its steps.

Main results:

* `Machine.run_eq_some_iff`, `Machine.run_of_concludes` — a run of a given number of steps;
* `Machine.returns_run_iff` — **a run returns what the steps conclude**;
* `Machine.concludes_stepped` — steps made before a run;
* `Machine.run_agrees_with_steps` — **both kinds of run agree with the steps, and with each other**.
-/

import IntcodeMachine.Proofs.Session

set_option relaxedAutoImplicit false
set_option autoImplicit false

namespace IntcodeMachine

namespace Machine

/-! ### Calls of the step -/

/-- The state after `n` calls of the step, whatever they answer. -/
def stepped (m : Machine) (n : Nat) : Machine := m.after (List.replicate n .step)

/-- The first `n` calls of the step all answer that the program **goes on**. -/
def GoesOn (m : Machine) (n : Nat) : Prop :=
  ∀ k < n, ((m.stepped k).perform .step).1 = .status .running

/-- The program goes on for `n` calls of the step, and with the next one no more. -/
def StopsAfter (m : Machine) (n : Nat) : Prop :=
  m.GoesOn n ∧ ((m.stepped n).perform .step).1 ≠ .status .running

variable {m m' : Machine} {n k : Nat} {o : Outcome Unit}

@[simp] theorem stepped_zero (m : Machine) : m.stepped 0 = m := rfl

theorem stepped_succ (m : Machine) (n : Nat) :
    m.stepped (n + 1) = (m.perform .step).2.stepped n := rfl

theorem stepped_add (m : Machine) (n k : Nat) : m.stepped (n + k) = (m.stepped n).stepped k := by
  induction n generalizing m with
  | zero => rw [Nat.zero_add, stepped_zero]
  | succ n ih => rw [Nat.succ_add, stepped_succ, stepped_succ, ih]

/-- The state after one more call. -/
theorem stepped_last (m : Machine) (n : Nat) :
    m.stepped (n + 1) = ((m.stepped n).perform .step).2 := stepped_add m n 1

theorem goesOn_zero (m : Machine) : m.GoesOn 0 := by
  intro k hk
  omega

theorem goesOn_add : m.GoesOn (n + k) ↔ m.GoesOn n ∧ (m.stepped n).GoesOn k := by
  constructor
  · intro h
    refine ⟨fun j hj => h j (by omega), ?_⟩
    intro j hj
    rw [← stepped_add]
    exact h (n + j) (by omega)
  · rintro ⟨hn, hk⟩ j hj
    by_cases hjn : j < n
    · exact hn j hjn
    · obtain ⟨i, rfl⟩ : ∃ i, j = n + i := ⟨j - n, by omega⟩
      rw [stepped_add]
      exact hk i (by omega)

theorem goesOn_one : m.GoesOn 1 ↔ (m.perform .step).1 = .status .running := by
  constructor
  · intro h
    exact h 0 (by omega)
  · intro h j hj
    obtain rfl : j = 0 := by omega
    exact h

/-- Either the program goes on for `n` calls, or it stops before. -/
theorem goesOn_or_stopsAfter (m : Machine) (n : Nat) : m.GoesOn n ∨ ∃ k < n, m.StopsAfter k := by
  induction n with
  | zero => exact .inl (goesOn_zero m)
  | succ n ih =>
      rcases ih with hgoes | ⟨k, hk, hstops⟩
      · by_cases hlast : ((m.stepped n).perform .step).1 = .status .running
        · exact .inl (goesOn_add.2 ⟨hgoes, goesOn_one.2 hlast⟩)
        · exact .inr ⟨n, by omega, hgoes, hlast⟩
      · exact .inr ⟨k, by omega, hstops⟩

/-- From `m` the program **reaches** `m'` in `n` steps, with each of which it goes on. -/
structure Reaches (m : Machine) (n : Nat) (m' : Machine) : Prop where
  goesOn : m.GoesOn n
  stepped_eq : m.stepped n = m'

theorem Reaches.of_step (h : step m = .ok .running m') : Reaches m 1 m' := by
  have hperform := perform_of_ok h
  refine ⟨goesOn_one.2 ?_, ?_⟩
  · rw [hperform]
  · rw [stepped_succ, hperform, stepped_zero]

theorem Reaches.trans {m'' : Machine} (h : Reaches m n m') (h' : Reaches m' k m'') :
    Reaches m (n + k) m'' := by
  obtain ⟨hgoes, rfl⟩ := h
  obtain ⟨hgoes', rfl⟩ := h'
  exact ⟨goesOn_add.2 ⟨hgoes, hgoes'⟩, stepped_add m n k⟩

/-! ### The end of a run -/

/-- A call of the step **ends** a run, with an outcome: the program halts in it, or it fails. -/
inductive EndsRun : Outcome Status → Outcome Unit → Prop
  | halted {m : Machine} : EndsRun (.ok .halted m) (.ok () m)
  | failed {e : Fault} {m : Machine} : EndsRun (.error e m) (.error e m)

/-- **The end of a run, told by the steps**: the program goes on for `n` calls, and the next one ends
the run. -/
structure Concludes (m : Machine) (n : Nat) (o : Outcome Unit) : Prop where
  goesOn : m.GoesOn n
  last : EndsRun (step (m.stepped n)) o

theorem Concludes.of_halted (h : m.GoesOn n) (hstep : step (m.stepped n) = .ok .halted m') :
    Concludes m n (.ok () m') := ⟨h, hstep ▸ .halted⟩

theorem Concludes.of_failed {e : Fault} (h : m.GoesOn n)
    (hstep : step (m.stepped n) = .error e m') : Concludes m n (.error e m') :=
  ⟨h, hstep ▸ .failed⟩

theorem EndsRun.unique {x : Outcome Status} {o' : Outcome Unit} (h : EndsRun x o)
    (h' : EndsRun x o') : o = o' := by
  cases h with
  | halted =>
      cases h'
      rfl
  | failed =>
      cases h'
      rfl

theorem EndsRun.endState_eq {x : Outcome Status} (h : EndsRun x o) :
    endState o = endState x := by
  cases h with
  | halted => rfl
  | failed => rfl

/-- A call ends a run exactly if it does not answer that the program goes on. -/
theorem exists_endsRun_iff (m : Machine) :
    (∃ o, EndsRun (step m) o) ↔ (m.perform .step).1 ≠ .status .running := by
  rw [perform]
  cases step m with
  | ok s m' =>
      cases s with
      | running =>
          constructor
          · rintro ⟨o, h⟩
            cases h
          · intro h
            exact absurd rfl h
      | halted =>
          refine iff_of_true ⟨_, .halted⟩ ?_
          intro h
          cases h
  | error e m' =>
      refine iff_of_true ⟨_, .failed⟩ ?_
      intro h
      cases h

/-- A run is concluded in the state that the last of its calls leaves. -/
theorem Concludes.endState_eq (h : Concludes m n o) : endState o = m.stepped (n + 1) := by
  rw [stepped_last, perform_step_snd]
  exact h.last.endState_eq

theorem exists_concludes_iff : (∃ o, Concludes m n o) ↔ m.StopsAfter n := by
  rw [StopsAfter, ← exists_endsRun_iff]
  constructor
  · rintro ⟨o, hgoes, hlast⟩
    exact ⟨hgoes, o, hlast⟩
  · rintro ⟨hgoes, o, hlast⟩
    exact ⟨o, hgoes, hlast⟩

/-- **Steps made before a run**: they count as steps of it. -/
theorem concludes_stepped (h : m.GoesOn n) :
    Concludes (m.stepped n) k o ↔ Concludes m (n + k) o := by
  constructor
  · rintro ⟨hgoes, hlast⟩
    rw [← stepped_add] at hlast
    exact ⟨goesOn_add.2 ⟨h, hgoes⟩, hlast⟩
  · rintro ⟨hgoes, hlast⟩
    rw [stepped_add] at hlast
    exact ⟨(goesOn_add.1 hgoes).2, hlast⟩

theorem concludes_succ (h : step m = .ok .running m') :
    Concludes m (n + 1) o ↔ Concludes m' n o := by
  obtain ⟨hone, hnext⟩ := Reaches.of_step h
  rw [Nat.add_comm, ← concludes_stepped hone, hnext]

/-- A run ends with one of its steps only. -/
theorem Concludes.steps_unique {n' : Nat} {o' : Outcome Unit} (h : Concludes m n o)
    (h' : Concludes m n' o') : n = n' := by
  have hstop := (exists_concludes_iff.1 ⟨o, h⟩).2
  have hstop' := (exists_concludes_iff.1 ⟨o', h'⟩).2
  rcases Nat.lt_trichotomy n n' with hlt | heq | hlt
  · exact absurd (h'.goesOn n hlt) hstop
  · exact heq
  · exact absurd (h.goesOn n' hlt) hstop'

/-- A run has one end. -/
theorem Concludes.unique {n' : Nat} {o' : Outcome Unit} (h : Concludes m n o)
    (h' : Concludes m n' o') : o = o' := by
  obtain rfl := h.steps_unique h'
  exact h.last.unique h'.last

/-- **A run of at most `k` steps** has the outcome that the steps conclude within that number. -/
theorem run_eq_some_iff : run k m = some o ↔ ∃ n < k, Concludes m n o := by
  induction k generalizing m with
  | zero =>
      constructor
      · intro h
        cases h
      · rintro ⟨n, hn, -⟩
        omega
  | succ k ih =>
      rw [run]
      -- a step that ends the run concludes it, and nothing else does
      have hends : ∀ o', Concludes m 0 o' → (some o' = some o ↔ ∃ n < k + 1, Concludes m n o) := by
        intro o' hc'
        constructor
        · intro he
          cases he
          exact ⟨0, by omega, hc'⟩
        · rintro ⟨n, -, hc⟩
          rw [hc'.unique hc]
      cases hstep : step m with
      | ok s m' =>
          cases s with
          | running =>
              simp only [ih]
              constructor
              · rintro ⟨n, hn, hc⟩
                exact ⟨n + 1, by omega, (concludes_succ hstep).2 hc⟩
              · rintro ⟨n, hn, hc⟩
                cases n with
                | zero =>
                    have hstop := (exists_concludes_iff.1 ⟨o, hc⟩).2
                    rw [stepped_zero, perform_of_ok hstep] at hstop
                    exact absurd rfl hstop
                | succ n => exact ⟨n, by omega, (concludes_succ hstep).1 hc⟩
          | halted => exact hends _ (.of_halted (goesOn_zero m) hstep)
      | error e m' => exact hends _ (.of_failed (goesOn_zero m) hstep)

/-- **A run that the steps conclude** has its outcome as soon as it may make the last of them. -/
theorem run_of_concludes (h : Concludes m n o) (k : Nat) :
    run k m = if n + 1 ≤ k then some o else none := by
  split
  · next hk => exact run_eq_some_iff.2 ⟨n, hk, h⟩
  · next hk =>
      refine Option.eq_none_iff_forall_ne_some.2 fun o' ho' => hk ?_
      obtain ⟨n', hn', h'⟩ := run_eq_some_iff.1 ho'
      rw [h.steps_unique h']
      exact hn'

/-! ### Runs of any length -/

/-- A run **returns** with an outcome: it has that outcome if it may make enough steps. -/
def Returns {α : Type} (call : Nat → Machine → Option (Outcome α)) (m : Machine) (o : Outcome α) :
    Prop := ∃ k, call k m = some o

/-- The outcome of an action that ends in the state `m` with a value or a fault. -/
def outcomeIn {α : Type} (m : Machine) : Except Fault α → Outcome α
  | .ok a => .ok a m
  | .error e => .error e m

/-- **A run returns what the steps conclude.** -/
theorem returns_run_iff : Returns run m o ↔ ∃ n, Concludes m n o := by
  constructor
  · rintro ⟨k, hk⟩
    obtain ⟨n, -, hc⟩ := run_eq_some_iff.1 hk
    exact ⟨n, hc⟩
  · rintro ⟨n, hc⟩
    exact ⟨n + 1, run_eq_some_iff.2 ⟨n, by omega, hc⟩⟩

section Kinds

variable {α : Type} {call : Nat → Machine → Option (Outcome α)}
  {result : Array Cell → Except Fault α}

/-- A run that yields a result of the output returns what the steps conclude, once that result is
computed. -/
theorem returns_iff (hcall : ∀ k m, call k m = (run k m).map (finish result)) {o : Outcome α} :
    Returns call m o ↔ ∃ n o', Concludes m n o' ∧ o = finish result o' := by
  constructor
  · rintro ⟨k, hk⟩
    rw [hcall, Option.map_eq_some_iff] at hk
    obtain ⟨o', ho', rfl⟩ := hk
    obtain ⟨n, -, hc⟩ := run_eq_some_iff.1 ho'
    exact ⟨n, o', hc, rfl⟩
  · rintro ⟨n, o', hc, rfl⟩
    obtain ⟨k, hk⟩ := returns_run_iff.2 ⟨n, hc⟩
    exact ⟨k, by rw [hcall, hk, Option.map_some]⟩

theorem returns_iff_of_concludes (hcall : ∀ k m, call k m = (run k m).map (finish result))
    {o : Outcome Unit} (hc : Concludes m n o) {o' : Outcome α} :
    Returns call m o' ↔ o' = finish result o := by
  rw [returns_iff hcall]
  constructor
  · rintro ⟨n', p, hp, rfl⟩
    rw [hp.unique hc]
  · rintro rfl
    exact ⟨n, o, hc, rfl⟩

theorem call_of_concludes (hcall : ∀ k m, call k m = (run k m).map (finish result))
    {o : Outcome Unit} (hc : Concludes m n o) (k : Nat) :
    call k m = if n + 1 ≤ k then some (finish result o) else none := by
  rw [hcall, run_of_concludes hc]
  split <;> rfl

theorem outcomeIn_eq_error {r : Except Fault α} {e : Fault}
    (h : outcomeIn m r = .error e m') : r = .error e ∧ m = m' := by
  cases r with
  | ok a => cases h
  | error f =>
      cases h
      exact ⟨rfl, rfl⟩

theorem finish_ok (m : Machine) : finish result (.ok () m) = outcomeIn m (result m.output) := by
  rw [finish]
  cases result m.output <;> rfl

/-- **What a kind of run has to do with the steps** that it makes from `m`. -/
structure AgreesWithSteps (call : Nat → Machine → Option (Outcome α))
    (result : Array Cell → Except Fault α) (m : Machine) : Prop where
  /-- The run returns exactly if the program goes on for some calls of the step, and then no
  more. -/
  returns : (∃ o, Returns call m o) ↔ ∃ n, m.StopsAfter n
  /-- If the last call fails, the run returns its fault, in the state which that call leaves. -/
  failed : ∀ n e m', m.GoesOn n → step (m.stepped n) = .error e m' →
    m' = m.stepped (n + 1) ∧ ∀ o, Returns call m o ↔ o = .error e m'
  /-- If the program halts in the last call, the run returns the result of the whole output, in the
  state which that call leaves. -/
  halted : ∀ n m', m.GoesOn n → step (m.stepped n) = .ok .halted m' →
    m' = m.stepped (n + 1) ∧ ∀ o, Returns call m o ↔ o = outcomeIn m' (result m'.output)
  /-- After steps with which the program goes on, the run returns the same as without them. -/
  resumed : ∀ n, m.GoesOn n → ∀ o, Returns call (m.stepped n) o ↔ Returns call m o

theorem agreesWithSteps (hcall : ∀ k m, call k m = (run k m).map (finish result)) (m : Machine) :
    AgreesWithSteps call result m where
  returns := by
    constructor
    · rintro ⟨o, ho⟩
      obtain ⟨n, o', hc, -⟩ := (returns_iff hcall).1 ho
      exact ⟨n, exists_concludes_iff.1 ⟨o', hc⟩⟩
    · rintro ⟨n, hn⟩
      obtain ⟨o, hc⟩ := exists_concludes_iff.2 hn
      exact ⟨_, (returns_iff_of_concludes hcall hc).2 rfl⟩
  failed := by
    intro n e m' hgoes hstep
    have hc := Concludes.of_failed hgoes hstep
    exact ⟨hc.endState_eq, fun o => returns_iff_of_concludes hcall hc⟩
  halted := by
    intro n m' hgoes hstep
    have hc := Concludes.of_halted hgoes hstep
    refine ⟨hc.endState_eq, fun o => ?_⟩
    rw [returns_iff_of_concludes hcall hc, finish_ok]
  resumed := by
    intro n hgoes o
    rw [returns_iff hcall, returns_iff hcall]
    constructor
    · rintro ⟨k, o', hc, ho⟩
      exact ⟨n + k, o', (concludes_stepped hgoes).1 hc, ho⟩
    · rintro ⟨k, o', hc, ho⟩
      -- the run makes the steps that were made before it
      have hle : n ≤ k := by
        by_contra hlt
        exact (exists_concludes_iff.1 ⟨o', hc⟩).2 (hgoes k (by omega))
      obtain ⟨j, rfl⟩ := Nat.exists_eq_add_of_le hle
      exact ⟨j, o', (concludes_stepped hgoes).2 hc, ho⟩

end Kinds

/-! ### Output that is no text -/

theorem halted_of_step (h : step m = .ok .halted m') : m'.halted = true := by
  obtain ⟨i, -, ht⟩ := transition_of_step h
  cases ht
  rfl

/-- No step speaks of characters. -/
theorem step_ne_notACharacter (m m' : Machine) (v : Cell) :
    step m ≠ .error (.notACharacter v) m' := by
  intro h
  exact truthful_of_step h

/-- A run that yields text fails for a value that is no character only when the program has halted,
and then this is what fails: to read its output as text. -/
theorem concludes_of_notACharacter {v : Cell} (h : Returns runText m (.error (.notACharacter v) m')) :
    ∃ n, m.GoesOn n ∧ step (m.stepped n) = .ok .halted m' ∧
      Text.decode m'.output.toList = .error (.notACharacter v) := by
  obtain ⟨n, o, ⟨hgoes, hlast⟩, ho⟩ := (returns_iff fun _ _ => rfl).1 h
  generalize hstep : step (m.stepped n) = x at hlast
  cases hlast with
  | halted =>
      rw [finish_ok] at ho
      obtain ⟨hdecode, rfl⟩ := outcomeIn_eq_error ho.symm
      exact ⟨n, hgoes, hstep, hdecode⟩
  | failed =>
      cases ho
      exact absurd hstep (step_ne_notACharacter _ _ v)

/-- **What the runs of a machine have to do with its steps**, and with each other. -/
structure DrivenBySteps (m : Machine) : Prop where
  values : AgreesWithSteps runValues .ok m
  text : AgreesWithSteps runText (fun output => Text.decode output.toList) m
  /-- Values that were output before stay in front of the output. -/
  output : ∀ n, m.output.toList <+: (m.stepped n).output.toList
  /-- A run fails for a value that is no character only when the program has halted, and all values
  of the output are still there. -/
  notACharacter : ∀ v m', Returns runText m (.error (.notACharacter v) m') →
    m'.halted = true ∧ Text.decode m'.output.toList = .error (.notACharacter v) ∧
      Returns runValues m (.ok m'.output m')

/-- **Both kinds of run agree with the steps, and with each other.** -/
theorem run_agrees_with_steps (m : Machine) : DrivenBySteps m where
  values := agreesWithSteps (fun _ _ => rfl) m
  text := agreesWithSteps (fun _ _ => rfl) m
  output := by
    intro n
    rw [stepped, (progresses_steps n m).output]
    exact List.prefix_append _ _
  notACharacter := by
    intro v m' h
    obtain ⟨n, hgoes, hstep, hdecode⟩ := concludes_of_notACharacter h
    have hvalues : AgreesWithSteps runValues .ok m := agreesWithSteps (fun _ _ => rfl) m
    exact ⟨halted_of_step hstep, hdecode, ((hvalues.halted n m' hgoes hstep).2 _).2 rfl⟩

/-- A program that has output a letter, outputs another one in a step, and then, in a run, a value
that is no character: the run fails, in a state that has halted with all three values, and the same
run from the start would have returned them. -/
theorem run_agrees_with_steps_untextual :
    ∃ m m' : Machine, m.memory = ⟨#[104, 65, 104, -1, 99]⟩ ∧ m.output = #[66] ∧
      m.GoesOn 1 ∧ m.StopsAfter 2 ∧ m' = m.stepped 3 ∧
      Returns runText (m.stepped 1) (.error (.notACharacter (-1)) m') ∧
      Returns runText m (.error (.notACharacter (-1)) m') ∧
      Returns runValues m (.ok #[66, 65, -1] m') ∧ m'.halted = true := by
  have hgoes : GoesOn
      { memory := ⟨#[104, 65, 104, -1, 99]⟩, input := .queue [], output := #[66] } 2 := by
    intro k hk
    obtain rfl | rfl : k = 0 ∨ k = 1 := by omega
    · rfl
    · rfl
  have hone := (goesOn_add (n := 1) (k := 1)).1 hgoes
  have hdriven := run_agrees_with_steps
    { memory := ⟨#[104, 65, 104, -1, 99]⟩, input := .queue [], output := #[66] }
  have hrun := ((hdriven.text.halted 2 _ hgoes rfl).2 (.error (.notACharacter (-1)) _)).2 rfl
  obtain ⟨hhalted, -, hvalues⟩ := hdriven.notACharacter _ _ hrun
  exact ⟨_, _, rfl, rfl, hone.1, ⟨hgoes, nofun⟩, rfl, (hdriven.text.resumed 1 hone.1 _).2 hrun,
    hrun, hvalues, hhalted⟩

end Machine

end IntcodeMachine

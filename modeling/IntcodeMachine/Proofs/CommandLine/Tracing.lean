/-
**The command line with a trace.**

The command line can be told to print a trace.  It then announces so on the error stream, prints a
line for each instruction that is decoded in the run, and goes on as it would without the trace.  The
steps of the run are given here by the states in which they begin, from the machine that is run to the
step with which it stops; which of them have a line, and what the line shows, is told by these states
alone.

Main definitions:

* `Options.ReportsTraced` — the answer to a listing with a trace, given enough steps;
* `Options.TraceOf` — **the lines of the trace of a listing**.

Main results:

* `Options.reportsTraced_of_concludes` — the answer with a trace, by the end of the run;
* `Options.tracing_observes` — **tracing adds its lines to the error stream and changes nothing
  else**.
-/

import IntcodeMachine.Proofs.CommandLine.AllOrNothing
import IntcodeMachine.Proofs.Tracing

set_option relaxedAutoImplicit false
set_option autoImplicit false

namespace IntcodeMachine

namespace Options

/-- With a trace, the command line **reports** `r` for a listing, if the program may make enough
steps. -/
def ReportsTraced (o : Options) (listing : String) (r : Report) : Prop :=
  ∃ n, o.reportTraced n (.ok listing) = some r

/-- **The lines of the trace of a listing.** -/
inductive TraceOf (o : Options) (listing : String) : List String → Prop
  /-- There is no machine to run, and so there are no lines. -/
  | unprepared : (∀ p m, Listing.parse listing = .ok p → ¬Prepared o p m) → TraceOf o listing []
  /-- The lines are those of the steps that the machine makes, the one with which it stops
  included. -/
  | run {p : List Cell} {m : Machine} {n : Nat} {ls : List String} :
      Listing.parse listing = .ok p → Prepared o p m → m.StopsAfter n →
      Machine.TraceLines (m.starts (n + 1)) ls → TraceOf o listing ls

variable {o : Options} {listing : String} {r r' : Report} {m : Machine}

theorem reportTraced_of_prepare_error {cause : Failure} (h : o.prepare listing = .error cause)
    (n : Nat) :
    o.reportTraced n (.ok listing) = some ((Report.failed cause.message).withTrace #[]) := by
  simp only [reportTraced, h]

theorem reportTraced_of_prepare (h : o.prepare listing = .ok m) (n : Nat) :
    o.reportTraced n (.ok listing) = (m.run n).map fun outcome =>
      (o.conclude outcome).withTrace
        (Machine.traceEntries (m.starts (m.runLength n))).toArray := by
  simp only [reportTraced, h, Machine.runTraced_eq, Option.map_map, Array.empty_append]
  rfl

/-- **The answer with a trace** is that to the end of the run, with the entries of the steps that lead
to it. -/
theorem reportsTraced_of_concludes {n : Nat} {outcome : Machine.Outcome Unit}
    (h : o.prepare listing = .ok m) (hc : m.Concludes n outcome) :
    ReportsTraced o listing r' ↔
      r' = (o.conclude outcome).withTrace (Machine.traceEntries (m.starts (n + 1))).toArray := by
  constructor
  · rintro ⟨k, hk⟩
    rw [reportTraced_of_prepare h, Option.map_eq_some_iff] at hk
    obtain ⟨outcome', hrun, rfl⟩ := hk
    obtain ⟨n', hn', hc'⟩ := Machine.run_eq_some_iff.1 hrun
    rw [hc'.runLength_eq hn', hc'.unique hc, hc'.steps_unique hc]
  · rintro rfl
    refine ⟨n + 1, ?_⟩
    have hrun := Machine.run_eq_some_iff.2 ⟨n, Nat.lt_succ_self n, hc⟩
    rw [reportTraced_of_prepare h, hrun, hc.runLength_eq (Nat.lt_succ_self n), Option.map_some]

theorem reportsTraced_of_prepare_error {cause : Failure} (h : o.prepare listing = .error cause) :
    ReportsTraced o listing r' ↔ r' = (Report.failed cause.message).withTrace #[] := by
  constructor
  · rintro ⟨n, hn⟩
    rw [reportTraced_of_prepare_error h] at hn
    exact (Option.some.inj hn).symm
  · rintro rfl
    exact ⟨0, reportTraced_of_prepare_error h 0⟩

/-- **Tracing adds its lines to the error stream and changes nothing else.**  If the program stops,
the answer with a trace has the status and the output of the plain answer; on the error stream it has
the announcement, the lines of the trace, and then what the plain answer has there. -/
theorem tracing_observes (h : Reports o listing r) :
    ∃ ls, TraceOf o listing ls ∧
      ∀ r', ReportsTraced o listing r' ↔
        r' = {
          status := r.status
          stdout := r.stdout
          stderr := "Computation Tracing ENABLED\n" ++ String.join ls ++ r.stderr } := by
  rcases reports_iff.1 h with ⟨cause, hcause, rfl⟩ | ⟨outcome, hends, rfl⟩
  · refine ⟨[], .unprepared ?_, fun r' => reportsTraced_of_prepare_error hcause⟩
    intro p m hp hm
    rw [prepare_eq_ok_iff.2 ⟨p, hp, hm⟩] at hcause
    cases hcause
  · obtain ⟨p, m, n, hp, hm, hc⟩ := hends
    have hstops := Machine.exists_concludes_iff.1 ⟨outcome, hc⟩
    exact ⟨_, .run hp hm hstops (Machine.traceLines_traceEntries _),
      fun r' => reportsTraced_of_concludes (prepare_eq_ok_iff.2 ⟨p, hp, hm⟩) hc⟩

/-- A program that moves the relative base, outputs a letter, and then would store a sum at a negative
address: the last step has a line although it fails, and the line of the second shows the base that
the first has set. -/
theorem tracing_observes_failing_step :
    Reports {} "109,2,104,65,1,0,0,-1"
      { status := 1, stderr := "Error: negative address -1\n" } ∧
    ∃ ls, TraceOf {} "109,2,104,65,1,0,0,-1" ls ∧
      "Computation Tracing ENABLED\n" ++ String.join ls ++ "Error: negative address -1\n" =
        "Computation Tracing ENABLED\n" ++
        "      MEM[0] │ AdjustRelativeBase(Immediate)                │ RB = 0\n" ++
        "      MEM[2] │ Output(Immediate)                            │ RB = 2\n" ++
        "      MEM[4] │ Add(Position, Position, Position)            │ RB = 2\n" ++
        "Error: negative address -1\n" := by
  have hplain : Reports {} "109,2,104,65,1,0,0,-1"
      { status := 1, stderr := "Error: negative address -1\n" } := ⟨3, by decide +kernel⟩
  have htraced : ReportsTraced {} "109,2,104,65,1,0,0,-1"
      { status := 1
        stderr := "Computation Tracing ENABLED\n" ++
          "      MEM[0] │ AdjustRelativeBase(Immediate)                │ RB = 0\n" ++
          "      MEM[2] │ Output(Immediate)                            │ RB = 2\n" ++
          "      MEM[4] │ Add(Position, Position, Position)            │ RB = 2\n" ++
          "Error: negative address -1\n" } := ⟨3, by decide +kernel⟩
  obtain ⟨ls, hls, hobserves⟩ := tracing_observes hplain
  have hreport := (hobserves _).1 htraced
  exact ⟨hplain, ls, hls, (congrArg Report.stderr hreport).symm⟩

end Options

end IntcodeMachine

/-
**All or nothing.**

The command line answers a listing either with a failure, of which only the error stream tells, or
with all of the output.  A program may well have output something before it fails, and values that
are no characters may follow values that are; nothing of that is printed.

An answer takes as many steps as the program makes until it stops.  As with runs, the number is
taken away here: an answer is given if it is given for some number.  Whether there is one, and which
one, is then told by the machine that is run and by its steps.

Main definitions:

* `Options.Reports` — the answer to a listing, given enough steps;
* `Options.Ends` — how the run of a listing ends;
* `Options.Fails`, `Options.Completes` — **the ways to fail, and the way to succeed**;
* `Options.Prints` — what is printed then;
* `Options.AllOrNothing` — what holds of the answer to a listing.

Main results:

* `Options.reports_iff` — the answer, by the machine that is run and the end of its run;
* `Options.reports_iff_fails_or_completes` — **the answer is that of a failure or of a success**;
* `Options.text_succeeds_iff`, `Options.text_prints` — text against numbers;
* `Options.report_all_or_nothing` — **the command line is all or nothing**.
-/

import IntcodeMachine.Proofs.CommandLine.Preparation
import IntcodeMachine.Proofs.Runs
import IntcodeMachine.Proofs.Text.Output

set_option relaxedAutoImplicit false
set_option autoImplicit false

namespace IntcodeMachine

namespace Options

/-! ### Success and failure -/

/-- The command line **reports** `r` for a listing, if the program may make enough steps. -/
def Reports (o : Options) (listing : String) (r : Report) : Prop :=
  ∃ n, o.report n (.ok listing) = some r

/-- The run of a listing **ends** with an outcome: the steps of the machine that is run conclude
it. -/
def Ends (o : Options) (listing : String) (outcome : Machine.Outcome Unit) : Prop :=
  ∃ p m n, Listing.parse listing = .ok p ∧ Prepared o p m ∧ m.Concludes n outcome

/-- **The ways to fail**, each with its cause. -/
inductive Fails (o : Options) (listing : String) : Failure → Prop
  /-- The listing cannot be read. -/
  | listing {e : LoadError} : Listing.parse listing = .error e → Fails o listing (.load e)
  /-- A patch is refused; the cause is the first. -/
  | patch {p : List Cell} {before after : List Patch} {q : Patch} :
      Listing.parse listing = .ok p → o.patches = before ++ q :: after →
      (∀ r ∈ before, r.address < max p.length Memory.maxCells) →
      max p.length Memory.maxCells ≤ q.address →
      Fails o listing (.fault (.addressOutOfRange q.address))
  /-- A step of the run fails. -/
  | run {e : Fault} {m : Machine} : Ends o listing (.error e m) → Fails o listing (.fault e)
  /-- The program halts, but its output is to be text and is none; the cause is the first value
  that is no character. -/
  | text {m : Machine} {before after : List Cell} {v : Cell} :
      Ends o listing (.ok () m) → o.raw = false → m.output.toList = before ++ v :: after →
      (∀ b ∈ before, b.IsScalar) → ¬v.IsScalar → Fails o listing (.fault (.notACharacter v))

/-- **The way to succeed**: the program halts in the state `m`, and if its output is to be text, all
values are characters. -/
structure Completes (o : Options) (listing : String) (m : Machine) : Prop where
  ends : Ends o listing (.ok () m)
  text : o.raw = false → ∀ v ∈ m.output.toList, v.IsScalar

/-- What is **printed** of a program that has halted in the state `m`: its output, and then the
state of the machine if that was asked for. -/
def Prints (o : Options) (m : Machine) (s : String) : Prop :=
  ∃ body, s = body ++ (if o.dump then "\n" ++ m.stateText ++ "\n" else "") ∧
    (o.raw = true → body = Text.decimalLines m.output.toList) ∧
    (o.raw = false → body.toList.map Cell.ofChar = m.output.toList)

variable {o : Options} {listing : String} {r r' : Report} {m : Machine}

/-! ### The output -/

theorem outputText_eq_ok_iff {output : Array Cell} {s : String} :
    o.outputText output = .ok s ↔
      (o.raw = true → s = Text.decimalLines output.toList) ∧
        (o.raw = false → s.toList.map Cell.ofChar = output.toList) := by
  unfold outputText
  cases hraw : o.raw with
  | true =>
      rw [if_pos rfl, Except.ok.injEq]
      constructor
      · rintro rfl
        exact ⟨fun _ => rfl, nofun⟩
      · intro h
        exact (h.1 rfl).symm
  | false =>
      rw [if_neg Bool.false_ne_true, Text.decode_eq_ok_iff]
      exact ⟨fun h => ⟨nofun, fun _ => h⟩, fun h => h.2 rfl⟩

theorem outputText_eq_error_iff {output : Array Cell} {e : Fault} :
    o.outputText output = .error e ↔
      o.raw = false ∧ ∃ before v after, output.toList = before ++ v :: after ∧
        (∀ b ∈ before, b.IsScalar) ∧ ¬v.IsScalar ∧ e = .notACharacter v := by
  unfold outputText
  cases hraw : o.raw with
  | true =>
      rw [if_pos rfl]
      exact ⟨nofun, fun h => nomatch h.1⟩
  | false =>
      rw [if_neg Bool.false_ne_true, Text.decode_eq_error_iff]
      exact (and_iff_right rfl).symm

theorem prints_iff {s : String} :
    Prints o m s ↔ ∃ body, o.outputText m.output = .ok body ∧ s = body ++ o.dumpText m := by
  constructor
  · rintro ⟨body, hs, hbody⟩
    exact ⟨body, outputText_eq_ok_iff.2 hbody, hs⟩
  · rintro ⟨body, hbody, hs⟩
    exact ⟨body, hs, outputText_eq_ok_iff.1 hbody⟩

/-- Output that can be printed as text is made of characters. -/
theorem isScalar_of_outputText {output : Array Cell} {s : String}
    (h : o.outputText output = .ok s) (hraw : o.raw = false) :
    ∀ v ∈ output.toList, v.IsScalar :=
  Text.exists_map_ofChar_iff.1 ⟨s, (outputText_eq_ok_iff.1 h).2 hraw⟩

/-! ### The answer -/

theorem ends_iff {outcome : Machine.Outcome Unit} :
    Ends o listing outcome ↔ ∃ m n, o.prepare listing = .ok m ∧ m.Concludes n outcome := by
  constructor
  · rintro ⟨p, m, n, hp, hm, hc⟩
    exact ⟨m, n, prepare_eq_ok_iff.2 ⟨p, hp, hm⟩, hc⟩
  · rintro ⟨m, n, hm, hc⟩
    obtain ⟨p, hp, hprepared⟩ := prepare_eq_ok_iff.1 hm
    exact ⟨p, m, n, hp, hprepared, hc⟩

/-- **The answer** is that to a machine that cannot be prepared, or to the end of its run. -/
theorem reports_iff :
    Reports o listing r ↔
      (∃ cause, o.prepare listing = .error cause ∧ r = .failed cause.message) ∨
      ∃ outcome, Ends o listing outcome ∧ r = o.conclude outcome := by
  simp only [Reports, report, ends_iff]
  cases hm : o.prepare listing with
  | error cause =>
      constructor
      · rintro ⟨n, hr⟩
        exact .inl ⟨cause, rfl, (Option.some.inj hr).symm⟩
      · rintro (⟨cause', hcause, rfl⟩ | ⟨outcome, ⟨m, n, hm', -⟩, -⟩)
        · cases hcause
          exact ⟨0, rfl⟩
        · cases hm'
  | ok m =>
      constructor
      · rintro ⟨n, hr⟩
        obtain ⟨outcome, hrun, rfl⟩ := Option.map_eq_some_iff.1 hr
        obtain ⟨k, -, hc⟩ := Machine.run_eq_some_iff.1 hrun
        exact .inr ⟨outcome, ⟨m, k, rfl, hc⟩, rfl⟩
      · rintro (⟨cause, hcause, -⟩ | ⟨outcome, ⟨m', n, hm', hc⟩, rfl⟩)
        · cases hcause
        · cases hm'
          obtain ⟨k, hk⟩ := Machine.returns_run_iff.2 ⟨n, hc⟩
          exact ⟨k, Option.map_eq_some_iff.2 ⟨outcome, hk, rfl⟩⟩

theorem Ends.unique {outcome outcome' : Machine.Outcome Unit} (h : Ends o listing outcome)
    (h' : Ends o listing outcome') : outcome = outcome' := by
  obtain ⟨m, n, hm, hc⟩ := ends_iff.1 h
  obtain ⟨m', n', hm', hc'⟩ := ends_iff.1 h'
  rw [hm] at hm'
  cases hm'
  exact hc.unique hc'

/-- There is one answer. -/
theorem Reports.unique (h : Reports o listing r) (h' : Reports o listing r') : r = r' := by
  rcases reports_iff.1 h with ⟨cause, hcause, rfl⟩ | ⟨outcome, hends, rfl⟩
  · rcases reports_iff.1 h' with ⟨cause', hcause', rfl⟩ | ⟨outcome, hends, -⟩
    · rw [hcause] at hcause'
      cases hcause'
      rfl
    · obtain ⟨m, n, hm, -⟩ := ends_iff.1 hends
      rw [hcause] at hm
      cases hm
  · rcases reports_iff.1 h' with ⟨cause', hcause', -⟩ | ⟨outcome', hends', rfl⟩
    · obtain ⟨m, n, hm, -⟩ := ends_iff.1 hends
      rw [hcause'] at hm
      cases hm
    · rw [hends.unique hends']

/-- There is an answer exactly if the program stops, once there is a machine to run. -/
theorem exists_reports_iff :
    (∃ r, Reports o listing r) ↔
      ∀ p m, Listing.parse listing = .ok p → Prepared o p m → ∃ n, m.StopsAfter n := by
  constructor
  · rintro ⟨r, hr⟩ p m hp hm
    have hprepare := prepare_eq_ok_iff.2 ⟨p, hp, hm⟩
    rcases reports_iff.1 hr with ⟨cause, hcause, -⟩ | ⟨outcome, hends, -⟩
    · rw [hcause] at hprepare
      cases hprepare
    · obtain ⟨m', n, hm', hc⟩ := ends_iff.1 hends
      rw [hprepare] at hm'
      cases hm'
      exact ⟨n, Machine.exists_concludes_iff.1 ⟨outcome, hc⟩⟩
  · intro h
    cases hm : o.prepare listing with
    | error cause => exact ⟨_, reports_iff.2 (.inl ⟨cause, hm, rfl⟩)⟩
    | ok m =>
        obtain ⟨p, hp, hprepared⟩ := prepare_eq_ok_iff.1 hm
        obtain ⟨n, hn⟩ := h p m hp hprepared
        obtain ⟨outcome, hc⟩ := Machine.exists_concludes_iff.2 hn
        exact ⟨_, reports_iff.2 (.inr ⟨outcome, ⟨p, m, n, hp, hprepared, hc⟩, rfl⟩)⟩

theorem conclude_of_outputText {s : String} (h : o.outputText m.output = .ok s) :
    o.conclude (.ok () m) = { status := 0, stdout := s ++ o.dumpText m } := by
  simp only [conclude, h]

theorem conclude_of_outputText_error {e : Fault} (h : o.outputText m.output = .error e) :
    o.conclude (.ok () m) = .failed (Failure.fault e).message := by
  simp only [conclude, h]

/-- **A failure is reported by its cause**, and by nothing else. -/
theorem Fails.reports {cause : Failure} (h : Fails o listing cause) :
    Reports o listing (.failed cause.message) := by
  rw [reports_iff]
  cases h with
  | listing hp => exact .inl ⟨_, prepare_of_parse_error hp, rfl⟩
  | patch hp hqs hb hq => exact .inl ⟨_, prepare_of_refused hp hqs hb hq, rfl⟩
  | run hends => exact .inr ⟨_, hends, rfl⟩
  | text hends hraw hvs hb hv =>
      refine .inr ⟨_, hends, ?_⟩
      rw [conclude_of_outputText_error
        (outputText_eq_error_iff.2 ⟨hraw, _, _, _, hvs, hb, hv, rfl⟩)]

/-- **A success is reported by what is printed.** -/
theorem reports_of_prints {s : String} (h : Ends o listing (.ok () m)) (hs : Prints o m s) :
    Reports o listing { status := 0, stdout := s } := by
  obtain ⟨body, hbody, rfl⟩ := prints_iff.1 hs
  exact reports_iff.2 (.inr ⟨_, h, (conclude_of_outputText hbody).symm⟩)

/-- **The answer is that of a failure or of a success.** -/
theorem reports_iff_fails_or_completes :
    Reports o listing r ↔
      (∃ cause, Fails o listing cause ∧ r = .failed cause.message) ∨
      ∃ m s, Completes o listing m ∧ Prints o m s ∧ r = { status := 0, stdout := s } := by
  constructor
  · intro h
    rcases reports_iff.1 h with ⟨cause, hcause, rfl⟩ | ⟨outcome, hends, rfl⟩
    · left
      rcases prepare_eq_error_iff.1 hcause with
        ⟨e, hp, rfl⟩ | ⟨p, before, q, after, hp, hqs, hb, hq, rfl⟩
      · exact ⟨_, .listing hp, rfl⟩
      · exact ⟨_, .patch hp hqs hb hq, rfl⟩
    · cases outcome with
      | error e m => exact .inl ⟨_, .run hends, rfl⟩
      | ok u m =>
          cases houtput : o.outputText m.output with
          | ok s =>
              exact .inr ⟨m, _, ⟨hends, isScalar_of_outputText houtput⟩,
                prints_iff.2 ⟨s, houtput, rfl⟩, conclude_of_outputText houtput⟩
          | error e =>
              obtain ⟨hraw, before, v, after, hvs, hb, hv, rfl⟩ :=
                outputText_eq_error_iff.1 houtput
              exact .inl ⟨_, .text hends hraw hvs hb hv, conclude_of_outputText_error houtput⟩
  · rintro (⟨cause, hfails, rfl⟩ | ⟨m, s, hm, hs, rfl⟩)
    · exact hfails.reports
    · exact reports_of_prints hm.ends hs

theorem completes_of_status (h : Reports o listing r) (hr : r.status = 0) :
    ∃ m, Completes o listing m ∧ Prints o m r.stdout := by
  rcases reports_iff_fails_or_completes.1 h with ⟨cause, -, rfl⟩ | ⟨m, s, hm, hs, rfl⟩
  · cases hr
  · exact ⟨m, hm, hs⟩

/-! ### Text against numbers -/

/-- How the output is printed has no part in the run. -/
theorem ends_printing_iff {outcome : Machine.Outcome Unit} (raw dump : Bool) :
    Ends { o with raw, dump } listing outcome ↔ Ends o listing outcome := by
  rw [ends_iff, ends_iff]
  exact Iff.rfl

/-- The numbers are printed of every program that halts. -/
theorem reports_numbers (h : Ends o listing (.ok () m)) :
    Reports { o with raw := true, dump := false } listing
      { status := 0, stdout := Text.decimalLines m.output.toList } :=
  reports_of_prints ((ends_printing_iff true false).2 h)
    ⟨Text.decimalLines m.output.toList, String.append_empty.symm, fun _ => rfl, nofun⟩

/-- The text is printed of every program that halts with one. -/
theorem reports_text {s : String} (h : Ends o listing (.ok () m))
    (hs : s.toList.map Cell.ofChar = m.output.toList) :
    Reports { o with raw := false, dump := false } listing { status := 0, stdout := s } :=
  reports_of_prints ((ends_printing_iff false false).2 h)
    ⟨s, String.append_empty.symm, nofun, fun _ => hs⟩

/-- The numbers that are printed are the output. -/
theorem numbers_printed {vs : List Cell}
    (h : Prints { o with raw := true, dump := false } m (Text.decimalLines vs)) :
    vs = m.output.toList := by
  obtain ⟨body, hs, hbody, -⟩ := h
  rw [hbody rfl] at hs
  exact Text.decimalLines_injective (hs.trans String.append_empty)

/-- The text that is printed has the output as its code points. -/
theorem text_printed {s : String} (h : Prints { o with raw := false, dump := false } m s) :
    s.toList.map Cell.ofChar = m.output.toList := by
  obtain ⟨body, hs, -, hbody⟩ := h
  rw [hs.trans String.append_empty]
  exact hbody rfl

/-- **Text is printed exactly if numbers are, and all of them are characters.** -/
theorem text_succeeds_iff :
    (∃ r, Reports { o with raw := false, dump := false } listing r ∧ r.status = 0) ↔
      ∃ r vs, Reports { o with raw := true, dump := false } listing r ∧ r.status = 0 ∧
        r.stdout = Text.decimalLines vs ∧ ∀ v ∈ vs, v.IsScalar := by
  constructor
  · rintro ⟨r, hr, hstatus⟩
    obtain ⟨m, hm, -⟩ := completes_of_status hr hstatus
    exact ⟨_, _, reports_numbers ((ends_printing_iff false false).1 hm.ends), rfl, rfl,
      hm.text rfl⟩
  · rintro ⟨r, vs, hr, hstatus, hvs, hscalar⟩
    obtain ⟨m, hm, hprints⟩ := completes_of_status hr hstatus
    rw [hvs] at hprints
    obtain ⟨s, hs⟩ := Text.exists_map_ofChar_iff.2 hscalar
    rw [numbers_printed hprints] at hs
    exact ⟨_, reports_text ((ends_printing_iff true false).1 hm.ends) hs, rfl⟩

/-- **The text has the numbers as its code points.** -/
theorem text_prints {vs : List Cell}
    (h : Reports { o with raw := false, dump := false } listing r) (hstatus : r.status = 0)
    (h' : Reports { o with raw := true, dump := false } listing r')
    (hvs : r'.stdout = Text.decimalLines vs) : r.stdout.toList.map Cell.ofChar = vs := by
  obtain ⟨m, hm, hprints⟩ := completes_of_status h hstatus
  have hends := (ends_printing_iff false false).1 hm.ends
  rw [h'.unique (reports_numbers hends)] at hvs
  rw [text_printed hprints]
  exact Text.decimalLines_injective hvs

/-! ### All or nothing -/

/-- **What holds of the answer to a listing.** -/
structure AllOrNothing (o : Options) (listing : String) : Prop where
  /-- If the listing can be read and its patches are in range, there is one machine to run. -/
  prepared : ∀ p, Listing.parse listing = .ok p →
    (∀ q ∈ o.patches, q.address < max p.length Memory.maxCells) → ∃! m, Prepared o p m
  /-- There is an answer exactly if the program stops. -/
  answers : (∃ r, Reports o listing r) ↔
    ∀ p m, Listing.parse listing = .ok p → Prepared o p m → ∃ n, m.StopsAfter n
  /-- There is one answer at most. -/
  unique : ∀ r r', Reports o listing r → Reports o listing r' → r = r'
  /-- The answer is that of a failure or of a success. -/
  cases : ∀ r, Reports o listing r →
    (∃ cause, Fails o listing cause) ∨ ∃ m, Completes o listing m
  /-- Of a failure nothing is printed but the error. -/
  failed : ∀ cause, Fails o listing cause → Reports o listing
    { status := 1, stdout := "", stderr := "Error: " ++ cause.message ++ "\n" }
  /-- Of a success all is printed, and no error. -/
  completed : ∀ m, Completes o listing m →
    ∃ s, Prints o m s ∧ Reports o listing { status := 0, stdout := s, stderr := "" }
  /-- Without the state, text is printed exactly if numbers are and all of them are characters. -/
  text_succeeds :
    (∃ r, Reports { o with raw := false, dump := false } listing r ∧ r.status = 0) ↔
      ∃ r vs, Reports { o with raw := true, dump := false } listing r ∧ r.status = 0 ∧
        r.stdout = Text.decimalLines vs ∧ ∀ v ∈ vs, v.IsScalar
  /-- The text then has the numbers as its code points. -/
  text_prints : ∀ r r' vs, Reports { o with raw := false, dump := false } listing r →
    r.status = 0 → Reports { o with raw := true, dump := false } listing r' →
    r'.stdout = Text.decimalLines vs → r.stdout.toList.map Cell.ofChar = vs

/-- Of a program that completes something can be printed. -/
theorem Completes.exists_prints (h : Completes o listing m) : ∃ s, Prints o m s := by
  cases houtput : o.outputText m.output with
  | ok s => exact ⟨_, prints_iff.2 ⟨s, houtput, rfl⟩⟩
  | error e =>
      obtain ⟨hraw, before, v, after, hvs, -, hv, -⟩ := outputText_eq_error_iff.1 houtput
      refine absurd (h.text hraw v ?_) hv
      rw [hvs]
      simp

/-- **The command line is all or nothing.** -/
theorem report_all_or_nothing (o : Options) (listing : String) : AllOrNothing o listing where
  prepared := by
    intro p _ hqs
    exact ⟨_, prepared_patched hqs, fun m hm => hm.unique (prepared_patched hqs)⟩
  answers := exists_reports_iff
  unique := fun r r' => Reports.unique
  cases := by
    intro r hr
    rcases reports_iff_fails_or_completes.1 hr with ⟨cause, hfails, -⟩ | ⟨m, s, hm, -, -⟩
    · exact .inl ⟨cause, hfails⟩
    · exact .inr ⟨m, hm⟩
  failed := fun cause hfails => hfails.reports
  completed := by
    intro m hm
    obtain ⟨s, hs⟩ := hm.exists_prints
    exact ⟨s, hs, reports_of_prints hm.ends hs⟩
  text_succeeds := text_succeeds_iff
  text_prints := fun r r' vs => text_prints

/-- A program whose last cell is patched twice, outputs a letter and then a value that is no
character, and halts by the second of the patches: as text nothing is printed, not even the
letter. -/
theorem report_all_or_nothing_lost_letter :
    ∃ o : Options, o.patches = [⟨4, 7⟩, ⟨6, 5⟩, ⟨4, 99⟩] ∧ o.raw = false ∧ o.dump = false ∧
      (∃ m, Prepared o [104, 65, 104, -1, 0] m ∧ m.memory.get 4 = 99) ∧
      (∀ r, Reports o "104,65,104,-1,0" r ↔
        r = { status := 1, stderr := "Error: output value -1 is not a character\n" }) ∧
      ∀ r, Reports { o with raw := true } "104,65,104,-1,0" r ↔
        r = { status := 0, stdout := "65\n-1\n" } := by
  have hp : Listing.parse "104,65,104,-1,0" = .ok [104, 65, 104, -1, 0] := by decide +kernel
  have hall := report_all_or_nothing { patches := [⟨4, 7⟩, ⟨6, 5⟩, ⟨4, 99⟩] } "104,65,104,-1,0"
  have hraw := report_all_or_nothing { patches := [⟨4, 7⟩, ⟨6, 5⟩, ⟨4, 99⟩], raw := true }
    "104,65,104,-1,0"
  refine ⟨{ patches := [⟨4, 7⟩, ⟨6, 5⟩, ⟨4, 99⟩] }, rfl, rfl, rfl, ?_, ?_, ?_⟩
  · obtain ⟨m, hm, -⟩ := hall.prepared _ hp (by decide)
    exact ⟨m, hm, hm.patched [⟨4, 7⟩, ⟨6, 5⟩] ⟨4, 99⟩ [] rfl (by simp)⟩
  · intro r
    have hfailed : Reports { patches := [⟨4, 7⟩, ⟨6, 5⟩, ⟨4, 99⟩] } "104,65,104,-1,0"
        { status := 1, stderr := "Error: output value -1 is not a character\n" } :=
      ⟨3, by decide +kernel⟩
    exact ⟨fun hr => hall.unique _ _ hr hfailed, fun hr => hr ▸ hfailed⟩
  · intro r
    have hprinted : Reports { patches := [⟨4, 7⟩, ⟨6, 5⟩, ⟨4, 99⟩], raw := true }
        "104,65,104,-1,0" { status := 0, stdout := "65\n-1\n" } := ⟨3, by decide +kernel⟩
    exact ⟨fun hr => hraw.unique _ _ hr hprinted, fun hr => hr ▸ hprinted⟩

end Options

end IntcodeMachine

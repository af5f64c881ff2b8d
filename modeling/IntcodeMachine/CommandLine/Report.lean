/-
**Reports.**

What the command line answers: an exit status and the texts for the two standard streams.  The
answer is all or nothing.  If anything fails, from reading the listing to decoding the output, the
status is one and nothing is printed but the error; otherwise the status is zero and the output of
the program is printed, followed by the state of the machine if that was asked for.

Main definitions:

* `Report` — an answer;
* `ReadError` — why a listing cannot be read;
* `Options.prepare` — the machine loaded and patched;
* `Options.conclude` — the answer to a run that has ended;
* `Options.report`, `Options.reportTraced` — **the answer to a listing**, plain and with a trace;
* `Invocation.report` — the answer to the arguments.
-/

import IntcodeMachine.CommandLine.Options
import IntcodeMachine.Listing
import IntcodeMachine.Machine.StateTable
import IntcodeMachine.Machine.Trace

set_option relaxedAutoImplicit false
set_option autoImplicit false

namespace IntcodeMachine

/-- An answer of the command line. -/
structure Report where
  /-- The exit status. -/
  status : Nat
  /-- The text for standard output. -/
  stdout : String := ""
  /-- The text for standard error. -/
  stderr : String := ""
deriving DecidableEq

/-- The reasons why a listing cannot be read. -/
inductive ReadError where
  /-- The system refuses, with its description and number of the error. -/
  | system (description : String) (number : Nat)
  /-- The bytes are no text in UTF-8. -/
  | notUtf8
deriving DecidableEq

namespace ReadError

/-- The words for a reason. -/
def message : ReadError → String
  | system description number => description ++ " (os error " ++ toString number ++ ")"
  | notUtf8 => "stream did not contain valid UTF-8"

end ReadError

/-- The text of a listing from its bytes, taken as UTF-8. -/
def Listing.ofBytes (bytes : ByteArray) : Except ReadError String :=
  match String.fromUTF8? bytes with
  | some text => .ok text
  | none => .error .notUtf8

/-- The reasons why a listing that was read gives no output. -/
inductive Failure where
  /-- The program cannot be loaded. -/
  | load (cause : LoadError)
  /-- A patch or the run is refused. -/
  | fault (cause : Fault)
deriving DecidableEq

namespace Failure

/-- The sentence that reports a failure. -/
def message : Failure → String
  | load cause => cause.message
  | fault cause => cause.message

end Failure

namespace Report

/-- The answer to a failure. -/
def failed (message : String) : Report := { status := 1, stderr := "Error: " ++ message ++ "\n" }

/-- The answer to refused arguments. -/
def usage (e : UsageError) : Report :=
  { status := 1, stderr := e.message ++ "\nRun intcode --help for more information.\n" }

/-- The lines of the help text. -/
def helpLines : List String :=
  ["Usage: intcode [-i <input>] [--ascii <ascii...>] [--patch <patch...>] [--raw] [--dump] [--] [<program>]",
    "",
    "Runs an Intcode program to completion and prints its output as text.",
    "",
    "Positional Arguments:",
    "  program           the program listing to run, if not specified, stdin is used",
    "",
    "Options:",
    "  -i, --input       the value every input instruction reads",
    "  --ascii           a line of ASCII input, queued with a trailing newline; may",
    "                    be repeated, and replaces --input",
    "  --patch           overwrite a memory cell before running, written",
    "                    ADDRESS=VALUE; may be repeated",
    "  --raw             print the raw output values, one per line",
    "  --dump            print the machine state after the program halts",
    "  --help, help      display usage information",
    ""]

/-- The answer to a request for help. -/
def help : Report := { status := 0, stdout := String.join (helpLines.map (· ++ "\n")) }

/-- An answer with the trace of its run in front of what it prints on standard error. -/
def withTrace (r : Report) (trace : Array TraceEntry) : Report :=
  { r with
    stderr := "Computation Tracing ENABLED\n" ++ String.join (trace.toList.map TraceEntry.line) ++
      r.stderr }

end Report

namespace Options

/-- The machine with the program of a listing, its input, and the patches made. -/
def prepare (o : Options) (listing : String) : Except Failure Machine :=
  match Machine.ofListing listing o.input with
  | .error e => .error (.load e)
  | .ok m =>
      match Patch.apply o.patches m with
      | .ok () m => .ok m
      | .error fault _ => .error (.fault fault)

/-- The output as it is printed: each value on a line of its own, or the text. -/
def outputText (o : Options) (output : Array Cell) : Except Fault String :=
  if o.raw then .ok (String.join (output.toList.map fun value => value.text ++ "\n"))
  else Text.decode output.toList

/-- The state of the machine as it is printed, if that was asked for. -/
def dumpText (o : Options) (m : Machine) : String :=
  if o.dump then "\n" ++ m.stateText ++ "\n" else ""

/-- The answer to a run that has ended. -/
def conclude (o : Options) : Machine.Outcome Unit → Report
  | .error fault _ => .failed (Failure.fault fault).message
  | .ok () m =>
      match o.outputText m.output with
      | .ok text => { status := 0, stdout := text ++ o.dumpText m }
      | .error fault => .failed (Failure.fault fault).message

/-- The answer to a listing that cannot be read. -/
def unread (e : ReadError) : Report := .failed ("could not read the program: " ++ e.message)

/-- The answer to a listing, if the program stops within `n` steps. -/
def report (o : Options) (n : Nat) : Except ReadError String → Option Report
  | .error e => some (unread e)
  | .ok listing =>
      match o.prepare listing with
      | .error e => some (.failed e.message)
      | .ok m => (m.run n).map o.conclude

/-- The answer to a listing with a trace, if the program stops within `n` steps. -/
def reportTraced (o : Options) (n : Nat) : Except ReadError String → Option Report
  | .error e => some ((unread e).withTrace #[])
  | .ok listing =>
      match o.prepare listing with
      | .error e => some ((Report.failed e.message).withTrace #[])
      | .ok m => (m.runTraced n #[]).map fun (trace, outcome) => (o.conclude outcome).withTrace trace

end Options

namespace Invocation

/-- The answer to the arguments `args`.  If they ask for a run, `listing` is what was read from its
source, and there is an answer if the program stops within `n` steps. -/
def report (traced : Bool) (n : Nat) (args : List String)
    (listing : Options → Except ReadError String) : Option Report :=
  match parse args with
  | .error e => some (.usage e)
  | .ok .help => some .help
  | .ok (.run o) => if traced then o.reportTraced n (listing o) else o.report n (listing o)

end Invocation

end IntcodeMachine

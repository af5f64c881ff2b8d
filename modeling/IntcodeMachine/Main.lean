/-
**The command line.**

Reads the listing that the arguments name, and prints the answer.  All that is decided is decided
by `Invocation.report`; this module talks to the system.
-/

import IntcodeMachine.CommandLine.Report

set_option relaxedAutoImplicit false
set_option autoImplicit false

namespace IntcodeMachine

namespace CommandLine

/-- The number of steps a program may make: more than can be made in practice. -/
def stepLimit : Nat := 1000000000000000000

/-- The reason for which the system refused to read. -/
def readError : IO.Error → ReadError
  | .alreadyExists _ n details | .otherError n details | .resourceBusy n details
  | .resourceVanished n details | .unsupportedOperation n details | .hardwareFault n details
  | .unsatisfiedConstraints n details | .illegalOperation n details | .protocolError n details
  | .timeExpired n details | .interrupted _ n details | .noFileOrDirectory _ n details
  | .invalidArgument _ n details | .permissionDenied _ n details
  | .resourceExhausted _ n details | .inappropriateType _ n details
  | .noSuchThing _ n details => .system details n.toNat
  | .unexpectedEof => .system "end of file" 0
  | .userError details => .system details 0

/-- Reads a listing from a path, or from standard input. -/
def readListing (path : Option String) : IO (Except ReadError String) := do
  try
    let bytes ←
      match path with
      | some path => do
          let file ← IO.FS.Handle.mk path .read
          file.readBinToEnd
      | none => (← IO.getStdin).readBinToEnd
    return Listing.ofBytes bytes
  catch e =>
    return .error (readError e)

end CommandLine

end IntcodeMachine

open IntcodeMachine in
/-- Runs the command line. -/
def main (args : List String) : IO UInt32 := do
  let listing ←
    match Invocation.parse args with
    | .ok (.run o) => CommandLine.readListing o.program
    | _ => pure (.ok "")
  match Invocation.report false CommandLine.stepLimit args fun _ => listing with
  | some report =>
      IO.print report.stdout
      IO.eprint report.stderr
      return UInt32.ofNat report.status
  | none => return 2

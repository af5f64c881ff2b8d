/-
**Command-line options.**

The arguments of the program, read from left to right.  An argument that begins with a minus sign
is an option, up to the argument `--`, after which none is.  Any other argument is the path of the
program to run, of which there is at most one.  A request for help is remembered, and no option may
follow it.

Main definitions:

* `Options` — what a program is run with;
* `Invocation` — what the arguments ask for;
* `UsageError`, `UsageError.message` — why arguments are refused;
* `Invocation.parse` — **what a list of arguments asks for**.
-/

import IntcodeMachine.CommandLine.Patch
import IntcodeMachine.Text.CodePoint

set_option relaxedAutoImplicit false
set_option autoImplicit false

namespace IntcodeMachine

/-- What a program is run with. -/
structure Options where
  /-- The path of the listing; without one it is read from standard input. -/
  program : Option String := none
  /-- The value that every request for input is answered with, if one was given. -/
  value? : Option Cell := none
  /-- Lines of input; if there are any, they replace the value. -/
  ascii : List String := []
  /-- The patches to be made before the run, in order. -/
  patches : List Patch := []
  /-- Whether the output is printed as numbers. -/
  raw : Bool := false
  /-- Whether the state of the machine is printed after the run. -/
  dump : Bool := false
deriving DecidableEq

namespace Options

/-- The input of the program: the lines if there are any, else the value, which is one by
default. -/
def input (o : Options) : Input :=
  if o.ascii.isEmpty then .constant (o.value?.getD 1) else .queue (Text.encodeLines o.ascii)

end Options

/-! ### Refused arguments -/

/-- The reasons why the value of an option is refused. -/
inductive ValueError where
  /-- The option may be given once only. -/
  | repeated
  /-- The value is no integer. -/
  | numeral (why : NumeralError)
  /-- The value is no patch. -/
  | patch (why : PatchError)
deriving DecidableEq

namespace ValueError

/-- The words for a reason. -/
def message : ValueError → String
  | repeated => "duplicate values provided"
  | numeral why => why.message
  | patch why => why.message

end ValueError

/-- The reasons why arguments are refused. -/
inductive UsageError where
  /-- An option follows a request for help. -/
  | optionAfterHelp
  /-- The argument is no option, or a second path. -/
  | unrecognized (argument : String)
  /-- The option needs a value and is the last argument. -/
  | noValue (option : String)
  /-- The option does not take the value. -/
  | badValue (option value : String) (why : ValueError)
deriving DecidableEq

namespace UsageError

/-- The text that reports refused arguments. -/
def message : UsageError → String
  | optionAfterHelp => "Trailing arguments are not allowed after `help`."
  | unrecognized argument => "Unrecognized argument: " ++ argument ++ "\n"
  | noValue option => "No value provided for option '" ++ option ++ "'.\n"
  | badValue option value why =>
      "Error parsing option '" ++ option ++ "' with value '" ++ value ++ "': " ++ why.message ++
        "\n"

end UsageError

/-! ### Reading the arguments -/

namespace Options

/-- Takes the path of the program; there is room for one. -/
def setProgram (o : Options) (path : String) : Except UsageError Options :=
  match o.program with
  | none => .ok { o with program := some path }
  | some _ => .error (.unrecognized path)

/-- Takes the value of the input, by the name of the option; it may be given once, and a second
one is refused unseen. -/
def setValue (o : Options) (option text : String) : Except UsageError Options :=
  match o.value? with
  | some _ => .error (.badValue option text .repeated)
  | none =>
      match Text.readCell text.toList with
      | .ok value => .ok { o with value? := some value }
      | .error why => .error (.badValue option text (.numeral why))

/-- Takes a further line of input. -/
def addLine (o : Options) (line : String) : Except UsageError Options :=
  .ok { o with ascii := o.ascii ++ [line] }

/-- Takes a further patch, by the name of the option. -/
def addPatch (o : Options) (option text : String) : Except UsageError Options :=
  match Patch.parse text with
  | .ok patch => .ok { o with patches := o.patches ++ [patch] }
  | .error why => .error (.badValue option text (.patch why))

/-- The effect of an option that takes a value; there is none for any other text. -/
def valued? (option : String) : Option (Options → String → Except UsageError Options) :=
  if option = "-i" ∨ option = "--input" then some fun o text => o.setValue option text
  else if option = "--ascii" then some fun o text => o.addLine text
  else if option = "--patch" then some fun o text => o.addPatch option text
  else none

/-- The effect of an option that takes no value; there is none for any other text. -/
def switch? (option : String) : Option (Options → Options) :=
  if option = "--raw" then some fun o => { o with raw := true }
  else if option = "--dump" then some fun o => { o with dump := true }
  else none

end Options

/-- What the arguments ask for. -/
inductive Invocation where
  /-- The help text. -/
  | help
  /-- A run. -/
  | run (options : Options)
deriving DecidableEq

namespace Invocation

/-- What is asked for once all arguments are read. -/
def ofOptions (helped : Bool) (o : Options) : Invocation := if helped then .help else .run o

/-- Reads arguments none of which is an option. -/
def parsePaths (helped : Bool) : Options → List String → Except UsageError Invocation
  | o, [] => .ok (ofOptions helped o)
  | o, arg :: args =>
      match o.setProgram arg with
      | .ok o => parsePaths helped o args
      | .error e => .error e

/-- Reads arguments after those that gave `o`; `helped` tells whether help was asked for. -/
def parseFrom : Bool → Options → List String → Except UsageError Invocation
  | helped, o, [] => .ok (ofOptions helped o)
  | helped, o, arg :: args =>
      if arg = "--help" ∨ arg = "help" then parseFrom true o args
      else if arg = "--" then parsePaths helped o args
      else if arg.toList.head? = some '-' then
        if helped then .error .optionAfterHelp
        else
          match Options.switch? arg, Options.valued? arg, args with
          | some set, _, args => parseFrom helped (set o) args
          | none, some take, text :: args =>
              match take o text with
              | .ok o => parseFrom helped o args
              | .error e => .error e
          | none, some _, [] => .error (.noValue arg)
          | none, none, _ => .error (.unrecognized arg)
      else
        match o.setProgram arg with
        | .ok o => parseFrom helped o args
        | .error e => .error e

/-- What a list of arguments asks for. -/
def parse (args : List String) : Except UsageError Invocation := parseFrom false {} args

end Invocation

end IntcodeMachine

/-
**Load errors.**

The causes for which a program cannot be loaded, with their wording.

Main definitions:

* `LoadError` — the causes;
* `LoadError.message` — the sentence that reports a cause.
-/

set_option relaxedAutoImplicit false
set_option autoImplicit false

namespace IntcodeMachine

/-- The causes for which a program cannot be loaded. -/
inductive LoadError where
  /-- The program has no cells. -/
  | emptyProgram
  /-- A field of the listing is no integer: its text, and the number of bytes of the listing in
  front of it. -/
  | malformed (offset : Nat) (token : String)
deriving DecidableEq

namespace LoadError

/-- The sentence that reports a load error. -/
def message : LoadError → String
  | emptyProgram => "the program listing is empty"
  | malformed offset token =>
      "malformed program: `" ++ token ++ "` at byte " ++ toString offset ++ " is not an integer"

end LoadError

end IntcodeMachine

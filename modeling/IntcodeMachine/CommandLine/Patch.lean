/-
**Patches.**

A patch overwrites one cell of memory before a program runs.  It is written as an address and a
value with an equals sign between them; blank characters around either are of no account.

Main definitions:

* `Patch` — a patch;
* `PatchError` — why a text is no patch;
* `Patch.parse` — **the patch that a text stands for**;
* `Patch.apply` — a list of patches applied in order.
-/

import IntcodeMachine.Machine.Basic
import IntcodeMachine.Text.Blank
import IntcodeMachine.Text.Numeral

set_option relaxedAutoImplicit false
set_option autoImplicit false

namespace IntcodeMachine

/-- A cell to be overwritten. -/
structure Patch where
  /-- The address of the cell. -/
  address : Nat
  /-- Its new value. -/
  value : Cell
deriving DecidableEq

/-- The reasons why a text is no patch. -/
inductive PatchError where
  /-- There is no equals sign. -/
  | noSeparator (text : String)
  /-- The text before the equals sign is no address. -/
  | badAddress (text : String) (why : NumeralError)
  /-- The text after the equals sign is no value. -/
  | badValue (text : String) (why : NumeralError)
deriving DecidableEq

namespace PatchError

/-- The words for a reason. -/
def message : PatchError → String
  | noSeparator text => "expected ADDRESS=VALUE, got `" ++ text ++ "`"
  | badAddress text why => "bad address `" ++ text ++ "`: " ++ why.message
  | badValue text why => "bad value `" ++ text ++ "`: " ++ why.message

end PatchError

namespace Patch

/-- The two sides of the first equals sign of a text. -/
def sides? (cs : List Char) : Option (List Char × List Char) :=
  match cs.dropWhile (· != '=') with
  | [] => none
  | _ :: value => some (cs.takeWhile (· != '='), value)

/-- The patch that a text stands for.  The address is looked at before the value. -/
def parse (text : String) : Except PatchError Patch :=
  match sides? text.toList with
  | none => .error (.noSeparator text)
  | some (left, right) =>
      let address := Text.trim Text.isBlank left
      let value := Text.trim Text.isBlank right
      match Text.readNat64 address with
      | .error why => .error (.badAddress (String.ofList address) why)
      | .ok a =>
          match Text.readCell value with
          | .error why => .error (.badValue (String.ofList value) why)
          | .ok v => .ok ⟨a, v⟩

/-- Applies patches in order, up to the first that is refused. -/
def apply : List Patch → Machine.Exec Unit
  | [] => pure ()
  | p :: ps => do
      Machine.patch p.address p.value
      apply ps

end Patch

end IntcodeMachine

/-
**Text that goes in comes out.**

Text goes into a program as a queue of code points, line after line, and comes out as a list of
values that are read as characters.  Writing and reading are two different functions, and this
module proves them inverse to each other.  Reading succeeds exactly on the values that spell a text,
code point by code point, and otherwise fails with the first value that is no Unicode scalar value.
So lines that are queued, taken from the queue one value at a time and put out as they come are read
as the same lines.

Main definitions:

* `Text.Spells` — values that are the code points of a text, in order;
* `Input.ofLines` — the queue that lines of text are fed to one after the other.

Main results:

* `Text.decode_eq_ok_iff_spells` — **reading succeeds exactly on what spells a text**;
* `Text.spells_encodeLines`, `Text.length_encodeLines`, `Input.ofLines_eq` — what the queue of some
  lines holds;
* `Text.output_inverts_input` — **reading output is the inverse of writing input**.
-/

import IntcodeMachine.Input
import IntcodeMachine.Proofs.Text.Output

set_option relaxedAutoImplicit false
set_option autoImplicit false

namespace IntcodeMachine

/-! ### Spelling -/

namespace Text

/-- Some values **spell** a text if they are the code points of its characters, in order. -/
def Spells (vs : List Cell) (s : String) : Prop :=
  vs.map Int64.toInt = s.toList.map fun c => (c.toNat : Int)

variable {vs : List Cell} {s : String}

theorem spells_iff : Spells vs s ↔ s.toList.map Cell.ofChar = vs := by
  have hcodes : (s.toList.map Cell.ofChar).map Int64.toInt =
      s.toList.map fun c => (c.toNat : Int) := by
    rw [List.map_map]
    exact List.map_congr_left fun c _ => Cell.toInt_ofChar c
  rw [Spells, ← hcodes, eq_comm]
  exact (List.map_injective_iff.2 fun a b h => Int64.toInt_inj.1 h).eq_iff

/-- **Reading succeeds exactly on what spells a text**, and gives that text. -/
theorem decode_eq_ok_iff_spells : decode vs = .ok s ↔ Spells vs s := by
  rw [decode_eq_ok_iff, spells_iff]

/-! ### Lines -/

theorem encodeLines_cons (line : String) (lines : List String) :
    encodeLines (line :: lines) = encodeLine line ++ encodeLines lines :=
  List.flatMap_cons

theorem length_encodeLine (line : String) : (encodeLine line).length = line.length + 1 := by
  simp [encodeLine, String.length_toList]

/-- The cells of a line spell the line with a line feed after it. -/
theorem spells_encodeLine (line : String) : Spells (encodeLine line) (line ++ "\n") := by
  rw [spells_iff, encodeLine, String.toList_append, List.map_append]
  rfl

theorem Spells.append {ws : List Cell} {t : String} (h : Spells vs s) (h' : Spells ws t) :
    Spells (vs ++ ws) (s ++ t) := by
  rw [Spells, List.map_append, String.toList_append, List.map_append]
  exact congrArg₂ (· ++ ·) h h'

/-- **The cells of some lines spell** each of them with a line feed after it. -/
theorem spells_encodeLines (lines : List String) :
    Spells (encodeLines lines) (String.join (lines.map (· ++ "\n"))) := by
  induction lines with
  | nil => rfl
  | cons line lines ih =>
      rw [encodeLines_cons, List.map_cons, String.join_cons]
      exact (spells_encodeLine line).append ih

theorem length_encodeLines (lines : List String) :
    (encodeLines lines).length = (lines.map fun line => line.length + 1).sum := by
  induction lines with
  | nil => rfl
  | cons line lines ih =>
      rw [encodeLines_cons, List.length_append, length_encodeLine, ih, List.map_cons, List.sum_cons]

end Text

/-! ### Queues -/

namespace Input

/-- **The queue of some lines**: it is empty at first, and is fed one line after the other. -/
def ofLines (lines : List String) : Input :=
  lines.foldl (fun source line => source.feed (Text.encodeLine line)) (queue [])

theorem ofLines_eq (lines : List String) : ofLines lines = queue (Text.encodeLines lines) := by
  have hfeed : ∀ vs,
      lines.foldl (fun source line => source.feed (Text.encodeLine line)) (queue vs) =
        queue (vs ++ Text.encodeLines lines) := by
    induction lines with
    | nil =>
        intro vs
        simp [Text.encodeLines]
    | cons line lines ih =>
        intro vs
        rw [List.foldl_cons, feed_queue, ih, Text.encodeLines_cons, List.append_assoc]
  exact hfeed []

end Input

namespace Text

/-- **Reading output is the inverse of writing input.**  Output is read as a text exactly if its
values spell that text; otherwise it is refused, for the first value that is no scalar value.  And
if the queue of some lines is drained, and the values are put out one after the other, then the
output is read as these lines, each with a line feed after it. -/
theorem output_inverts_input :
    (∀ (output : Array Cell) (s : String),
      decode output.toList = .ok s ↔ Spells output.toList s) ∧
    (∀ (output : Array Cell) (e : Fault), decode output.toList = .error e ↔
      ∃ before v after, output.toList = before ++ v :: after ∧ (∀ b ∈ before, b.IsScalar) ∧
        ¬v.IsScalar ∧ e = .notACharacter v) ∧
    (∀ lines : List String, ∃ vs : List Cell,
      (Input.ofLines lines).pending.length = (lines.map fun line => line.length + 1).sum ∧
      (∀ n, (lines.map fun line => line.length + 1).sum ≤ n →
        (Input.ofLines lines).take n = (vs, .queue [])) ∧
      decode (vs.foldl Array.push #[]).toList = .ok (String.join (lines.map (· ++ "\n")))) := by
  refine ⟨fun _ _ => decode_eq_ok_iff_spells, fun _ _ => decode_eq_error_iff, ?_⟩
  intro lines
  refine ⟨encodeLines lines, ?_, ?_, ?_⟩
  · rw [Input.ofLines_eq, Input.pending_queue, length_encodeLines]
  · intro n hn
    rw [Input.ofLines_eq]
    exact Input.take_of_length_le (by rwa [length_encodeLines])
  · rw [List.foldl_push_eq_append]
    simpa using decode_eq_ok_iff_spells.2 (spells_encodeLines lines)

/-- Two lines, one of them empty, with a character beyond the Basic Multilingual Plane; and a list
of values in which a letter comes before a surrogate and a negative value. -/
theorem output_inverts_input_two_lines :
    (∃ vs, (Input.ofLines ["a😀", ""]).take 9 = (vs, .queue []) ∧ vs = [97, 128512, 10, 10] ∧
      decode (vs.foldl Array.push #[]).toList = .ok "a😀\n\n") ∧
    decode (#[65, 0xDFFF, -1] : Array Cell).toList = .error (.notACharacter 0xDFFF) := by
  obtain ⟨-, hrefused, hlines⟩ := output_inverts_input
  constructor
  · obtain ⟨vs, -, htake, hdecode⟩ := hlines ["a😀", ""]
    have hvs := htake 9 (by decide)
    refine ⟨vs, hvs, ?_, hdecode⟩
    cases hvs
    rfl
  · have hletter : Cell.IsScalar 65 := ⟨by decide, by decide, by decide⟩
    have hsurrogate : ¬Cell.IsScalar 0xDFFF := fun h => h.2.2 ⟨by decide, by decide⟩
    exact (hrefused _ _).2 ⟨[65], 0xDFFF, [-1], rfl, by simpa using hletter, hsurrogate, rfl⟩

end Text

end IntcodeMachine

/-
**What a table prints.**

A table puts its entries on lines, sets them in columns and draws a frame around them.  The frame and
the filling are made of a few characters of their own.  So any other character occurs on the lines of
a table as often as it occurs in the titles and the entries, however wide the columns are, and this
remains true of a table whose entries are the lines of other tables.

Main definitions:

* `Text.Spaces` — the texts that fill a line;
* `Text.occurrences` — how often a character occurs on some lines;
* `Table.frame` — the characters of the frame and the filling.

Main results:

* `Align.pad_left_eq`, `Align.pad_right_eq`, `Align.length_pad` — a line and its filling;
* `Table.lines_of_single` — **a table of entries with one line each has one line for each row**;
* `Table.getElem?_rowLines` — the lines of a taller row;
* `Table.occurrences_lines` — **nothing is added to the entries but the frame**.
-/

import IntcodeMachine.Text.Table

set_option relaxedAutoImplicit false
set_option autoImplicit false

namespace IntcodeMachine

/-! ### Filling -/

namespace Text

/-- A text of spaces. -/
def Spaces (s : String) : Prop := ∀ c ∈ s.toList, c = ' '

theorem toList_pushn (c : Char) (n : Nat) : ("".pushn c n).toList = List.replicate n c := by
  rw [String.pushn_eq_repeat_push]
  induction n with
  | zero => rfl
  | succ n ih => rw [Nat.repeat, String.toList_push, ih, ← List.replicate_succ']

theorem spaces_pushn (n : Nat) : Spaces ("".pushn ' ' n) := by
  intro c hc
  rw [toList_pushn] at hc
  exact List.eq_of_mem_replicate hc

theorem Spaces.append {s t : String} (hs : Spaces s) (ht : Spaces t) : Spaces (s ++ t) := by
  intro c hc
  rw [String.toList_append, List.mem_append] at hc
  rcases hc with hc | hc
  · exact hs c hc
  · exact ht c hc

end Text

namespace Align

theorem pad_left_eq (width : Nat) (line : String) :
    ∃ fill, left.pad width line = line ++ fill ∧ Text.Spaces fill :=
  ⟨_, rfl, Text.spaces_pushn _⟩

theorem pad_right_eq (width : Nat) (line : String) :
    ∃ fill, right.pad width line = fill ++ line ∧ Text.Spaces fill :=
  ⟨_, rfl, Text.spaces_pushn _⟩

/-- A line is filled up to the width, or left as it is. -/
theorem length_pad (align : Align) (width : Nat) (line : String) :
    (align.pad width line).length = max width line.length := by
  cases align with
  | left =>
      simp only [pad, String.length_append, String.length_pushn, String.length_empty]
      omega
  | right =>
      simp only [pad, String.length_append, String.length_pushn, String.length_empty]
      omega

end Align

/-! ### Lines -/

namespace Table

variable (t : Table) (w₁ w₂ : Nat)

/-- A row whose entries have a line each is one line. -/
theorem rowLines_single (a b : String) : t.rowLines w₁ w₂ ([a], [b]) = [t.line w₁ w₂ a b] := rfl

@[simp] theorem rowLines_nil : t.rowLines w₁ w₂ ([], []) = [] := rfl

theorem rowLines_cons_cons (a b : String) (as bs : List String) :
    t.rowLines w₁ w₂ (a :: as, b :: bs) = t.line w₁ w₂ a b :: t.rowLines w₁ w₂ (as, bs) := by
  have hmax : max (as.length + 1) (bs.length + 1) = max as.length bs.length + 1 := by omega
  simp [rowLines, hmax, List.range_succ_eq_map, Function.comp_def]

theorem rowLines_cons_nil (a : String) (as : List String) :
    t.rowLines w₁ w₂ (a :: as, []) = t.line w₁ w₂ a "" :: t.rowLines w₁ w₂ (as, []) := by
  simp [rowLines, List.range_succ_eq_map, Function.comp_def]

theorem rowLines_nil_cons (b : String) (bs : List String) :
    t.rowLines w₁ w₂ ([], b :: bs) = t.line w₁ w₂ "" b :: t.rowLines w₁ w₂ ([], bs) := by
  simp [rowLines, List.range_succ_eq_map, Function.comp_def]

/-- The lines of a row have a line of either entry each, as far as these have any. -/
theorem getElem?_rowLines {row : List String × List String} {k : Nat} {a : String}
    (h : row.1[k]? = some a) :
    (t.rowLines w₁ w₂ row)[k]? = some (t.line w₁ w₂ a (row.2.getD k "")) := by
  obtain ⟨hk, -⟩ := List.getElem?_eq_some_iff.1 h
  have hmax : k < max row.1.length row.2.length := by omega
  simp [rowLines, hmax, h]

/-- The lines between the titles with their rule and the rule at the bottom. -/
theorem getElem?_body {ls : List String} {k : Nat} {l : String} (h : ls[k]? = some l)
    (title rule₁ rule₂ : String) : ([title, rule₁] ++ ls ++ [rule₂])[k + 2]? = some l := by
  obtain ⟨hk, -⟩ := List.getElem?_eq_some_iff.1 h
  change (ls ++ [rule₂])[k]? = some l
  rw [List.getElem?_append_left hk, h]

/-- A table of one row has the lines of the row between its two rules. -/
theorem lines_of_row {row : List String × List String} (h : t.rows = [row]) :
    ∃ w₁ w₂, t.lines =
      [t.line w₁ w₂ t.first.title t.second.title, rule w₁ w₂ "┼"] ++ t.rowLines w₁ w₂ row ++
        [rule w₁ w₂ "┴"] := by
  refine ⟨t.first.width (t.rows.map Prod.fst), t.second.width (t.rows.map Prod.snd), ?_⟩
  rw [lines, h, List.flatMap_singleton]

/-- **A table of entries with one line each** has one line for each row, between the two rules. -/
theorem lines_of_single {α : Type} {f g : α → String} {xs : List α}
    (h : t.rows = xs.map fun x => ([f x], [g x])) :
    ∃ w₁ w₂, t.lines =
      [t.line w₁ w₂ t.first.title t.second.title, rule w₁ w₂ "┼"] ++
        xs.map (fun x => t.line w₁ w₂ (f x) (g x)) ++ [rule w₁ w₂ "┴"] := by
  have hrows : ∀ w₁ w₂, t.rows.flatMap (t.rowLines w₁ w₂) =
      xs.map fun x => t.line w₁ w₂ (f x) (g x) := by
    intro w₁ w₂
    rw [h, List.flatMap_map, List.map_eq_flatMap]
    simp only [rowLines_single]
  refine ⟨t.first.width (t.rows.map Prod.fst), t.second.width (t.rows.map Prod.snd), ?_⟩
  rw [← hrows]
  rfl

end Table

/-! ### Counting a character -/

namespace Text

/-- How often a character occurs on some lines. -/
def occurrences (c : Char) (ls : List String) : Nat := (ls.flatMap String.toList).count c

variable (c : Char)

@[simp] theorem occurrences_nil : occurrences c [] = 0 := rfl

@[simp] theorem occurrences_cons (l : String) (ls : List String) :
    occurrences c (l :: ls) = l.toList.count c + occurrences c ls := by
  simp [occurrences, List.count_append]

@[simp] theorem occurrences_append (ls ls' : List String) :
    occurrences c (ls ++ ls') = occurrences c ls + occurrences c ls' := by
  simp [occurrences, List.count_append]

end Text

namespace Table

open Text

/-- The characters of the frame and the filling. -/
def frame : List Char := [' ', '│', '─', '┼', '┴']

section Count

variable {c : Char} (hc : c ∉ frame)
include hc

theorem ne_of_mem_frame {d : Char} (hd : d ∈ frame) : d ≠ c := by
  rintro rfl
  exact hc hd

theorem count_pushn_eq_zero {d : Char} (hd : d ∈ frame) (n : Nat) :
    ("".pushn d n).toList.count c = 0 := by
  rw [toList_pushn, List.count_replicate, if_neg]
  rw [beq_iff_eq]
  exact ne_of_mem_frame hc hd

theorem count_pad (align : Align) (width : Nat) (line : String) :
    (align.pad width line).toList.count c = line.toList.count c := by
  have hfill := count_pushn_eq_zero hc (d := ' ') (by simp [frame]) (width - line.length)
  cases align with
  | left => simp [Align.pad, String.toList_append, List.count_append, hfill]
  | right => simp [Align.pad, String.toList_append, List.count_append, hfill]

theorem count_line (t : Table) (w₁ w₂ : Nat) (a b : String) :
    (t.line w₁ w₂ a b).toList.count c = a.toList.count c + b.toList.count c := by
  have hspace : ' ' ≠ c := ne_of_mem_frame hc (by simp [frame])
  have hbar : '│' ≠ c := ne_of_mem_frame hc (by simp [frame])
  simp [line, String.toList_append, List.count_append, count_pad hc, hspace, hbar]

theorem count_rule (w₁ w₂ : Nat) {mark : String} (hmark : ∀ d ∈ mark.toList, d ∈ frame) :
    (rule w₁ w₂ mark).toList.count c = 0 := by
  have hspace : ' ' ≠ c := ne_of_mem_frame hc (by simp [frame])
  have hfill := count_pushn_eq_zero hc (d := '─') (by simp [frame])
  have hzero : mark.toList.count c = 0 := by
    rw [List.count_eq_zero]
    intro hm
    exact hc (hmark c hm)
  simp [rule, String.toList_append, List.count_append, hfill, hzero, hspace]

/-- A row prints its two entries, whichever is the taller one. -/
theorem occurrences_rowLines (t : Table) (w₁ w₂ : Nat) (as bs : List String) :
    occurrences c (t.rowLines w₁ w₂ (as, bs)) = occurrences c as + occurrences c bs := by
  induction as generalizing bs with
  | nil =>
      induction bs with
      | nil => simp
      | cons b bs ih =>
          rw [rowLines_nil_cons, occurrences_cons, ih, count_line hc]
          simp
  | cons a as ih =>
      cases bs with
      | nil =>
          rw [rowLines_cons_nil, occurrences_cons, ih, count_line hc]
          simp
      | cons b bs =>
          rw [rowLines_cons_cons, occurrences_cons, ih, count_line hc, occurrences_cons,
            occurrences_cons]
          omega

theorem occurrences_flatMap_rowLines (t : Table) (w₁ w₂ : Nat)
    (rows : List (List String × List String)) :
    occurrences c (rows.flatMap (t.rowLines w₁ w₂)) =
      occurrences c (rows.flatMap fun row => row.1 ++ row.2) := by
  induction rows with
  | nil => rfl
  | cons row rows ih =>
      rw [List.flatMap_cons, List.flatMap_cons, occurrences_append, occurrences_append, ih,
        occurrences_rowLines hc, occurrences_append]

/-- **Nothing is added to the titles and the entries of a table but its frame.** -/
theorem occurrences_lines (t : Table) :
    occurrences c t.lines =
      occurrences c [t.first.title, t.second.title] +
        occurrences c (t.rows.flatMap fun row => row.1 ++ row.2) := by
  have hcross : ∀ d ∈ "┼".toList, d ∈ frame := by simp [frame]
  have hfoot : ∀ d ∈ "┴".toList, d ∈ frame := by simp [frame]
  simp only [lines, occurrences_append, occurrences_cons, occurrences_nil,
    occurrences_flatMap_rowLines hc, count_line hc, count_rule hc _ _ hcross,
    count_rule hc _ _ hfoot]
  omega

end Count

/-- The text of a table has the characters of its lines, the line ends apart. -/
theorem count_text {c : Char} (hc : c ≠ '\n') (t : Table) :
    t.text.toList.count c = occurrences c t.lines := by
  unfold text
  induction t.lines with
  | nil => rfl
  | cons l ls ih =>
      rw [List.map_cons, String.join_cons, String.toList_append, List.count_append, ih]
      simp [String.toList_append, List.count_append, hc.symm]

end Table

end IntcodeMachine

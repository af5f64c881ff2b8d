/-
**What the state table shows.**

The text of a state shows the cells around the program counter, each on a line with its address, and
an arrow at the program counter.  The window is cut off at address zero and at the end of memory.
Since a jump may lead anywhere, the program counter may lie past the end, and then the window is cut
off on one side or is empty altogether; it is empty once the program counter is more than a window's
radius past the last cell.  A machine that was loaded has a cell, so there is a last one.

The arrow is followed into the printed text: its star occurs there once if memory has the cell at
the program counter, and otherwise not at all.

Main definitions:

* `Machine.Reachable` — the states that a machine can be in;
* `Machine.near` — **the addresses around the program counter**;
* `Machine.ShowsCell`, `Machine.Marked` — a row that shows a cell, and one with the arrow;
* `Machine.Bears` — a printed line with a row on it;
* `Machine.ShowsWindow` — what the state table has to do with the addresses.

Main results:

* `Machine.Reachable.size_pos` — a machine that was loaded has a cell;
* `Machine.memoryTable_rows` — **the rows of the memory table are those of the addresses**;
* `Machine.length_near_le`, `Machine.near_eq_nil_iff` — how many there are;
* `Machine.bears_line` — each row is printed on a line of its own;
* `Machine.count_star_stateText` — **the arrow in the printed text**;
* `Machine.state_shows_window` — all of it, of every reachable state.
-/

import IntcodeMachine.Machine.StateTable
import IntcodeMachine.Proofs.Session
import IntcodeMachine.Proofs.Text.Numeral
import IntcodeMachine.Proofs.Text.Table
import Mathlib.Data.List.Sort

set_option relaxedAutoImplicit false
set_option autoImplicit false

namespace IntcodeMachine

namespace Machine

/-! ### Reachable states -/

/-- **The states that a machine can be in**: it was loaded, and then called and fed, whatever the
calls have answered. -/
inductive Reachable : Machine → Prop
  | load {p : List Cell} {input : Input} {m : Machine} : load p input = .ok m → Reachable m
  | call {m m' : Machine} {n : Nat} {c : Call} {r : Answer} :
      Reachable m → m.call n c = some (r, m') → Reachable m'
  | feed {m : Machine} (vs : List Cell) : Reachable m → Reachable (m.feed vs)

theorem size_pos_of_load {p : List Cell} {input : Input} {m : Machine}
    (h : load p input = .ok m) : 0 < m.memory.size := by
  rw [size_of_load h, List.length_pos_iff]
  rintro rfl
  cases h

/-- A machine that was loaded has a cell, and memory never becomes shorter. -/
theorem Reachable.size_pos {m : Machine} (h : Reachable m) : 0 < m.memory.size := by
  induction h with
  | load hload => exact size_pos_of_load hload
  | call _ hcall ih => exact Nat.lt_of_lt_of_le ih (progresses_call hcall).size_le
  | feed vs _ ih => exact ih

variable {m : Machine} {i : Nat}

/-! ### The addresses around the program counter -/

/-- **The addresses around the program counter**: those of memory, in order, that are at most eight
cells away from it. -/
def near (m : Machine) : List Nat :=
  (List.range m.memory.size).filter fun i => decide (m.pc ≤ i + 8 ∧ i ≤ m.pc + 8)

theorem mem_near : i ∈ m.near ↔ i < m.memory.size ∧ m.pc ≤ i + 8 ∧ i ≤ m.pc + 8 := by
  simp [near]

theorem pairwise_near (m : Machine) : m.near.Pairwise (· < ·) :=
  List.pairwise_lt_range.filter _

/-- The window runs through the addresses around the program counter. -/
theorem near_eq_range' (m : Machine) :
    m.near = List.range' (min (m.pc - windowRadius) m.memory.size)
      (min (m.pc + windowRadius + 1) m.memory.size -
        min (m.pc - windowRadius) m.memory.size) := by
  refine (pairwise_near m).eq_of_mem_iff (List.pairwise_lt_range' 1) ?_
  intro i
  rw [mem_near, List.mem_range'_1, windowRadius]
  omega

theorem length_near (m : Machine) :
    m.near.length = min (m.pc + 9) m.memory.size - min (m.pc - 8) m.memory.size := by
  rw [near_eq_range', List.length_range']
  rfl

theorem length_near_le (m : Machine) : m.near.length ≤ 17 := by
  rw [length_near]
  omega

/-- **There are no addresses around the program counter** exactly if it is more than eight cells past
the last cell of memory. -/
theorem near_eq_nil_iff (h : 0 < m.memory.size) : m.near = [] ↔ m.memory.size + 8 ≤ m.pc := by
  rw [← List.length_eq_zero_iff, length_near]
  omega

theorem count_near (m : Machine) :
    m.near.count m.pc = if m.pc < m.memory.size then 1 else 0 := by
  have hmem : m.pc ∈ m.near ↔ m.pc < m.memory.size := by
    rw [mem_near]
    omega
  split
  · next h => exact List.count_eq_one_of_mem (pairwise_near m).nodup (hmem.2 h)
  · next h => exact List.count_eq_zero.2 fun hm => h (hmem.1 hm)

/-! ### The rows -/

/-- A row **shows the cell** at an address: the address with the arrow in front of it if it is the
program counter, and the value in decimal. -/
def ShowsCell (m : Machine) (i : Nat) (row : List String × List String) : Prop :=
  ∃ v, m.memory.cells[i]? = some v ∧
    row = ([(if i = m.pc then "* --> " else "") ++ "MEM[" ++ toString i ++ "] ="],
      [toString v.toInt])

/-- A row is **marked** with the arrow. -/
def Marked (row : List String × List String) : Prop := ∃ label, row.1 = ["* --> " ++ label]

theorem label_eq (m : Machine) (i : Nat) :
    m.label i = (if i = m.pc then "* --> " else "") ++ "MEM[" ++ toString i ++ "] =" := by
  have hclose : "]" ++ " =" = "] =" := rfl
  simp only [label, Address.text, String.append_assoc, hclose]

/-- **The rows of the memory table** are those of the addresses around the program counter. -/
theorem memoryTable_rows (m : Machine) :
    m.memoryTable.rows = m.near.map fun i => ([m.label i], [(m.memory.get i).text]) := by
  rw [near_eq_range']
  simp only [memoryTable, window, List.map_map]
  rfl

theorem showsCell_label (h : i ∈ m.near) :
    ShowsCell m i ([m.label i], [(m.memory.get i).text]) := by
  have hlt : i < m.memory.cells.size := (mem_near.1 h).1
  refine ⟨m.memory.get i, ?_, ?_⟩
  · rw [Memory.get_eq_getElem hlt, Array.getElem?_eq_getElem hlt]
  · rw [label_eq]
    rfl

/-- The label of a cell has the arrow exactly if the cell is the one at the program counter. -/
theorem marked_label_iff (m : Machine) (i : Nat) (value : List String) :
    Marked ([m.label i], value) ↔ i = m.pc := by
  rw [label_eq]
  constructor
  · rintro ⟨label, hlabel⟩
    by_contra hne
    -- without the arrow the label begins with a letter
    have hlist := congrArg String.toList (List.cons.inj hlabel).1
    rw [if_neg hne] at hlist
    simp [String.toList_append] at hlist
  · intro h
    refine ⟨"MEM[" ++ toString i ++ "] =", ?_⟩
    rw [if_pos h, String.append_assoc, String.append_assoc, String.append_assoc]

theorem exists_marked_iff (m : Machine) :
    (∃ row ∈ m.memoryTable.rows, Marked row) ↔ m.pc < m.memory.size := by
  rw [memoryTable_rows]
  constructor
  · rintro ⟨row, hrow, hmarked⟩
    obtain ⟨i, hi, rfl⟩ := List.mem_map.1 hrow
    rw [marked_label_iff] at hmarked
    rw [← hmarked]
    exact (mem_near.1 hi).1
  · intro h
    refine ⟨_, List.mem_map_of_mem (a := m.pc) ?_, (marked_label_iff m m.pc _).2 rfl⟩
    rw [mem_near]
    omega

/-! ### The printed text -/

/-- A printed line **bears** a row of the memory table: spaces, the label, the line between the
columns, the value, and spaces up to the line between the tables. -/
def Bears (line : String) (row : List String × List String) : Prop :=
  ∃ before label value between after, row = ([label], [value]) ∧
    Text.Spaces before ∧ Text.Spaces between ∧
    line = before ++ label ++ " │ " ++ value ++ between ++ " │ " ++ after

/-- The row of an address stands on a line of the memory table, below the titles and the rule. -/
theorem getElem?_memoryTable_lines {k : Nat} (h : m.near[k]? = some i) :
    ∃ w₁ w₂, m.memoryTable.lines[k + 2]? =
      some (m.memoryTable.line w₁ w₂ (m.label i) (m.memory.get i).text) := by
  obtain ⟨w₁, w₂, hlines⟩ := m.memoryTable.lines_of_single (memoryTable_rows m)
  refine ⟨w₁, w₂, ?_⟩
  rw [hlines]
  exact Table.getElem?_body (by simp [h]) _ _ _

/-- A line of the memory table stands on a line of the state table, below its titles and its
rule. -/
theorem getElem?_stateTable_lines {k : Nat} {l : String} (h : m.memoryTable.lines[k]? = some l) :
    ∃ w₁ w₂ l', m.stateTable.lines[k + 2]? = some (m.stateTable.line w₁ w₂ l l') := by
  have hrow : m.stateTable.rows = [(m.memoryTable.lines, m.registerTable.lines)] := rfl
  obtain ⟨w₁, w₂, hlines⟩ := m.stateTable.lines_of_row hrow
  refine ⟨w₁, w₂, m.registerTable.lines.getD k "", ?_⟩
  rw [hlines]
  exact Table.getElem?_body (m.stateTable.getElem?_rowLines w₁ w₂ h) _ _ _

/-- A line of the memory table, set in the state table, bears the row that it was made of. -/
theorem bears_line (m : Machine) (w₁ w₂ w₃ w₄ : Nat) (label value l : String) :
    Bears (m.stateTable.line w₃ w₄ (m.memoryTable.line w₁ w₂ label value) l)
      ([label], [value]) := by
  obtain ⟨lead, hlabel, hlead⟩ := Align.pad_right_eq w₁ label
  obtain ⟨trail, hvalue, htrail⟩ := Align.pad_left_eq w₂ value
  obtain ⟨fill, hline, hfill⟩ := Align.pad_left_eq w₃ (m.memoryTable.line w₁ w₂ label value)
  have hmargin : Text.Spaces "  " := Text.spaces_pushn 2
  refine ⟨"  " ++ ("  " ++ lead), label, value, trail ++ ("  " ++ fill),
    Align.left.pad w₄ l ++ "  ", rfl, hmargin.append (hmargin.append hlead),
    htrail.append (hmargin.append hfill), ?_⟩
  rw [Table.line, show m.stateTable.first.align = .left from rfl, hline, Table.line,
    show m.memoryTable.first.align = .right from rfl, hlabel,
    show m.memoryTable.second.align = .left from rfl, hvalue]
  simp only [String.append_assoc]
  rfl

/-- The lines of the text of a state. -/
def stateLines (m : Machine) : List String :=
  (if m.halted then "Halted." else "Running.") :: m.stateTable.lines

theorem stateText_eq (m : Machine) : m.stateText = String.join (m.stateLines.map (· ++ "\n")) := by
  rw [stateLines, List.map_cons, String.join_cons, stateText, Table.text]
  split <;> rfl

/-- **Each row of the memory table is printed on a line of its own**, one below the other. -/
theorem exists_bears {k : Nat} {row : List String × List String}
    (h : m.memoryTable.rows[k]? = some row) : ∃ l, m.stateLines[k + 5]? = some l ∧ Bears l row := by
  rw [memoryTable_rows, List.getElem?_map, Option.map_eq_some_iff] at h
  obtain ⟨i, hi, rfl⟩ := h
  obtain ⟨w₁, w₂, hmemory⟩ := getElem?_memoryTable_lines hi
  obtain ⟨w₃, w₄, l, hstate⟩ := getElem?_stateTable_lines hmemory
  refine ⟨_, ?_, bears_line m w₁ w₂ w₃ w₄ _ _ l⟩
  rw [stateLines, List.getElem?_cons_succ]
  exact hstate

/-! ### The arrow in the printed text -/

theorem star_notMem_frame : '*' ∉ Table.frame := by decide

/-- No number has a star in it. -/
theorem count_star_signed {cs : List Char} {n : Int} (h : Text.Signed cs n) :
    cs.count '*' = 0 :=
  List.count_eq_zero.2 (h.notMem (by decide) (by decide) (by decide))

theorem count_star_toString (n : Nat) : (toString n).toList.count '*' = 0 :=
  count_star_signed (.unsigned (Text.unsigned_toString n))

theorem count_star_text (v : Cell) : v.text.toList.count '*' = 0 :=
  count_star_signed (Text.signed_text v)

theorem count_star_label (m : Machine) (i : Nat) :
    (m.label i).toList.count '*' = if i = m.pc then 1 else 0 := by
  rw [label_eq]
  simp only [String.toList_append, List.count_append, count_star_toString]
  split <;> rfl

theorem occurrences_star_memoryTable (m : Machine) :
    Text.occurrences '*' m.memoryTable.lines = if m.pc < m.memory.size then 1 else 0 := by
  have hrows : ∀ is : List Nat, Text.occurrences '*'
      ((is.map fun i => ([m.label i], [(m.memory.get i).text])).flatMap
        fun row => row.1 ++ row.2) = is.count m.pc := by
    intro is
    induction is with
    | nil => rfl
    | cons i is ih =>
        rw [List.map_cons, List.flatMap_cons, Text.occurrences_append, ih, List.count_cons]
        simp only [List.cons_append, List.nil_append, Text.occurrences_cons,
          Text.occurrences_nil, count_star_label, count_star_text, beq_iff_eq]
        omega
  have htitles : Text.occurrences '*' [m.memoryTable.first.title, m.memoryTable.second.title] = 0 := by
    simp [memoryTable]
  rw [← count_near, Table.occurrences_lines star_notMem_frame, memoryTable_rows, hrows, htitles,
    Nat.zero_add]

theorem occurrences_star_registerTable (m : Machine) :
    Text.occurrences '*' m.registerTable.lines = 0 := by
  rw [Table.occurrences_lines star_notMem_frame]
  simp only [registerTable, Address.text, List.flatMap_cons, List.flatMap_nil, List.cons_append,
    List.nil_append, Text.occurrences_cons, Text.occurrences_nil, String.toList_append,
    List.count_append, count_star_toString, count_star_text]
  rfl

/-- **The star of the arrow occurs once in the printed text** if memory has the cell at the program
counter, and otherwise not at all. -/
theorem count_star_stateText (m : Machine) :
    m.stateText.toList.count '*' = if m.pc < m.memory.size then 1 else 0 := by
  have hstatus :
      (if m.halted then "Halted.\n" else "Running.\n").toList.count '*' = 0 := by
    split <;> rfl
  have htitles : Text.occurrences '*' [m.stateTable.first.title, m.stateTable.second.title] = 0 := by
    simp [stateTable]
  have hrows : m.stateTable.rows.flatMap (fun row => row.1 ++ row.2) =
      m.memoryTable.lines ++ m.registerTable.lines := List.append_nil _
  rw [stateText, String.toList_append, List.count_append, hstatus,
    Table.count_text (by decide), Table.occurrences_lines star_notMem_frame, htitles, hrows,
    Text.occurrences_append, occurrences_star_memoryTable, occurrences_star_registerTable]
  omega

/-! ### The window -/

/-- **What the state table shows of a machine.** -/
structure ShowsWindow (m : Machine) : Prop where
  /-- The addresses shown are those at most eight cells away from the program counter that memory
  has. -/
  addresses : ∀ i : Nat, i ∈ m.near ↔
    (m.pc : Int) - 8 ≤ (i : Int) ∧ (i : Int) ≤ (m.pc : Int) + 8 ∧ i < m.memory.size
  /-- They ascend, so each is there once. -/
  ascending : m.near.Pairwise (· < ·)
  /-- There is a row for each, with its label and the value of its cell. -/
  rows : List.Forall₂ (ShowsCell m) m.near m.memoryTable.rows
  /-- The arrow marks the row of the program counter, and no other. -/
  marked : List.Forall₂ (fun i row => Marked row ↔ i = m.pc) m.near m.memoryTable.rows
  /-- There is an arrow exactly if memory has the cell at the program counter. -/
  arrow : (∃ row ∈ m.memoryTable.rows, Marked row) ↔ m.pc < m.memory.size
  /-- There are at most seventeen rows. -/
  length_le : m.memoryTable.rows.length ≤ 17
  /-- There is none exactly if the program counter is eight cells or more past the end. -/
  empty : m.memoryTable.rows = [] ↔ m.memory.size + 8 ≤ m.pc
  /-- The rows are printed on a line each, one below the other. -/
  printed : m.stateText = String.join (m.stateLines.map (· ++ "\n")) ∧
    ∀ k row, m.memoryTable.rows[k]? = some row → ∃ l, m.stateLines[k + 5]? = some l ∧ Bears l row
  /-- The star of the arrow is printed once, or not at all if there is no arrow. -/
  star : m.stateText.toList.count '*' = if m.pc < m.memory.size then 1 else 0

/-- **The state table of every reachable state shows the window around the program counter.** -/
theorem state_shows_window (h : Reachable m) : ShowsWindow m where
  addresses := by
    intro i
    rw [mem_near]
    omega
  ascending := pairwise_near m
  rows := by
    rw [memoryTable_rows, List.forall₂_map_right_iff, List.forall₂_same]
    exact fun i hi => showsCell_label hi
  marked := by
    rw [memoryTable_rows, List.forall₂_map_right_iff, List.forall₂_same]
    exact fun i _ => marked_label_iff m i _
  arrow := exists_marked_iff m
  length_le := by
    rw [memoryTable_rows, List.length_map]
    exact length_near_le m
  empty := by
    rw [memoryTable_rows, List.map_eq_nil_iff]
    exact near_eq_nil_iff h.size_pos
  printed := ⟨stateText_eq m, fun k row => exists_bears⟩
  star := count_star_stateText m

/-- A program of four cells that jumps eight cells past its last one: this is the one row, and there
is no arrow. -/
theorem state_shows_window_past_end :
    ∃ m : Machine, Reachable m ∧ m.pc = 11 ∧ m.memory.size = 4 ∧ m.near = [3] ∧
      ShowsCell m 3 (["MEM[3] ="], ["99"]) ∧ m.memoryTable.rows = [(["MEM[3] ="], ["99"])] ∧
      m.stateText.toList.count '*' = 0 := by
  have hload : load [1105, 1, 11, 99] (.queue []) =
      .ok { memory := ⟨#[1105, 1, 11, 99]⟩, input := .queue [] } := rfl
  have hreached := Reachable.call (n := 0) (c := .step) (.load hload) rfl
  have hshows := state_shows_window hreached
  exact ⟨_, hreached, rfl, rfl, rfl, ⟨99, rfl, rfl⟩, rfl, hshows.star⟩

end Machine

end IntcodeMachine

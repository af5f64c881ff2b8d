/-
**The grammar of listings.**

A listing is one field or more with commas between them, and each field denotes an integer: gaps,
an optional minus sign, digits, gaps.  The reader knows nothing of fields.  It takes one integer
after the other off the text and stops where it cannot go on, with part of the text left over.
This module shows that the two views agree.

The bridge is that reading a cell never looks past a comma (`Listing.cell?_append`): in front of a
comma, or at the end, a text is read as the field there would be read alone, and a field is read to
its end exactly when it denotes an integer in the range of a cell (`Listing.cell?_eq_some_nil_iff`).
By induction over the fields, either all are read and nothing is left over, or reading stops at the
first field that holds no cell (`Listing.cells_cases`), and what is left over then begins at the
comma in front of that field or within it.

Main definitions:

* `Listing.Denotes`, `Listing.Holds` — the integer and the cell that a field stands for;
* `Listing.fields` — the fields of a listing;
* `Listing.ahead`, `Listing.behind` — fields with the commas after them, or in front of them;
* `Listing.Stops` — what is left over when reading stops at a field.

Main results:

* `Listing.cells_cases` — **reading gets through, or stops at the first field at fault**;
* `Listing.parse_accepts_grammar` — **a listing is accepted exactly when each of its fields holds a
  cell**, and these are the cells of the program; it is empty exactly when all is blank, and
  malformed otherwise.
-/

import IntcodeMachine.Listing
import IntcodeMachine.Proofs.Text.Numeral
import Mathlib.Data.List.Forall2
import Mathlib.Data.List.TakeWhile

set_option relaxedAutoImplicit false
set_option autoImplicit false

namespace IntcodeMachine

namespace Listing

/-! ### Fields -/

/-- A text of gaps. -/
def Gaps (cs : List Char) : Prop := ∀ c ∈ cs, isGap c = true

/-- A field **denotes** an integer: digits, most significant first, an optional minus sign in front
of them, and gaps around. -/
inductive Denotes : List Char → Int → Prop
  | plain {before digits after : List Char} :
      Gaps before → Text.Digits digits → Gaps after →
      Denotes (before ++ digits ++ after) (Nat.ofDigitChars 10 digits 0 : Nat)
  | minus {before digits after : List Char} :
      Gaps before → Text.Digits digits → Gaps after →
      Denotes (before ++ '-' :: digits ++ after) (-(Nat.ofDigitChars 10 digits 0 : Nat))

/-- A field **holds** a cell when it denotes the integer in the cell. -/
def Holds (f : List Char) (a : Cell) : Prop := Denotes f a.toInt

/-- The fields of a listing: what stands before, between and after the commas. -/
def fields (cs : List Char) : List (List Char) := cs.splitOn ','

/-- Fields, each with the comma after it. -/
def ahead (fs : List (List Char)) : List Char := fs.flatMap (· ++ [','])

/-- Fields, each with the comma in front of it. -/
def behind (fs : List (List Char)) : List Char := fs.flatMap (',' :: ·)

@[simp] theorem ahead_nil : ahead [] = [] := rfl

@[simp] theorem ahead_cons (f : List Char) (fs : List (List Char)) :
    ahead (f :: fs) = f ++ ',' :: ahead fs := by
  simp [ahead]

@[simp] theorem behind_nil : behind [] = [] := rfl

@[simp] theorem behind_cons (f : List Char) (fs : List (List Char)) :
    behind (f :: fs) = ',' :: (f ++ behind fs) := by
  simp [behind]

/-- The comma in front of a field may as well be counted to the field before it. -/
theorem append_behind (f : List Char) (good : List (List Char)) (g : List Char)
    (bad : List (List Char)) :
    f ++ behind (good ++ g :: bad) = ahead (f :: good) ++ g ++ behind bad := by
  induction good generalizing f with
  | nil => simp
  | cons h good ih =>
      have hi := ih h
      simp only [ahead_cons, List.append_assoc, List.cons_append] at hi
      simp [hi]

theorem fields_cons (c : Char) (cs : List Char) :
    fields (c :: cs) = if c = ',' then [] :: fields cs else (fields cs).modifyHead (c :: ·) := by
  rw [fields, List.splitOn_cons_eq_if_modifyHead]
  simp [fields]

/-- A text is its first field, and its other fields with the commas in front of them. -/
theorem exists_fields (cs : List Char) :
    ∃ f fs, fields cs = f :: fs ∧ cs = f ++ behind fs ∧ ∀ g ∈ f :: fs, ',' ∉ g := by
  induction cs with
  | nil => exact ⟨[], [], rfl, rfl, by simp⟩
  | cons c cs ih =>
      obtain ⟨f, fs, hf, hcs, hc⟩ := ih
      by_cases h : c = ','
      · refine ⟨[], f :: fs, ?_, ?_, ?_⟩
        · rw [fields_cons, if_pos h, hf]
        · simp [h, hcs]
        · rw [List.forall_mem_cons]
          exact ⟨by simp, hc⟩
      · refine ⟨c :: f, fs, ?_, ?_, ?_⟩
        · rw [fields_cons, if_neg h, hf]
          rfl
        · rw [hcs, List.cons_append]
        · rw [List.forall_mem_cons] at hc ⊢
          refine ⟨?_, hc.2⟩
          rw [List.mem_cons, not_or]
          exact ⟨Ne.symm h, hc.1⟩

/-- No field has a comma in it. -/
theorem notMem_of_mem_fields {cs f : List Char} (h : f ∈ fields cs) : ',' ∉ f := by
  obtain ⟨g, gs, hg, -, hc⟩ := exists_fields cs
  rw [hg] at h
  exact hc f h

/-! ### One cell -/

/-- A text after which no character is read: it is empty, or begins with a comma. -/
def Closed (cs : List Char) : Prop := cs = [] ∨ ∃ ds, cs = ',' :: ds

theorem closed_behind (fs : List (List Char)) : Closed (behind fs) := by
  cases fs with
  | nil => exact .inl rfl
  | cons f fs => exact .inr ⟨_, behind_cons f fs⟩

/-- Without a minus sign at the start, a numeral is its digits. -/
theorem numeral_of_ne {cs : List Char} (h : ¬∃ ds, cs = '-' :: ds) :
    numeral cs = (cs.takeWhile Char.isDigit, cs.dropWhile Char.isDigit) := by
  unfold numeral
  split
  · exact absurd ⟨_, rfl⟩ h
  · rfl

section Closed

variable {p : Char → Bool} {rest : List Char}

theorem Closed.dropWhile_append (hr : Closed rest) (hp : p ',' = false) (cs : List Char) :
    (cs ++ rest).dropWhile p = cs.dropWhile p ++ rest := by
  induction cs with
  | nil =>
      rcases hr with rfl | ⟨ds, rfl⟩
      · rfl
      · simp [hp]
  | cons c cs ih =>
      cases hc : p c with
      | true => simp [hc, ih]
      | false => simp [hc]

theorem Closed.takeWhile_append (hr : Closed rest) (hp : p ',' = false) (cs : List Char) :
    (cs ++ rest).takeWhile p = cs.takeWhile p := by
  have h : (cs ++ rest).takeWhile p ++ (cs.dropWhile p ++ rest) =
      cs.takeWhile p ++ (cs.dropWhile p ++ rest) := by
    rw [← hr.dropWhile_append hp, List.takeWhile_append_dropWhile, hr.dropWhile_append hp,
      ← List.append_assoc, List.takeWhile_append_dropWhile]
  exact List.append_cancel_right h

theorem Closed.numeral_append (hr : Closed rest) (cs : List Char) :
    numeral (cs ++ rest) = ((numeral cs).1, (numeral cs).2 ++ rest) := by
  have hd : Char.isDigit ',' = false := by decide
  by_cases h : ∃ ds, cs = '-' :: ds
  · obtain ⟨ds, rfl⟩ := h
    rw [List.cons_append, numeral, numeral, hr.dropWhile_append hd, hr.takeWhile_append hd]
  · have h' : ¬∃ ds, cs ++ rest = '-' :: ds := by
      rintro ⟨ds, e⟩
      cases cs with
      | nil => rcases hr with rfl | ⟨es, rfl⟩ <;> cases e
      | cons c cs =>
          cases e
          exact h ⟨cs, rfl⟩
    rw [numeral_of_ne h, numeral_of_ne h', hr.dropWhile_append hd, hr.takeWhile_append hd]

/-- **Reading a cell never looks past a comma.** -/
theorem cell?_append (hr : Closed rest) (cs : List Char) :
    cell? (cs ++ rest) = (cell? cs).map fun read => (read.1, read.2 ++ rest) := by
  have hg : isGap ',' = false := by decide
  simp only [cell?, Text.trimStart]
  rw [hr.dropWhile_append hg, hr.numeral_append, hr.dropWhile_append hg]
  cases Text.readCell (numeral (cs.dropWhile isGap)).1 with
  | ok a => rfl
  | error e => rfl

end Closed

theorem cell?_eq_some_iff {cs rest : List Char} {a : Cell} :
    cell? cs = some (a, rest) ↔
      Text.readCell (numeral (cs.dropWhile isGap)).1 = .ok a ∧
        (numeral (cs.dropWhile isGap)).2.dropWhile isGap = rest := by
  simp only [cell?, Text.trimStart]
  cases Text.readCell (numeral (cs.dropWhile isGap)).1 with
  | ok b => simp
  | error e => simp

theorem not_isGap_of_isDigit {c : Char} (h : c.isDigit = true) : isGap c = false := by
  rw [Bool.eq_false_iff]
  intro hg
  simp only [isGap, Bool.or_eq_true, beq_iff_eq] at hg
  rcases hg with ((rfl | rfl) | rfl) | rfl <;> exact absurd h (by decide)

/-- The characters of a class at the start of a text are found where the next one is not of the
class. -/
theorem span_append {p : Char → Bool} {cs rest : List Char} (hc : ∀ c ∈ cs, p c = true)
    (hr : ∀ c ∈ rest.head?, p c = false) :
    (cs ++ rest).takeWhile p = cs ∧ (cs ++ rest).dropWhile p = rest := by
  rw [List.takeWhile_append_of_pos hc, List.dropWhile_append_of_pos hc]
  cases rest with
  | nil => simp
  | cons d ds =>
      have hd : p d = false := hr d rfl
      simp [hd]

/-- The numeral of a text of digits with gaps after it, without and with a sign. -/
theorem numeral_digits {digits after : List Char} (hd : Text.Digits digits) (ha : Gaps after) :
    numeral (digits ++ after) = (digits, after) ∧
      numeral ('-' :: (digits ++ after)) = ('-' :: digits, after) := by
  obtain ⟨hne, hdigit⟩ := hd
  have hafter : ∀ c ∈ after.head?, c.isDigit = false := by
    intro c hc
    rw [Bool.eq_false_iff]
    intro h
    have hg := ha c (List.mem_of_head? hc)
    rw [not_isGap_of_isDigit h] at hg
    cases hg
  obtain ⟨ht, hw⟩ := span_append hdigit hafter
  constructor
  · have hs : ¬∃ ds, digits ++ after = '-' :: ds := by
      rintro ⟨ds, e⟩
      cases digits with
      | nil => exact hne rfl
      | cons d ds =>
          cases e
          exact absurd (hdigit '-' (by simp)) (by decide)
    rw [numeral_of_ne hs, ht, hw]
  · rw [numeral, ht, hw]

/-- A field that holds a cell is read as that cell, to its end. -/
theorem cell?_of_holds {f : List Char} {a : Cell} (h : Holds f a) : cell? f = some (a, []) := by
  obtain ⟨n, hn, h⟩ : ∃ n, a.toInt = n ∧ Denotes f n := ⟨_, rfl, h⟩
  rw [cell?_eq_some_iff]
  cases h with
  | @plain before digits after hb hd ha =>
      have hhead : ∀ c ∈ (digits ++ after).head?, isGap c = false := by
        intro c hc
        cases digits with
        | nil => exact absurd rfl hd.1
        | cons d ds =>
            cases hc
            exact not_isGap_of_isDigit (hd.2 c (by simp))
      rw [List.append_assoc, (span_append hb hhead).2, (numeral_digits hd ha).1]
      exact ⟨(Text.readCell_eq_ok_iff_of_isDigit hd.2).2 ⟨hd.1, hn⟩,
        List.dropWhile_eq_nil_iff.2 ha⟩
  | @minus before digits after hb hd ha =>
      have hhead : ∀ c ∈ ('-' :: (digits ++ after)).head?, isGap c = false := by
        intro c hc
        cases hc
        decide
      rw [List.append_assoc, List.cons_append, (span_append hb hhead).2, (numeral_digits hd ha).2]
      exact ⟨Text.readNegative_eq_ok_iff.2 ⟨hd, hn⟩, List.dropWhile_eq_nil_iff.2 ha⟩

/-- A field that is read to its end holds the cell. -/
theorem holds_of_cell? {f : List Char} {a : Cell} (h : cell? f = some (a, [])) : Holds f a := by
  obtain ⟨hread, hrest⟩ := cell?_eq_some_iff.1 h
  have hb : Gaps (f.takeWhile isGap) := fun c hc => List.mem_takeWhile_imp hc
  have ha : Gaps (numeral (f.dropWhile isGap)).2 := List.dropWhile_eq_nil_iff.1 hrest
  rw [Holds, ← List.takeWhile_append_dropWhile (p := isGap) (l := f)]
  generalize f.takeWhile isGap = before at hb ⊢
  generalize f.dropWhile isGap = cs at hread ha ⊢
  by_cases hs : ∃ ds, cs = '-' :: ds
  · obtain ⟨ds, rfl⟩ := hs
    obtain ⟨hd, hn⟩ := Text.readNegative_eq_ok_iff.1 hread
    have hden := Denotes.minus hb hd ha
    rw [List.append_assoc, List.cons_append, numeral, List.takeWhile_append_dropWhile] at hden
    rw [hn]
    exact hden
  · have hcs := numeral_of_ne hs
    rw [hcs] at hread ha
    have hdigit : ∀ c ∈ cs.takeWhile Char.isDigit, c.isDigit = true :=
      fun c hc => List.mem_takeWhile_imp hc
    obtain ⟨hne, hn⟩ := (Text.readCell_eq_ok_iff_of_isDigit hdigit).1 hread
    have hden := Denotes.plain hb ⟨hne, hdigit⟩ ha
    rw [List.append_assoc, List.takeWhile_append_dropWhile] at hden
    rw [hn]
    exact hden

/-- **A field is read to its end exactly when it holds a cell.** -/
theorem cell?_eq_some_nil_iff {f : List Char} {a : Cell} :
    cell? f = some (a, []) ↔ Holds f a := ⟨holds_of_cell?, cell?_of_holds⟩

/-! ### All cells -/

/-- The field `f` is the **first at fault** among the fields `fs`: those before it hold cells, and it
holds none. -/
structure FirstAtFault (fs good : List (List Char)) (f : List Char) (bad : List (List Char)) :
    Prop where
  fields_eq : fs = good ++ f :: bad
  holds : ∀ g ∈ good, ∃ a, Holds g a
  not_holds : ∀ a, ¬Holds f a

/-- What is left over when reading **stops** at the field `f`, which has `front` in front of it and
`after` behind it. -/
inductive Stops (front f after : List Char) : List Char → Prop
  /-- No cell is found behind a comma; the comma is left over too. -/
  | atComma {earlier : List Char} :
      front = earlier ++ [','] → Stops front f after (',' :: (f ++ after))
  /-- The field goes on behind the cell, or the first field does not begin with one. -/
  | inField {done left : List Char} :
      f = done ++ left → left ≠ [] → Stops front f after (left ++ after)
  /-- The first field is empty. -/
  | atStart : front = [] → f = [] → Stops front f after after

/-- When reading stops at a field of a text, something of the text is left over. -/
theorem Stops.ne_nil {front f after left : List Char} (h : Stops front f after left)
    (hne : front ++ f ++ after ≠ []) : left ≠ [] := by
  cases h with
  | atComma _ => simp
  | inField _ hleft => simp [hleft]
  | atStart hfront hf => simpa [hfront, hf] using hne

/-- A field that is not read to its end is at fault. -/
theorem firstAtFault_head {f : List Char} (h : ∀ a, cell? f ≠ some (a, []))
    (fs : List (List Char)) : FirstAtFault (f :: fs) [] f fs := by
  refine ⟨rfl, by simp, ?_⟩
  intro a ha
  exact h a (cell?_eq_some_nil_iff.2 ha)

theorem FirstAtFault.cons {fs good bad : List (List Char)} {f g : List Char} {a : Cell}
    (ha : Holds f a) (h : FirstAtFault fs good g bad) :
    FirstAtFault (f :: fs) (f :: good) g bad := by
  refine ⟨?_, ?_, h.not_holds⟩
  · rw [h.fields_eq, List.cons_append]
  · rw [List.forall_mem_cons]
    exact ⟨⟨a, ha⟩, h.holds⟩

/-- When the field `f` goes on behind its cell, reading stops there. -/
theorem collect_in_field {f rest : List Char} {a : Cell} (hf : cell? f = some (a, rest))
    (hc : ',' ∉ f) (hrest : rest ≠ []) (fs : List (List Char)) (front : List Char)
    (read : Array Cell) :
    FirstAtFault (f :: fs) [] f fs ∧
      Stops front f (behind fs) (collect read (rest ++ behind fs)).2 := by
  obtain ⟨done, hdone⟩ := suffix_of_cell? hf
  constructor
  · refine firstAtFault_head ?_ fs
    intro b hb
    rw [hf] at hb
    cases hb
    exact hrest rfl
  · have hcol : collect read (rest ++ behind fs) = (read, rest ++ behind fs) := by
      cases rest with
      | nil => exact absurd rfl hrest
      | cons c cs =>
          have hne : c ≠ ',' := by
            rintro rfl
            exact hc (by simp [← hdone])
          exact collect_of_ne hne read _
    rw [hcol]
    exact .inField hdone.symm hrest

/-- When a cell has been read from the field `f`, that field and the others after it are read to
the end, or reading stops at the first of them that is at fault. -/
theorem collect_cases {fs : List (List Char)} {f rest : List Char} {a : Cell}
    (hf : cell? f = some (a, rest)) (hc : ∀ g ∈ f :: fs, ',' ∉ g) (front : List Char)
    (read : Array Cell) :
    (∃ as, List.Forall₂ Holds (f :: fs) (a :: as) ∧
        collect read (rest ++ behind fs) = (read ++ as.toArray, [])) ∨
      ∃ good g bad, FirstAtFault (f :: fs) good g bad ∧
        Stops (front ++ ahead good) g (behind bad) (collect read (rest ++ behind fs)).2 := by
  induction fs generalizing f rest a front read with
  | nil =>
      by_cases hrest : rest = []
      · subst hrest
        exact .inl ⟨[], .cons (cell?_eq_some_nil_iff.1 hf) .nil, by simp⟩
      · exact .inr ⟨[], f, [], collect_in_field hf (hc f (by simp)) hrest [] _ read⟩
  | cons g fs ih =>
      by_cases hrest : rest = []
      · subst hrest
        have ha := cell?_eq_some_nil_iff.1 hf
        have hcs : ∀ h ∈ g :: fs, ',' ∉ h := fun h hh => hc h (List.mem_cons_of_mem f hh)
        have happ := cell?_append (closed_behind fs) g
        rw [List.nil_append, behind_cons]
        cases hg : cell? g with
        | none =>
            rw [hg, Option.map_none] at happ
            refine .inr ⟨[f], g, fs, .cons ha (firstAtFault_head (by simp [hg]) fs), ?_⟩
            rw [collect_of_none happ]
            exact .atComma (by simp : front ++ ahead [f] = (front ++ f) ++ [','])
        | some found =>
            obtain ⟨b, left⟩ := found
            rw [hg, Option.map_some] at happ
            rw [collect_of_some happ]
            -- the comma and the field behind it are read: they move to the front
            rcases ih hg hcs (front ++ f ++ [',']) (read.push b) with
              ⟨as, has, hcol⟩ | ⟨good, h, bad, hfault, hstop⟩
            · refine .inl ⟨b :: as, .cons ha has, ?_⟩
              rw [hcol]
              simp
            · refine .inr ⟨f :: good, h, bad, .cons ha hfault, ?_⟩
              simpa using hstop
      · exact .inr ⟨[], f, g :: fs, collect_in_field hf (hc f (by simp)) hrest _ _ read⟩

/-- **Reading gets through a listing, or stops at the first field at fault.** -/
theorem cells_cases (cs : List Char) :
    (∃ as, List.Forall₂ Holds (fields cs) as ∧ cells cs = (as.toArray, [])) ∨
      ∃ good f bad, FirstAtFault (fields cs) good f bad ∧
        Stops (ahead good) f (behind bad) (cells cs).2 := by
  obtain ⟨f, fs, hfs, hcs, hc⟩ := exists_fields cs
  have happ := cell?_append (closed_behind fs) f
  rw [← hcs] at happ
  rw [hfs]
  unfold cells
  cases hf : cell? f with
  | none =>
      rw [hf, Option.map_none] at happ
      rw [happ]
      refine .inr ⟨[], f, fs, firstAtFault_head (by simp [hf]) fs, ?_⟩
      rw [hcs]
      by_cases hnil : f = []
      · rw [hnil]
        exact .atStart rfl rfl
      · exact .inField (List.nil_append f).symm hnil
  | some found =>
      obtain ⟨a, rest⟩ := found
      rw [hf, Option.map_some] at happ
      rw [happ]
      rcases collect_cases hf hc [] #[a] with ⟨as, has, hcol⟩ | ⟨good, g, bad, hfault, hstop⟩
      · refine .inl ⟨a :: as, has, ?_⟩
        simp [hcol]
      · exact .inr ⟨good, g, bad, hfault, hstop⟩

/-! ### The whole listing -/

/-- There is one more field than there are commas. -/
theorem length_fields (cs : List Char) : (fields cs).length = cs.count ',' + 1 := by
  induction cs with
  | nil => rfl
  | cons c cs ih =>
      rw [fields_cons]
      by_cases h : c = ','
      · simp [h, ih]
      · simp [h, ih]

theorem not_isBlank_of_isDigit {c : Char} (h : c.isDigit = true) : Text.isBlank c = false := by
  have hr : 48 ≤ c.toNat ∧ c.toNat ≤ 57 := by
    simpa [Char.isDigit, UInt32.le_iff_toNat_le] using h
  rw [Bool.eq_false_iff]
  intro hb
  simp only [Text.isBlank, Text.blankRanges, List.any_cons, List.any_nil, Bool.or_false,
    Bool.or_eq_true, decide_eq_true_eq] at hb
  omega

/-- A field that denotes an integer is not blank. -/
theorem Denotes.exists_not_blank {f : List Char} {n : Int} (h : Denotes f n) :
    ∃ c ∈ f, Text.isBlank c = false := by
  cases h with
  | @plain before digits after hb hd ha =>
      obtain ⟨d, hm⟩ := List.exists_mem_of_ne_nil digits hd.1
      exact ⟨d, by simp [hm], not_isBlank_of_isDigit (hd.2 d hm)⟩
  | @minus before digits after hb hd ha =>
      obtain ⟨d, hm⟩ := List.exists_mem_of_ne_nil digits hd.1
      exact ⟨d, by simp [hm], not_isBlank_of_isDigit (hd.2 d hm)⟩

/-- The fields hold cells, each one, exactly when each denotes an integer that fits. -/
theorem exists_forall₂_holds_iff {fs : List (List Char)} :
    (∃ as, List.Forall₂ Holds fs as) ↔ ∀ f ∈ fs, ∃ n, Denotes f n ∧ Cell.Fits n := by
  induction fs with
  | nil => simp
  | cons f fs ih =>
      rw [List.forall_mem_cons, ← ih]
      constructor
      · rintro ⟨as, h⟩
        cases h with
        | @cons _ a _ as ha has => exact ⟨⟨a.toInt, ha, Cell.fits_toInt a⟩, as, has⟩
      · rintro ⟨⟨n, hn, hfit⟩, as, has⟩
        refine ⟨Int64.ofInt n :: as, .cons ?_ has⟩
        rw [Holds, Cell.toInt_ofInt_of_fits hfit]
        exact hn

/-- A text whose fields hold cells is not blank. -/
theorem not_blank_of_forall₂ {cs : List Char} {as : List Cell}
    (h : List.Forall₂ Holds (fields cs) as) : ¬∀ c ∈ cs, Text.isBlank c = true := by
  obtain ⟨f, fs, hfs, hcs, -⟩ := exists_fields cs
  rw [hfs] at h
  intro hb
  cases h with
  | cons hf _ =>
      obtain ⟨c, hc, hn⟩ := Denotes.exists_not_blank hf
      rw [hb c (by simp [hcs, hc])] at hn
      cases hn

/-- A field holds one cell at most. -/
theorem rightUnique_holds : Relator.RightUnique Holds := by
  intro f a b ha hb
  rw [← cell?_eq_some_nil_iff] at ha hb
  have h := ha.symm.trans hb
  simpa using h

/-- A text is made up of the fields before the one at fault, that field, and those behind it. -/
theorem FirstAtFault.text_eq {cs f : List Char} {good bad : List (List Char)}
    (h : FirstAtFault (fields cs) good f bad) : cs = ahead good ++ f ++ behind bad := by
  obtain ⟨g, gs, hg, hcs, -⟩ := exists_fields cs
  have he := h.fields_eq
  rw [hg] at he
  rw [hcs]
  cases good with
  | nil =>
      cases he
      rfl
  | cons _ good =>
      cases he
      exact append_behind g good f bad

/-- **What a listing is read as**: it is blank, or all its fields are read, or one is at fault. -/
theorem parse_cases (text : String) :
    ((∀ c ∈ text.toList, Text.isBlank c = true) ∧ parse text = .error .emptyProgram) ∨
    ((¬∀ c ∈ text.toList, Text.isBlank c = true) ∧
      ∃ as, List.Forall₂ Holds (fields text.toList) as ∧ parse text = .ok as) ∨
    ((¬∀ c ∈ text.toList, Text.isBlank c = true) ∧
      ∃ good f bad, FirstAtFault (fields text.toList) good f bad ∧
        Stops (ahead good) f (behind bad) (cells text.toList).2 ∧
        parse text = .error (malformed text.toList (cells text.toList).2)) := by
  unfold parse
  by_cases hb : ∀ c ∈ text.toList, Text.isBlank c = true
  · refine .inl ⟨hb, ?_⟩
    simp [Text.trim_eq_nil_iff.2 hb]
  · have hnil : ¬(Text.trim Text.isBlank text.toList).isEmpty = true := by
      rw [List.isEmpty_iff, Text.trim_eq_nil_iff]
      exact hb
    refine .inr ?_
    simp only [if_neg hnil]
    rcases cells_cases text.toList with ⟨as, has, hcells⟩ | ⟨good, f, bad, hfault, hstop⟩
    · refine .inl ⟨hb, as, has, ?_⟩
      simp [hcells]
    · refine .inr ⟨hb, good, f, bad, hfault, hstop, ?_⟩
      have hne : (cells text.toList).2 ≠ [] := by
        refine hstop.ne_nil ?_
        rw [← hfault.text_eq]
        intro hcs
        exact hb (by simp [hcs])
      split
      · next values heq =>
          rw [heq] at hne
          exact absurd rfl hne
      · next values rest hrest heq => rw [heq]

theorem FirstAtFault.mem {fs good bad : List (List Char)} {f : List Char}
    (h : FirstAtFault fs good f bad) : f ∈ fs := by
  rw [h.fields_eq]
  simp

/-- A field at fault denotes no integer that fits. -/
theorem FirstAtFault.not_fits {fs good bad : List (List Char)} {f : List Char}
    (h : FirstAtFault fs good f bad) {n : Int} (hn : Denotes f n) : ¬Cell.Fits n := by
  intro hfit
  refine h.not_holds (Int64.ofInt n) ?_
  rw [Holds, Cell.toInt_ofInt_of_fits hfit]
  exact hn

/-- The cells of an accepted listing are those that its fields hold. -/
theorem parse_eq_ok_iff {text : String} {as : List Cell} :
    parse text = .ok as ↔ List.Forall₂ Holds (fields text.toList) as := by
  rcases parse_cases text with ⟨hb, he⟩ | ⟨-, bs, hbs, hok⟩ | ⟨-, good, f, bad, hfault, -, he⟩
  · rw [he]
    constructor
    · intro h
      cases h
    · intro h
      exact absurd hb (not_blank_of_forall₂ h)
  · rw [hok, Except.ok.injEq]
    constructor
    · rintro rfl
      exact hbs
    · intro has
      exact List.right_unique_forall₂' rightUnique_holds hbs has
  · rw [he]
    constructor
    · intro h
      cases h
    · intro h
      obtain ⟨n, hn, hfit⟩ := exists_forall₂_holds_iff.1 ⟨as, h⟩ f hfault.mem
      exact absurd hfit (hfault.not_fits hn)

/-- The listings without a program are the blank ones. -/
theorem parse_eq_emptyProgram_iff {text : String} :
    parse text = .error .emptyProgram ↔ ∀ c ∈ text.toList, Text.isBlank c = true := by
  rcases parse_cases text with ⟨hb, he⟩ | ⟨hn, as, -, hok⟩ | ⟨hn, good, f, bad, -, -, he⟩
  · exact iff_of_true he hb
  · exact iff_of_false (by simp [hok]) hn
  · exact iff_of_false (by simp [he, malformed]) hn

/-- The malformed listings are those with a field that denotes no integer that fits, the blank ones
apart. -/
theorem parse_eq_malformed_iff {text : String} :
    (∃ offset token, parse text = .error (.malformed offset token)) ↔
      (¬∀ c ∈ text.toList, Text.isBlank c = true) ∧
        ∃ f ∈ fields text.toList, ∀ n, Denotes f n → ¬Cell.Fits n := by
  rcases parse_cases text with ⟨hb, he⟩ | ⟨-, as, has, hok⟩ | ⟨hn, good, f, bad, hfault, -, he⟩
  · refine iff_of_false (by simp [he]) ?_
    rintro ⟨hn, -⟩
    exact hn hb
  · refine iff_of_false (by simp [hok]) ?_
    rintro ⟨-, f, hf, hfit⟩
    obtain ⟨n, hden, hn⟩ := exists_forall₂_holds_iff.1 ⟨as, has⟩ f hf
    exact hfit n hden hn
  · refine iff_of_true ⟨_, _, he⟩ ⟨hn, f, hfault.mem, ?_⟩
    intro n hden
    exact hfault.not_fits hden

/-- A program that is not empty can be loaded. -/
theorem ofListing_of_parse {text : String} {as : List Cell} (h : parse text = .ok as)
    (hne : as ≠ []) (input : Input) :
    Machine.ofListing text input = .ok { memory := ⟨as.toArray⟩, input } := by
  rw [Machine.ofListing, h]
  simp [Machine.load, Memory.ofProgram?, hne]

/-- **A listing is accepted exactly when each of its fields holds a cell**, that is, denotes an
integer in the range of a cell, and these cells are the program, of one cell more than there are
commas; the machine then loads it.  A listing is empty exactly when all its characters are blank,
and it is malformed in all other cases. -/
theorem parse_accepts_grammar (text : String) :
    (∀ as, parse text = .ok as ↔ List.Forall₂ Holds (fields text.toList) as) ∧
    ((∃ as, parse text = .ok as) ↔
      ∀ f ∈ fields text.toList, ∃ n, Denotes f n ∧ Cell.Fits n) ∧
    (∀ as, parse text = .ok as →
      as.length = text.toList.count ',' + 1 ∧ as ≠ [] ∧
        ∀ input, ∃ m, Machine.ofListing text input = .ok m ∧ m.memory.cells.toList = as) ∧
    (parse text = .error .emptyProgram ↔ ∀ c ∈ text.toList, Text.isBlank c = true) ∧
    ((∃ offset token, parse text = .error (.malformed offset token)) ↔
      (¬∀ c ∈ text.toList, Text.isBlank c = true) ∧
        ∃ f ∈ fields text.toList, ∀ n, Denotes f n → ¬Cell.Fits n) := by
  refine ⟨fun as => parse_eq_ok_iff, ?_, ?_, ?_, ?_⟩
  · rw [← exists_forall₂_holds_iff]
    exact exists_congr fun as => parse_eq_ok_iff
  · intro as has
    have hlen : as.length = text.toList.count ',' + 1 := by
      rw [← length_fields, (parse_eq_ok_iff.1 has).length_eq]
    have hne : as ≠ [] := by
      rintro rfl
      simp at hlen
    refine ⟨hlen, hne, ?_⟩
    intro input
    exact ⟨_, ofListing_of_parse has hne input, rfl⟩
  · exact parse_eq_emptyProgram_iff
  · exact parse_eq_malformed_iff

/-- The least cell, leading zeros, and gaps of all kinds. -/
theorem parse_accepts_grammar_least :
    parse " -9223372036854775808\r,\t007\n" = .ok [-9223372036854775808, 7] ∧
    List.Forall₂ Holds (fields " -9223372036854775808\r,\t007\n".toList)
      [-9223372036854775808, 7] := by
  have h : parse " -9223372036854775808\r,\t007\n" = .ok [-9223372036854775808, 7] := by
    decide +kernel
  exact ⟨h, ((parse_accepts_grammar _).1 _).1 h⟩

end Listing

end IntcodeMachine

/-
**The machine that is run.**

Before a run the listing is read, the program is loaded with its input, and the patches are made one
after the other.  A later patch overrides an earlier one, and memory grows to have every patched
cell, with zeros in between.  All this can be said of the machine that comes of it, without the
order of events: a patched cell holds the value of its last patch, any other cell that of the
program, or zero.

Growth never changes which addresses are in range, so whether a patch is refused can be told from
the program alone, and the first patch that is refused is the failure.

Main definitions:

* `Memory.patched` — memory after a list of patches;
* `Options.Prepared` — **the machine that is run**, told by the program and the options.

Main results:

* `Memory.get_patched_of_last`, `Memory.get_patched_of_ne` — the last patch of a cell counts;
* `Options.Prepared.unique` — there is one such machine;
* `Options.prepare_eq_ok_iff`, `Options.prepare_eq_error_iff` — **the machine that is run, and the
  failure if there is none**.
-/

import IntcodeMachine.CommandLine.Report
import IntcodeMachine.Machine.Lemmas
import IntcodeMachine.Proofs.Listing.Grammar

set_option relaxedAutoImplicit false
set_option autoImplicit false

namespace IntcodeMachine

/-! ### Patches -/

namespace Memory

/-- Memory after the patches `qs`, in order. -/
def patched (mem : Memory) (qs : List Patch) : Memory :=
  qs.foldl (fun mem q => mem.set q.address q.value) mem

variable {mem : Memory} {q : Patch} {qs : List Patch}

theorem patched_cons (mem : Memory) (q : Patch) (qs : List Patch) :
    mem.patched (q :: qs) = (mem.set q.address q.value).patched qs := rfl

theorem patched_append (mem : Memory) (ps qs : List Patch) :
    mem.patched (ps ++ qs) = (mem.patched ps).patched qs := List.foldl_append

theorem size_patched (mem : Memory) (qs : List Patch) :
    (mem.patched qs).size = qs.foldl (fun n q => max n (q.address + 1)) mem.size := by
  induction qs generalizing mem with
  | nil => rfl
  | cons q qs ih => rw [patched_cons, ih, size_set, List.foldl_cons]

/-- A cell that is not patched keeps its value. -/
theorem get_patched_of_ne {a : Nat} (h : ∀ q ∈ qs, q.address ≠ a) :
    (mem.patched qs).get a = mem.get a := by
  induction qs generalizing mem with
  | nil => rfl
  | cons q qs ih =>
      rw [List.forall_mem_cons] at h
      rw [patched_cons, ih h.2, get_set_of_ne _ _ (Ne.symm h.1)]

/-- **The last patch of a cell counts.** -/
theorem get_patched_of_last (before : List Patch) (h : ∀ r ∈ qs, r.address ≠ q.address) :
    (mem.patched (before ++ q :: qs)).get q.address = q.value := by
  rw [patched_append, patched_cons, get_patched_of_ne h, get_set_self]

/-- All patches are in range, or there is a first one that is not. -/
theorem forall_inRange_or (mem : Memory) (qs : List Patch) :
    (∀ q ∈ qs, mem.InRange q.address) ∨
      ∃ before q after, qs = before ++ q :: after ∧ (∀ r ∈ before, mem.InRange r.address) ∧
        ¬mem.InRange q.address := by
  cases hfind : qs.find? fun q => !decide (mem.InRange q.address) with
  | none =>
      left
      intro q hq
      simpa using List.find?_eq_none.1 hfind q hq
  | some q =>
      right
      obtain ⟨hq, before, after, hqs, hbefore⟩ := List.find?_eq_some_iff_append.1 hfind
      exact ⟨before, q, after, hqs, by simpa using hbefore, by simpa using hq⟩

end Memory

namespace Patch

variable {m : Machine} {q : Patch} {qs : List Patch}

theorem apply_cons_of_inRange (h : m.memory.InRange q.address) (qs : List Patch) :
    apply (q :: qs) m = apply qs { m with memory := m.memory.set q.address q.value } :=
  Machine.bind_of_ok (Machine.onMemory_write_of_inRange h)

/-- Patches in range are all made. -/
theorem apply_of_inRange (h : ∀ q ∈ qs, m.memory.InRange q.address) :
    apply qs m = .ok () { m with memory := m.memory.patched qs } := by
  induction qs generalizing m with
  | nil => rfl
  | cons q qs ih =>
      rw [List.forall_mem_cons] at h
      have hqs : ∀ r ∈ qs, (m.memory.set q.address q.value).InRange r.address :=
        fun r hr => (Memory.inRange_set h.1).2 (h.2 r hr)
      rw [apply_cons_of_inRange h.1]
      exact ih hqs

/-- The first patch that is not in range is refused. -/
theorem apply_of_not_inRange {before : List Patch} (hb : ∀ r ∈ before, m.memory.InRange r.address)
    (hq : ¬m.memory.InRange q.address) (after : List Patch) :
    ∃ m', apply (before ++ q :: after) m = .error (.addressOutOfRange q.address) m' := by
  induction before generalizing m with
  | nil => exact ⟨m, Machine.bind_of_error (Machine.onMemory_write_of_not_inRange hq)⟩
  | cons r before ih =>
      rw [List.forall_mem_cons] at hb
      rw [List.cons_append, apply_cons_of_inRange hb.1]
      -- the patch has changed memory, but not its range
      refine ih (fun s hs => (Memory.inRange_set hb.1).2 (hb.2 s hs)) ?_
      rwa [Memory.inRange_set hb.1]

end Patch

/-! ### The machine -/

namespace Options

/-- **The machine that is run** with the options `o`, if the listing holds the program `p`. -/
structure Prepared (o : Options) (p : List Cell) (m : Machine) : Prop where
  /-- All patched addresses are those of cells that memory has or can grow to have. -/
  inRange : ∀ q ∈ o.patches, q.address < max p.length Memory.maxCells
  /-- A patched cell holds the value of its last patch. -/
  patched : ∀ before q after, o.patches = before ++ q :: after →
    (∀ r ∈ after, r.address ≠ q.address) → m.memory.get q.address = q.value
  /-- Any other cell holds that of the program, or zero. -/
  unpatched : ∀ a, (∀ q ∈ o.patches, q.address ≠ a) → m.memory.get a = p.getD a 0
  /-- Memory has the cells of the program and all cells up to the patched ones. -/
  size : m.memory.size = o.patches.foldl (fun n q => max n (q.address + 1)) p.length
  /-- The input is the lines, each with a line feed, if there are any. -/
  lines : o.ascii ≠ [] →
    m.input = .queue (o.ascii.flatMap fun line => line.toList.map Cell.ofChar ++ [10])
  /-- Otherwise it is the value, or one if none was given. -/
  value : o.ascii = [] → m.input = .constant (o.value?.getD 1)
  pc : m.pc = 0
  relativeBase : m.relativeBase = 0
  output : m.output = #[]
  halted : m.halted = false

variable {o : Options} {p : List Cell} {listing : String} {m m' : Machine}

/-- A patched address has a last patch. -/
theorem exists_last_patch {qs : List Patch} {a : Nat} (h : ∃ q ∈ qs, q.address = a) :
    ∃ before q after, qs = before ++ q :: after ∧ q.address = a ∧
      ∀ r ∈ after, r.address ≠ a := by
  induction qs with
  | nil =>
      obtain ⟨q, hq, -⟩ := h
      cases hq
  | cons q qs ih =>
      by_cases hqs : ∃ r ∈ qs, r.address = a
      · obtain ⟨before, r, after, rfl, hr, hafter⟩ := ih hqs
        exact ⟨q :: before, r, after, rfl, hr, hafter⟩
      · have hq : q.address = a := by
          obtain ⟨r, hr, ha⟩ := h
          rcases List.mem_cons.1 hr with rfl | hr
          · exact ha
          · exact absurd ⟨r, hr, ha⟩ hqs
        exact ⟨[], q, qs, rfl, hq, fun r hr ha => hqs ⟨r, hr, ha⟩⟩

/-- There is one machine to be run. -/
theorem Prepared.unique (h : Prepared o p m) (h' : Prepared o p m') : m = m' := by
  have hmemory : m.memory = m'.memory := by
    refine Memory.ext_get (h.size.trans h'.size.symm) ?_
    intro a
    by_cases ha : ∃ q ∈ o.patches, q.address = a
    · obtain ⟨before, q, after, hqs, rfl, hafter⟩ := exists_last_patch ha
      rw [h.patched before q after hqs hafter, h'.patched before q after hqs hafter]
    · have hne : ∀ q ∈ o.patches, q.address ≠ a := fun q hq he => ha ⟨q, hq, he⟩
      rw [h.unpatched a hne, h'.unpatched a hne]
  have hinput : m.input = m'.input := by
    by_cases hlines : o.ascii = []
    · rw [h.value hlines, h'.value hlines]
    · rw [h.lines hlines, h'.lines hlines]
  obtain ⟨memory, pc, base, input, output, halted⟩ := m
  obtain ⟨memory', pc', base', input', output', halted'⟩ := m'
  rw [Machine.mk.injEq]
  exact ⟨hmemory, h.pc.trans h'.pc.symm, h.relativeBase.trans h'.relativeBase.symm, hinput,
    h.output.trans h'.output.symm, h.halted.trans h'.halted.symm⟩

theorem ne_nil_of_parse (h : Listing.parse listing = .ok p) : p ≠ [] := by
  rintro rfl
  obtain ⟨f, fs, hfs, -, -⟩ := Listing.exists_fields listing.toList
  have hcells := Listing.parse_eq_ok_iff.1 h
  rw [hfs] at hcells
  cases hcells

/-- The machine with the program of a listing, before the patches. -/
theorem ofListing_input_of_parse (h : Listing.parse listing = .ok p) :
    Machine.ofListing listing o.input = .ok { memory := ⟨p.toArray⟩, input := o.input } :=
  Listing.ofListing_of_parse h (ne_nil_of_parse h) o.input

theorem inRange_toArray {a : Nat} :
    Memory.InRange ⟨p.toArray⟩ a ↔ a < max p.length Memory.maxCells := by
  rw [Memory.InRange, Memory.size, List.size_toArray]

/-- The program, its input and its patches make up the machine that is run. -/
theorem prepared_patched (h : ∀ q ∈ o.patches, q.address < max p.length Memory.maxCells) :
    Prepared o p { memory := Memory.patched ⟨p.toArray⟩ o.patches, input := o.input } where
  inRange := h
  patched := by
    intro before q after hqs hafter
    rw [hqs]
    exact Memory.get_patched_of_last before hafter
  unpatched := by
    intro a ha
    rw [Memory.get_patched_of_ne ha, Memory.get]
    simp
  size := by
    rw [Memory.size_patched, Memory.size, List.size_toArray]
  lines := by
    intro hlines
    have hinput : o.input = .queue (Text.encodeLines o.ascii) :=
      if_neg (by simpa using hlines)
    exact hinput
  value := by
    intro hlines
    exact if_pos (by simpa using hlines)
  pc := rfl
  relativeBase := rfl
  output := rfl
  halted := rfl

/-- A listing that is read and patches that are in range are all that is needed. -/
theorem prepare_of_parse (hp : Listing.parse listing = .ok p)
    (h : ∀ q ∈ o.patches, q.address < max p.length Memory.maxCells) :
    o.prepare listing =
      .ok { memory := Memory.patched ⟨p.toArray⟩ o.patches, input := o.input } := by
  have happly := Patch.apply_of_inRange
    (m := { memory := ⟨p.toArray⟩, input := o.input }) fun q hq => inRange_toArray.2 (h q hq)
  rw [prepare, ofListing_input_of_parse hp]
  simp only [happly]

theorem prepare_of_parse_error {e : LoadError} (h : Listing.parse listing = .error e) :
    o.prepare listing = .error (.load e) := by
  rw [prepare, Machine.ofListing, h]

theorem prepare_of_refused {before after : List Patch} {q : Patch}
    (hp : Listing.parse listing = .ok p) (hqs : o.patches = before ++ q :: after)
    (hb : ∀ r ∈ before, r.address < max p.length Memory.maxCells)
    (hq : max p.length Memory.maxCells ≤ q.address) :
    o.prepare listing = .error (.fault (.addressOutOfRange q.address)) := by
  obtain ⟨m', happly⟩ := Patch.apply_of_not_inRange
    (m := { memory := ⟨p.toArray⟩, input := o.input }) (fun r hr => inRange_toArray.2 (hb r hr))
    (fun hr => absurd (inRange_toArray.1 hr) (Nat.not_lt.2 hq)) after
  rw [← hqs] at happly
  rw [prepare, ofListing_input_of_parse hp]
  simp only [happly]

/-- **What comes of a listing**: it is not read, or a patch is refused, or there is a machine to
run. -/
theorem prepare_cases (o : Options) (listing : String) :
    (∃ e, Listing.parse listing = .error e) ∨
    (∃ p before q after, Listing.parse listing = .ok p ∧ o.patches = before ++ q :: after ∧
      (∀ r ∈ before, r.address < max p.length Memory.maxCells) ∧
      max p.length Memory.maxCells ≤ q.address) ∨
    ∃ p, Listing.parse listing = .ok p ∧
      ∀ q ∈ o.patches, q.address < max p.length Memory.maxCells := by
  cases hp : Listing.parse listing with
  | error e => exact .inl ⟨e, rfl⟩
  | ok p =>
      right
      rcases Memory.forall_inRange_or ⟨p.toArray⟩ o.patches with h | ⟨before, q, after, hqs, hb, hq⟩
      · exact .inr ⟨p, rfl, fun q hq => inRange_toArray.1 (h q hq)⟩
      · refine .inl ⟨p, before, q, after, rfl, hqs, fun r hr => inRange_toArray.1 (hb r hr), ?_⟩
        rwa [inRange_toArray, Nat.not_lt] at hq

/-- **The machine that is run.** -/
theorem prepare_eq_ok_iff :
    o.prepare listing = .ok m ↔ ∃ p, Listing.parse listing = .ok p ∧ Prepared o p m := by
  constructor
  · intro h
    rcases prepare_cases o listing with
      ⟨e, hp⟩ | ⟨p, before, q, after, hp, hqs, hb, hq⟩ | ⟨p, hp, hqs⟩
    · rw [prepare_of_parse_error hp] at h
      cases h
    · rw [prepare_of_refused hp hqs hb hq] at h
      cases h
    · rw [prepare_of_parse hp hqs] at h
      cases h
      exact ⟨p, hp, prepared_patched hqs⟩
  · rintro ⟨p, hp, hm⟩
    rw [prepare_of_parse hp hm.inRange, (prepared_patched hm.inRange).unique hm]

/-- **The failure if there is no machine to run.** -/
theorem prepare_eq_error_iff {cause : Failure} :
    o.prepare listing = .error cause ↔
      (∃ e, Listing.parse listing = .error e ∧ cause = .load e) ∨
      ∃ p before q after, Listing.parse listing = .ok p ∧ o.patches = before ++ q :: after ∧
        (∀ r ∈ before, r.address < max p.length Memory.maxCells) ∧
        max p.length Memory.maxCells ≤ q.address ∧
        cause = .fault (.addressOutOfRange q.address) := by
  constructor
  · intro h
    rcases prepare_cases o listing with
      ⟨e, hp⟩ | ⟨p, before, q, after, hp, hqs, hb, hq⟩ | ⟨p, hp, hqs⟩
    · rw [prepare_of_parse_error hp] at h
      cases h
      exact .inl ⟨e, hp, rfl⟩
    · rw [prepare_of_refused hp hqs hb hq] at h
      cases h
      exact .inr ⟨p, before, q, after, hp, hqs, hb, hq, rfl⟩
    · rw [prepare_of_parse hp hqs] at h
      cases h
  · rintro (⟨e, hp, rfl⟩ | ⟨p, before, q, after, hp, hqs, hb, hq, rfl⟩)
    · exact prepare_of_parse_error hp
    · exact prepare_of_refused hp hqs hb hq

end Options

end IntcodeMachine

/-
**Memory as a store.**

A memory that starts with a program is accessed in any order: cells are read, written, patched and
reserved, inside and outside the range.  Growth on demand and the array of cells are the means; what
is seen from outside is a plain store.  Every address in the range of the program, or of the size
that memory can grow to, is always there.  It holds the value that was last written to it, or else
that of the program, or else zero.  Every other address is refused, and nothing comes of it.

The accesses made so far are kept in a log, each with its answer, and what memory holds is stated as
a function of the program and the log (`Memory.Reflects`).  It is enough to see what one more access
does to both.

Main definitions:

* `Memory.Access`, `Memory.Answer`, `Memory.access` — an access, and what comes of it;
* `Memory.log`, `Memory.after` — the answers to several accesses, and memory after them;
* `Memory.remembered` — the value that a program and a log tell of an address;
* `Memory.top` — how far the accesses in a log that succeeded have reached;
* `Memory.Reflects` — memory holds what the program and the log tell.

Main results:

* `Memory.Reflects.access` — one more access keeps the agreement;
* `Memory.reflects_after` — **memory reflects its log**;
* `Memory.store_over_history` — what every access in every history answers.
-/

import IntcodeMachine.Memory.Lemmas

set_option relaxedAutoImplicit false
set_option autoImplicit false

namespace IntcodeMachine

namespace Memory

/-! ### Accesses and their log -/

/-- What can be asked of a memory. -/
inductive Access where
  | read (a : Nat)
  | write (a : Nat) (v : Cell)
  | patch (a : Nat) (v : Cell)
  | reserve (a : Nat)
deriving DecidableEq

/-- The address that an access is about. -/
def Access.address : Access → Nat
  | read a => a
  | write a _ => a
  | patch a _ => a
  | reserve a => a

/-- What a memory answers. -/
inductive Answer where
  /-- The value that was read. -/
  | value (v : Cell)
  /-- Any other access was made. -/
  | done
  | fault (e : Fault)
deriving DecidableEq

/-- Whether an access was made, to judge by its answer. -/
def Answer.succeeds : Answer → Bool
  | value _ => true
  | done => true
  | fault _ => false

/-- The answer to an access that has ended, with the memory that it leaves. -/
def answered {α : Type} (answer : α → Answer) : EStateM.Result Fault Memory α → Answer × Memory
  | .ok x m => (answer x, m)
  | .error e m => (.fault e, m)

/-- **One access**: the answer, and memory after it. -/
def access (m : Memory) : Access → Answer × Memory
  | .read a => answered .value (read a m)
  | .write a v => answered (fun _ => .done) (write a v m)
  | .patch a v => answered (fun _ => .done) (patch a v m)
  | .reserve a => answered (fun _ => .done) (reserve a m)

/-- An access that was made, with its answer. -/
abbrev Entry := Access × Answer

/-- The log of several accesses, the earliest first. -/
def log (m : Memory) : List Access → List Entry
  | [] => []
  | c :: cs => (c, (m.access c).1) :: (m.access c).2.log cs

/-- Memory after several accesses. -/
def after (m : Memory) : List Access → Memory
  | [] => m
  | c :: cs => (m.access c).2.after cs

/-! ### What a log tells -/

/-- The value that an access has put at the address `a`, if it is a write or a patch there that
succeeded. -/
def stored? (a : Nat) : Entry → Option Cell
  | (.write b v, .done) => if b = a then some v else none
  | (.patch b v, .done) => if b = a then some v else none
  | _ => none

/-- **The value that a program and a log tell** of the address `a`: that of the last write or patch
there which succeeded, else that of the program, else zero. -/
def remembered (p : List Cell) (es : List Entry) (a : Nat) : Cell :=
  (es.reverse.findSome? (stored? a)).getD (p.getD a 0)

/-- The addresses at which an access has succeeded. -/
def succeeded (es : List Entry) : List Nat :=
  (es.filter fun e => e.2.succeeds).map fun e => e.1.address

/-- One more than the largest address at which an access has succeeded; zero if there is none. -/
def top (es : List Entry) : Nat := ((succeeded es).map (· + 1)).foldr max 0

@[simp] theorem remembered_nil (p : List Cell) (a : Nat) : remembered p [] a = p.getD a 0 := rfl

/-- One more entry decides by itself, or leaves the decision to the earlier ones. -/
theorem remembered_append (p : List Cell) (es : List Entry) (e : Entry) (a : Nat) :
    remembered p (es ++ [e]) a = (stored? a e).getD (remembered p es a) := by
  simp only [remembered, List.reverse_append, List.reverse_singleton, List.singleton_append,
    List.findSome?_cons]
  cases stored? a e <;> rfl

@[simp] theorem top_nil : top [] = 0 := rfl

private theorem foldr_max_append (ns : List Nat) (n : Nat) :
    (ns ++ [n]).foldr max 0 = max (ns.foldr max 0) n := by
  induction ns with
  | nil => simp
  | cons k ns ih =>
      rw [List.cons_append, List.foldr_cons, List.foldr_cons, ih]
      omega

/-- An access that succeeds reaches its address. -/
theorem top_append_of_succeeds {es : List Entry} {e : Entry} (h : e.2.succeeds = true) :
    top (es ++ [e]) = max (top es) (e.1.address + 1) := by
  have hes : succeeded (es ++ [e]) = succeeded es ++ [e.1.address] := by simp [succeeded, h]
  rw [top, hes, List.map_append, List.map_singleton, foldr_max_append]
  rfl

/-- An access that is refused reaches nothing. -/
theorem top_append_of_refused {es : List Entry} {e : Entry} (h : e.2.succeeds = false) :
    top (es ++ [e]) = top es := by
  simp [top, succeeded, h]

/-! ### One access -/

variable {m : Memory} {c : Access} {p : List Cell} {es : List Entry}

/-- The answer to an access in range, and memory after it. -/
def granted (m : Memory) : Access → Answer × Memory
  | .read a => (.value (m.get a), m.extend a)
  | .write a v => (.done, m.set a v)
  | .patch a v => (.done, m.set a v)
  | .reserve a => (.done, m.extend a)

/-- An access in range is granted. -/
theorem access_of_inRange (h : m.InRange c.address) : m.access c = m.granted c := by
  cases c with
  | read a => simp only [access, read, if_pos (show m.InRange a from h), answered, granted]
  | write a v => simp only [access, write, if_pos (show m.InRange a from h), answered, granted]
  | patch a v => simp only [access, write, if_pos (show m.InRange a from h), answered, granted]
  | reserve a => simp only [access, reserve, if_pos (show m.InRange a from h), answered, granted]

/-- Any other access is refused, and changes nothing. -/
theorem access_of_not_inRange (h : ¬m.InRange c.address) :
    m.access c = (.fault (.addressOutOfRange c.address), m) := by
  cases c with
  | read a =>
      simp only [access, read, if_neg (show ¬m.InRange a from h), answered, Access.address]
  | write a v =>
      simp only [access, write, if_neg (show ¬m.InRange a from h), answered, Access.address]
  | patch a v =>
      simp only [access, write, if_neg (show ¬m.InRange a from h), answered, Access.address]
  | reserve a =>
      simp only [access, reserve, if_neg (show ¬m.InRange a from h), answered, Access.address]

theorem succeeds_granted (m : Memory) (c : Access) : (m.granted c).1.succeeds = true := by
  cases c <;> rfl

/-- An access that is granted reaches its address. -/
theorem size_granted (m : Memory) (c : Access) :
    (m.granted c).2.size = max m.size (c.address + 1) := by
  cases c with
  | read a => exact size_extend m a
  | write a v => exact size_set m a v
  | patch a v => exact size_set m a v
  | reserve a => exact size_extend m a

/-- An access that is granted puts at an address what its entry says, or leaves it alone. -/
theorem get_granted (m : Memory) (c : Access) (a : Nat) :
    (m.granted c).2.get a = (stored? a (c, (m.granted c).1)).getD (m.get a) := by
  cases c with
  | read b => exact get_extend m b a
  | write b v =>
      rw [granted, get_set]
      by_cases h : a = b
      · simp [stored?, h]
      · simp [stored?, h, Ne.symm h]
  | patch b v =>
      rw [granted, get_set]
      by_cases h : a = b
      · simp [stored?, h]
      · simp [stored?, h, Ne.symm h]
  | reserve b => exact get_extend m b a

/-! ### Memory reflects its log -/

/-- Memory **reflects** a log of accesses to the program `p`: it reaches as far as they have, and
holds what they tell. -/
structure Reflects (p : List Cell) (es : List Entry) (m : Memory) : Prop where
  size_eq : m.size = max p.length (top es)
  get_eq : ∀ a, m.get a = remembered p es a
  size_le : m.size ≤ max p.length maxCells

/-- The range stays what it was for the program. -/
theorem Reflects.inRange_iff (h : Reflects p es m) (a : Nat) :
    m.InRange a ↔ a < max p.length maxCells := by
  have hsize := h.size_eq
  have hle := h.size_le
  unfold InRange
  omega

/-- **One more access** keeps the agreement. -/
theorem Reflects.access (h : Reflects p es m) (c : Access) :
    Reflects p (es ++ [(c, (m.access c).1)]) (m.access c).2 := by
  by_cases hc : m.InRange c.address
  · rw [access_of_inRange hc]
    have hlt := (h.inRange_iff _).1 hc
    have hle := h.size_le
    exact {
      size_eq := by
        have htop := @top_append_of_succeeds es (c, (m.granted c).1) (succeeds_granted m c)
        rw [size_granted, htop, h.size_eq, Nat.max_assoc]
      get_eq := by
        intro a
        rw [get_granted, remembered_append, h.get_eq]
      size_le := by
        rw [size_granted]
        omega }
  · rw [access_of_not_inRange hc]
    exact {
      size_eq := by
        rw [top_append_of_refused rfl]
        exact h.size_eq
      get_eq := by
        intro a
        rw [remembered_append, h.get_eq]
        cases c <;> rfl
      size_le := h.size_le }

/-- Memory after further accesses reflects the longer log. -/
theorem Reflects.after (h : Reflects p es m) (cs : List Access) :
    Reflects p (es ++ m.log cs) (m.after cs) := by
  induction cs generalizing m es with
  | nil =>
      rw [log, List.append_nil]
      exact h
  | cons c cs ih =>
      have hrest := ih (h.access c)
      rwa [List.append_assoc, List.singleton_append] at hrest

/-- A memory that has not been accessed holds the program. -/
theorem reflects_ofProgram (p : List Cell) : Reflects p [] ⟨p.toArray⟩ where
  size_eq := by simp [size]
  get_eq := by
    intro a
    simp [get, Array.getD_eq_getD_getElem?]
  size_le := by
    simp only [size, List.size_toArray]
    omega

/-- **Memory reflects its log**, whatever the accesses. -/
theorem reflects_after (p : List Cell) (cs : List Access) :
    Reflects p (log ⟨p.toArray⟩ cs) (after ⟨p.toArray⟩ cs) :=
  (reflects_ofProgram p).after cs

/-- **What an access comes to** when the memory that holds the program `p` has made the accesses of
the log `es` before, and is now `m`. -/
structure Faithful (p : List Cell) (es : List Entry) (m : Memory) (c : Access) : Prop where
  /-- It succeeds exactly within the range that the program gives. -/
  succeeds_iff : (m.access c).1.succeeds = true ↔ c.address < max p.length maxCells
  /-- If it fails it names its address, and memory stays as it is. -/
  refused : (m.access c).1.succeeds = false →
    m.access c = (.fault (.addressOutOfRange c.address), m)
  /-- If it is a read that succeeds, it gives the value that the log tells. -/
  value : ∀ a, c = .read a → (m.access c).1.succeeds = true →
    (m.access c).1 = .value (remembered p es a)

theorem Reflects.faithful (h : Reflects p es m) (c : Access) : Faithful p es m c := by
  by_cases hc : m.InRange c.address
  · have hgranted := access_of_inRange hc
    have hsucceeds := succeeds_granted m c
    exact {
      succeeds_iff := by
        rw [hgranted, hsucceeds]
        exact iff_of_true rfl ((h.inRange_iff _).1 hc)
      refused := by
        intro hfails
        rw [hgranted, hsucceeds] at hfails
        cases hfails
      value := by
        rintro a rfl -
        rw [hgranted, granted, h.get_eq] }
  · have hrefused := access_of_not_inRange hc
    exact {
      succeeds_iff := by
        rw [hrefused]
        exact iff_of_false Bool.false_ne_true fun hlt => hc ((h.inRange_iff _).2 hlt)
      refused := fun _ => hrefused
      value := by
        intro a _ hsucceeds
        rw [hrefused] at hsucceeds
        cases hsucceeds }

/-- **Memory is a faithful store over any history**: the memory of a program that is not empty
answers every access, after whatever accesses have been made before, as a store does whose cells are
those of the program and then zeros; and its size is what the program and the accesses that have
succeeded call for. -/
theorem store_over_history {p : List Cell} (hp : p ≠ []) :
    ∃ m, ofProgram? p = some m ∧ ∀ cs : List Access,
      (∀ c, Faithful p (m.log cs) (m.after cs) c) ∧
        (m.after cs).size = max p.length (top (m.log cs)) := by
  refine ⟨⟨p.toArray⟩, ?_, ?_⟩
  · rw [ofProgram?, if_neg (by simpa using hp)]
  · intro cs
    have h := reflects_after p cs
    exact ⟨h.faithful, h.size_eq⟩

/-- A patch, a read beyond the end, an access that is refused and another patch: the next read finds
the later of the two patches, and memory has grown to the address that was read. -/
theorem store_over_history_last_patch :
    ∃ m, ofProgram? [7, 8] = some m ∧
      m.log [.patch 1 5, .read 3, .write maxCells 6, .patch 1 9] =
        [(.patch 1 5, .done), (.read 3, .value 0),
          (.write maxCells 6, .fault (.addressOutOfRange maxCells)), (.patch 1 9, .done)] ∧
      Faithful [7, 8] (m.log [.patch 1 5, .read 3, .write maxCells 6, .patch 1 9])
        (m.after [.patch 1 5, .read 3, .write maxCells 6, .patch 1 9]) (.read 1) ∧
      remembered [7, 8] (m.log [.patch 1 5, .read 3, .write maxCells 6, .patch 1 9]) 1 = 9 ∧
      (m.after [.patch 1 5, .read 3, .write maxCells 6, .patch 1 9]).size = 4 := by
  obtain ⟨m, hm, h⟩ := store_over_history (p := [7, 8]) (by decide)
  obtain ⟨hnext, hsize⟩ := h [.patch 1 5, .read 3, .write maxCells 6, .patch 1 9]
  cases hm
  exact ⟨_, rfl, rfl, hnext _, rfl, hsize⟩

end Memory

end IntcodeMachine

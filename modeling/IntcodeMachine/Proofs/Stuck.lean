/-
**Machines that are stuck on a word.**

A step fails before it looks at any operand if its word cannot be read, or if the word is refused.
The program counter then stays where it is, so that the next step finds the same word.  The first
such step may still change the machine: memory grows to have the cell of the word.  From then on
nothing changes any more.  Each further call fails in the same way, until the word is patched; and
no other patch can help, since it changes neither the word nor whether there is a cell for it.

The fault of a word says by itself that the word is refused.  That an address is out of range can
also be said of an operand.  But if it is the address of the word, the word itself cannot be read:
an operand is looked for only after the word was found, and then its address is in range.

Main definitions:

* `Machine.Stuck` — **the state of a machine that is stuck**, as an invariant;
* `Machine.RemainsStuck` — what is said about a session of a machine that is stuck.

Main results:

* `Machine.stuck_of_step` — a step that fails for its word leaves the machine stuck;
* `Machine.Stuck.step` — a step of a machine that is stuck fails, and changes nothing;
* `Machine.Stuck.of_call`, `Machine.Session.stuck` — calls keep the machine stuck, one by one and in
  a session;
* `Machine.stuck_until_patched` — **a machine that is stuck stays so until the word is patched**.
-/

import IntcodeMachine.Proofs.Footprint
import IntcodeMachine.Proofs.Session
import IntcodeMachine.Proofs.Step.Failure

set_option relaxedAutoImplicit false
set_option autoImplicit false

namespace IntcodeMachine

namespace Machine

/-- A machine is **stuck** at the address `pc` with the fault `e`: the program counter is there, and
either there is no cell for the word, nor can there be one, or the word is in memory and refused. -/
structure Stuck (e : Fault) (pc : Nat) (m : Machine) : Prop where
  running : m.halted = false
  pc_eq : m.pc = pc
  word : (¬m.memory.InRange pc ∧ e = .addressOutOfRange pc) ∨
    (pc < m.memory.size ∧ Instruction.decode pc (m.memory.get pc) = .error e)

variable {m m' m'' : Machine} {e : Fault} {pc a : Nat} {v : Cell}

/-! ### The step that fails -/

/-- The word cannot be read, or it is refused.  An operand is not to blame: its faults are none of a
word, and once the word has been read, its address is no address out of range. -/
theorem word_of_step (h : step m = .error e m')
    (he : e.isOfWord = true ∨ e = .addressOutOfRange m.pc) :
    ¬m.memory.InRange m.pc ∨ Instruction.decode m.pc (m.memory.get m.pc) = .error e := by
  rcases step_error_cases h with ⟨-, rfl, -⟩ | ⟨hr, -, -⟩ | ⟨-, hd, -⟩ | ⟨i, -, -, hf, -⟩
  · rcases he with he | he <;> cases he
  · exact .inl hr
  · exact .inr hd
  · rcases he with he | rfl
    · rw [(fault_of_afterWord hf).1] at he
      cases he
    · have htrue : m.Truthful (.addressOutOfRange m.pc) := truthful_of_step h
      exact .inl (Nat.not_lt.2 htrue)

/-- **A step that fails for its word leaves the machine stuck.** -/
theorem stuck_of_step (h : step m = .error e m')
    (he : e.isOfWord = true ∨ e = .addressOutOfRange m.pc) : Stuck e m.pc m' := by
  cases hh : m.halted with
  | true =>
      rw [step_of_halted hh] at h
      cases h
      rcases he with he | he <;> cases he
  | false =>
      by_cases hr : m.memory.InRange m.pc
      · have hd := (word_of_step h he).resolve_left (not_not_intro hr)
        rw [step_of_undecodable hh hr hd] at h
        cases h
        refine ⟨hh, rfl, .inr ⟨?_, ?_⟩⟩
        · rw [Memory.size_extend]
          omega
        · rw [Memory.get_extend]
          exact hd
      · rw [step_of_not_inRange hh hr] at h
        cases h
        exact ⟨hh, rfl, .inl ⟨hr, rfl⟩⟩

/-! ### Calls on a machine that is stuck -/

/-- **A step of a machine that is stuck** fails, and changes nothing: there is no cell for the word,
or memory has it already. -/
theorem Stuck.step (h : Stuck e pc m) : step m = .error e m := by
  obtain ⟨hrunning, rfl, hword⟩ := h
  rcases hword with ⟨hr, rfl⟩ | ⟨hlt, hd⟩
  · exact step_of_not_inRange hrunning hr
  · have hr : m.memory.InRange m.pc := Nat.lt_of_lt_of_le hlt (Nat.le_max_left _ _)
    rw [step_of_undecodable hrunning hr hd, Memory.extend_of_lt hlt]

/-- A cell other than that of the word does not matter, even if memory grows to have it. -/
theorem Stuck.overwrite (h : Stuck e pc m) (ha : m.memory.InRange a) (hne : a ≠ pc) :
    Stuck e pc (m.overwrite a v) where
  running := h.running
  pc_eq := h.pc_eq
  word := by
    rcases h.word with ⟨hr, he⟩ | ⟨hlt, hd⟩
    · left
      exact ⟨mt (Memory.inRange_set ha).1 hr, he⟩
    · right
      refine ⟨?_, ?_⟩
      · simp only [Machine.overwrite, Memory.size_set]
        omega
      · rw [Machine.overwrite, Memory.get_set_of_ne _ _ hne.symm]
        exact hd

theorem call_patch_of_inRange (n : Nat) (v : Cell) (ha : m.memory.InRange a) :
    m.call n (.patch a v) = some (.done, m.overwrite a v) := by
  rw [call, patch, onMemory_write_of_inRange ha]
  rfl

theorem call_patch_of_not_inRange (n : Nat) (v : Cell) (ha : ¬m.memory.InRange a) :
    m.call n (.patch a v) = some (.fault (.addressOutOfRange a), m) := by
  rw [call, patch, onMemory_write_of_not_inRange ha]
  rfl

/-- **A call keeps the machine stuck**, unless it patches the word, and changes at most memory. -/
theorem Stuck.of_call {n : Nat} {c : Call} {r : Answer} (h : Stuck e pc m)
    (hc : ∀ v, c ≠ .patch pc v) (hcall : m.call n c = some (r, m')) :
    Stuck e pc m' ∧ m' = { m with memory := m'.memory } := by
  cases c with
  | patch a v =>
      have hne : a ≠ pc := fun ha => hc v (ha ▸ rfl)
      by_cases ha : m.memory.InRange a
      · rw [call_patch_of_inRange n v ha] at hcall
        cases hcall
        exact ⟨h.overwrite ha hne, rfl⟩
      · rw [call_patch_of_not_inRange n v ha] at hcall
        cases hcall
        exact ⟨h, rfl⟩
  | _ =>
      obtain ⟨-, rfl⟩ := answer_of_idle h.step (by rintro a v ⟨⟩) hcall
      exact ⟨h, rfl⟩

/-! ### Sessions of a machine that is stuck -/

/-- **A session keeps the machine stuck**, unless it patches the word, and changes at most memory. -/
theorem Session.stuck {es : List Event} (hs : Session m es m') (h : Stuck e pc m)
    (hes : ∀ ev ∈ es, ∀ v, ev.call ≠ .patch pc v) :
    Stuck e pc m' ∧ m' = { m with memory := m'.memory } := by
  induction hs with
  | nil m => exact ⟨h, rfl⟩
  | cons hcall _ ih =>
      obtain ⟨hev, hes⟩ := List.forall_mem_cons.1 hes
      obtain ⟨hstuck, hfirst⟩ := h.of_call hev hcall
      obtain ⟨hstuck', hrest⟩ := ih hstuck hes
      refine ⟨hstuck', ?_⟩
      rw [hfirst] at hrest
      exact hrest

/-- Every call of the session but a patch fails in the same way, and changes nothing. -/
theorem Session.answers_of_stuck {es : List Event} (hs : Session m es m') (h : Stuck e pc m)
    (hes : ∀ ev ∈ es, ∀ v, ev.call ≠ .patch pc v) :
    ∀ ev ∈ es, (∀ a v, ev.call ≠ .patch a v) → ev.answer = .fault e ∧ ev.after = ev.before := by
  induction hs with
  | nil m =>
      intro ev hev
      cases hev
  | cons hcall _ ih =>
      obtain ⟨hev, hes⟩ := List.forall_mem_cons.1 hes
      exact List.forall_mem_cons.2 ⟨fun hc => answer_of_idle h.step hc hcall,
        ih (h.of_call hev hcall).1 hes⟩

/-- A session without any patch changes nothing. -/
theorem Session.eq_of_stuck {es : List Event} (hs : Session m es m') (h : Stuck e pc m)
    (hes : ∀ ev ∈ es, ∀ a v, ev.call ≠ .patch a v) : m' = m := by
  induction hs with
  | nil m => rfl
  | cons hcall _ ih =>
      obtain ⟨hev, hrest⟩ := List.forall_mem_cons.1 hes
      obtain ⟨-, rfl⟩ := answer_of_idle h.step hev hcall
      exact ih h hrest

/-- **What is said about a session** from `m` to `m'` of a machine that is stuck at `pc` with the
fault `e`. -/
structure RemainsStuck (e : Fault) (pc : Nat) (m : Machine) (es : List Event) (m' : Machine) :
    Prop where
  /-- Every call but a patch fails in the same way, and changes nothing. -/
  answers : ∀ ev ∈ es, (∀ a v, ev.call ≠ .patch a v) →
    ev.answer = .fault e ∧ ev.after = ev.before
  /-- Patches change nothing but memory. -/
  patches : m' = { m with memory := m'.memory }
  /-- Without patches nothing changes. -/
  unpatched : (∀ ev ∈ es, ∀ a v, ev.call ≠ .patch a v) → m' = m
  /-- Whatever is called next, but for a patch, returns, and it fails in the same way again. -/
  next : ∀ c, (∀ a v, c ≠ .patch a v) → ∀ n, m'.call (n + 1) c = some (.fault e, m')
  /-- If there can be a cell for the word, it can be patched.  The next step decodes the patched
  word: it fails if the word is refused, and otherwise executes the instruction. -/
  patched : m'.memory.InRange pc → ∀ v n,
    m'.call n (.patch pc v) = some (.done, m'.overwrite pc v) ∧
      (∀ f, Instruction.decode pc v = .error f →
        Machine.step (m'.overwrite pc v) = .error f (m'.overwrite pc v)) ∧
      ∀ i, Instruction.decode pc v = .ok i →
        Machine.step (m'.overwrite pc v) = execute pc i (m'.overwrite pc v).advance
  /-- If there can be none, it cannot be patched either. -/
  unpatchable : ¬m'.memory.InRange pc → ∀ v n,
    m'.call n (.patch pc v) = some (.fault (.addressOutOfRange pc), m')

/-- The step after a patch of the word decodes the patched word. -/
theorem Stuck.step_overwrite (h : Stuck e pc m) (v : Cell) :
    (∀ f, Instruction.decode pc v = .error f →
        Machine.step (m.overwrite pc v) = .error f (m.overwrite pc v)) ∧
      ∀ i, Instruction.decode pc v = .ok i →
        Machine.step (m.overwrite pc v) = execute pc i (m.overwrite pc v).advance := by
  obtain ⟨hrunning, rfl, -⟩ := h
  have hget : (m.overwrite m.pc v).memory.get m.pc = v := Memory.get_set_self _ _ _
  have hlt : m.pc < (m.overwrite m.pc v).memory.size := by
    simp only [Machine.overwrite, Memory.size_set]
    omega
  constructor
  · intro f hd
    exact Stuck.step ⟨hrunning, rfl, .inr ⟨hlt, hget.symm ▸ hd⟩⟩
  · intro i hd
    exact step_of_decode hrunning (Nat.lt_of_lt_of_le hlt (Nat.le_max_left _ _)) (hget.symm ▸ hd)

/-- **A machine that is stuck on a word stays so until the word is patched.**  After a step that
fails because its word cannot be read or is refused, in any session that does not patch the word,
every call but a patch returns the same fault and changes nothing. -/
theorem stuck_until_patched {es : List Event} (h : step m = .error e m')
    (he : e.isOfWord = true ∨ e = .addressOutOfRange m.pc) (hs : Session m' es m'')
    (hes : ∀ ev ∈ es, ∀ v, ev.call ≠ .patch m.pc v) : RemainsStuck e m.pc m' es m'' := by
  have hstuck := stuck_of_step h he
  obtain ⟨hstuck', hpatches⟩ := hs.stuck hstuck hes
  exact {
    answers := hs.answers_of_stuck hstuck hes
    patches := hpatches
    unpatched := hs.eq_of_stuck hstuck
    next := fun c hc n => call_of_idle hstuck'.step hc n
    patched := fun hr v n => ⟨call_patch_of_inRange n v hr, hstuck'.step_overwrite v⟩
    unpatchable := fun hr v n => call_patch_of_not_inRange n v hr }

/-- A program that has run past its end, where the first step makes memory grow: a step, a patch that
makes it grow further, a run, a patch that is refused, and another run. -/
theorem stuck_until_patched_past_end :
    ∃ m' m'' es,
      step { memory := ⟨#[99]⟩, pc := 3, input := .queue [] } = .error (.unknownOpcode 3 0) m' ∧
      m'.memory = ⟨#[99, 0, 0, 0]⟩ ∧ Session m' es m'' ∧
      es.map Event.call =
        [.step, .patch 5 99, .run, .patch 134217728 0, .runValues] ∧
      es.map Event.answer =
        [.fault (.unknownOpcode 3 0), .done, .fault (.unknownOpcode 3 0),
          .fault (.addressOutOfRange 134217728), .fault (.unknownOpcode 3 0)] ∧
      m''.memory = ⟨#[99, 0, 0, 0, 0, 99]⟩ ∧ RemainsStuck (.unknownOpcode 3 0) 3 m' es m'' := by
  have hs := Session.cons (m := { memory := ⟨#[99, 0, 0, 0]⟩, pc := 3, input := .queue [] })
    (n := 0) (c := .step) rfl (.cons (n := 0) (c := .patch 5 99) rfl
      (.cons (n := 1) (c := .run) rfl (.cons (n := 0) (c := .patch 134217728 0) rfl
        (.cons (n := 1) (c := .runValues) rfl (.nil _)))))
  refine ⟨_, _, _, rfl, rfl, hs, rfl, rfl, rfl, ?_⟩
  refine stuck_until_patched (m := { memory := ⟨#[99]⟩, pc := 3, input := .queue [] }) rfl
    (.inl rfl) hs ?_
  simp

end Machine

end IntcodeMachine

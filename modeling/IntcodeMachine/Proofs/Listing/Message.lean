/-
**Whether the message of a malformed listing is true.**

The message says of a token that it is no integer.  The token is not what the reader has refused,
though.  It is found again from the place where reading stopped, and then stripped of the blank
characters around it; an integer comes out of this in two ways, and in no other.

* The listing begins with a comma.  The field at fault is the empty one in front of the comma, but
  the field behind it is reported, whatever it is.
* Beside an integer there is a blank character that is no gap.  The reader takes only gaps, and so
  the field is at fault; the report takes off all blank characters, and the integer is left.

Main definitions:

* `Listing.Spells`, `Listing.IsInteger` — a text that is an integer, with nothing around it;
* `Listing.Padded` — an integer with blank characters around it;
* `Listing.Misleads` — **the listings whose message is false**.

Main results:

* `Listing.Padded.unique` — an integer and the blank characters around it are found in one way;
* `Listing.Padded.exists_holds_iff` — such a field holds a cell exactly when they are gaps;
* `Listing.reported_integer_iff` — when the reported field is an integer;
* `Listing.malformed_true_iff` — **the message is true exactly of the listings that do not
  mislead**.
-/

import IntcodeMachine.Proofs.Listing.Location

set_option relaxedAutoImplicit false
set_option autoImplicit false

namespace IntcodeMachine

namespace Listing

/-! ### Integers -/

/-- A text **spells** an integer: it is digits, most significant first, or a minus sign and
digits. -/
inductive Spells : List Char → Int → Prop
  | plain {digits : List Char} :
      Text.Digits digits → Spells digits (Nat.ofDigitChars 10 digits 0 : Nat)
  | minus {digits : List Char} :
      Text.Digits digits → Spells ('-' :: digits) (-(Nat.ofDigitChars 10 digits 0 : Nat))

/-- A text that is an integer in the range of a cell. -/
def IsInteger (cs : List Char) : Prop := ∃ n, Spells cs n ∧ Cell.Fits n

/-- The field `f` is the integer `core` with the blank characters `lead` and `trail` around it. -/
structure Padded (f lead core trail : List Char) : Prop where
  text_eq : f = lead ++ core ++ trail
  lead_blank : ∀ c ∈ lead, Text.isBlank c = true
  trail_blank : ∀ c ∈ trail, Text.isBlank c = true
  integer : IsInteger core

theorem IsInteger.ne_nil {cs : List Char} (h : IsInteger cs) : cs ≠ [] := by
  obtain ⟨n, hn, -⟩ := h
  cases hn with
  | plain hd => exact hd.1
  | minus hd => exact List.cons_ne_nil _ _

/-- No character of an integer is blank. -/
theorem IsInteger.not_blank {cs : List Char} (h : IsInteger cs) :
    ∀ c ∈ cs, Text.isBlank c = false := by
  obtain ⟨n, hn, -⟩ := h
  cases hn with
  | plain hd => exact fun c hc => not_isBlank_of_isDigit (hd.2 c hc)
  | minus hd =>
      rw [List.forall_mem_cons]
      exact ⟨by decide, fun c hc => not_isBlank_of_isDigit (hd.2 c hc)⟩

theorem isBlank_of_isGap {c : Char} (h : isGap c = true) : Text.isBlank c = true := by
  simp only [isGap, Bool.or_eq_true, beq_iff_eq] at h
  rcases h with ((rfl | rfl) | rfl) | rfl <;> decide

/-- The fields that hold cells are integers with gaps around them. -/
theorem exists_holds_iff {f : List Char} :
    (∃ a, Holds f a) ↔
      ∃ lead core trail, f = lead ++ core ++ trail ∧ Gaps lead ∧ Gaps trail ∧ IsInteger core := by
  constructor
  · rintro ⟨a, ha⟩
    have hfits := Cell.fits_toInt a
    unfold Holds at ha
    generalize a.toInt = n at ha hfits
    cases ha with
    | plain hb hd ht => exact ⟨_, _, _, rfl, hb, ht, _, .plain hd, hfits⟩
    | minus hb hd ht => exact ⟨_, _, _, rfl, hb, ht, _, .minus hd, hfits⟩
  · rintro ⟨lead, core, trail, rfl, hb, ht, n, hn, hfits⟩
    refine ⟨Int64.ofInt n, ?_⟩
    rw [Holds, Cell.toInt_ofInt_of_fits hfits]
    cases hn with
    | plain hd => exact .plain hb hd ht
    | minus hd => exact .minus hb hd ht

section Padded

variable {f lead core trail : List Char}

/-- What is left of a field without the blank characters at its start begins with the integer. -/
theorem Padded.span_eq (h : Padded f lead core trail) :
    f.takeWhile Text.isBlank = lead ∧ f.dropWhile Text.isBlank = core ++ trail := by
  have hhead : ∀ c ∈ (core ++ trail).head?, Text.isBlank c = false := by
    intro c hc
    refine h.integer.not_blank c (List.mem_of_mem_head? ?_)
    rwa [List.head?_append_of_ne_nil core h.integer.ne_nil] at hc
  rw [h.text_eq, List.append_assoc]
  exact span_append h.lead_blank hhead

/-- An integer is what is left of a field without the blank characters around it. -/
theorem Padded.trim_eq (h : Padded f lead core trail) : Text.trim Text.isBlank f = core := by
  have hlast : ∀ c ∈ core.getLast?, Text.isBlank c = false :=
    fun c hc => h.integer.not_blank c (List.mem_of_mem_getLast? hc)
  rw [Text.trim, Text.trimStart, h.span_eq.2]
  exact trimEnd_append hlast h.trail_blank

/-- **An integer and the blank characters around it are found in one way.** -/
theorem Padded.unique {lead' core' trail' : List Char} (h : Padded f lead core trail)
    (h' : Padded f lead' core' trail') : lead = lead' ∧ trail = trail' := by
  have hrest := h.span_eq.2.symm.trans h'.span_eq.2
  rw [← h.trim_eq, ← h'.trim_eq] at hrest
  exact ⟨h.span_eq.1.symm.trans h'.span_eq.1, List.append_cancel_left hrest⟩

/-- An integer with blank characters around it **holds a cell exactly when they are gaps**. -/
theorem Padded.exists_holds_iff (h : Padded f lead core trail) :
    (∃ a, Holds f a) ↔ Gaps lead ∧ Gaps trail := by
  rw [Listing.exists_holds_iff]
  constructor
  · rintro ⟨lead', core', trail', hf, hb, ht, hcore⟩
    have h' : Padded f lead' core' trail' :=
      ⟨hf, fun c hc => isBlank_of_isGap (hb c hc), fun c hc => isBlank_of_isGap (ht c hc), hcore⟩
    obtain ⟨rfl, rfl⟩ := h.unique h'
    exact ⟨hb, ht⟩
  · rintro ⟨hb, ht⟩
    exact ⟨lead, core, trail, h.text_eq, hb, ht, h.integer⟩

theorem isInteger_trim_iff :
    IsInteger (Text.trim Text.isBlank f) ↔ ∃ lead core trail, Padded f lead core trail := by
  constructor
  · intro h
    obtain ⟨trail, hstrip⟩ := exists_stripped f
    exact ⟨_, _, trail, hstrip.text_eq, hstrip.lead_blank, hstrip.trail_blank, h⟩
  · rintro ⟨lead, core, trail, h⟩
    rw [h.trim_eq]
    exact h.integer

end Padded

/-! ### The reported field -/

/-- A listing **misleads** if its message calls an integer no integer. -/
inductive Misleads (cs : List Char) : Prop
  /-- The listing begins with a comma, and an integer follows. -/
  | emptyFirst {f lead core trail : List Char} {after : List (List Char)} :
      fields cs = [] :: f :: after → Padded f lead core trail → Misleads cs
  /-- The first field at fault is an integer, with a blank character beside it that is no gap. -/
  | foreignBlank {f lead core trail : List Char} {good bad : List (List Char)} :
      fields cs = good ++ f :: bad → (∀ g ∈ good, ∃ a, Holds g a) → Padded f lead core trail →
      (∃ c ∈ lead ++ trail, isGap c = false) → Misleads cs

/-- There is one first field at fault. -/
theorem FirstAtFault.unique {fs good good' bad bad' : List (List Char)} {f f' : List Char}
    (h : FirstAtFault fs good f bad) (h' : FirstAtFault fs good' f' bad') : f = f' := by
  induction good generalizing fs good' with
  | nil =>
      have he := h.fields_eq.symm.trans h'.fields_eq
      cases good' with
      | nil => exact (List.cons.inj he).1
      | cons g good' =>
          obtain ⟨a, ha⟩ := h'.holds g List.mem_cons_self
          rw [← (List.cons.inj he).1] at ha
          exact absurd ha (h.not_holds a)
  | cons g good ih =>
      have he := h.fields_eq.symm.trans h'.fields_eq
      cases good' with
      | nil =>
          obtain ⟨a, ha⟩ := h.holds g List.mem_cons_self
          rw [(List.cons.inj he).1] at ha
          exact absurd ha (h'.not_holds a)
      | cons g' good' =>
          have hrest : FirstAtFault (good ++ f :: bad) good f bad :=
            ⟨rfl, fun k hk => h.holds k (List.mem_cons_of_mem g hk), h.not_holds⟩
          exact ih hrest ⟨(List.cons.inj he).2,
            fun k hk => h'.holds k (List.mem_cons_of_mem g' hk), h'.not_holds⟩

theorem head?_eq_comma_iff {cs : List Char} :
    cs.head? = some ',' ↔ ∃ g after, fields cs = [] :: g :: after := by
  obtain ⟨f, fs, hfs, hcs, hc⟩ := exists_fields cs
  rw [hfs, hcs]
  cases f with
  | nil =>
      cases fs with
      | nil => simp
      | cons g fs => simp
  | cons d f =>
      have hd : d ≠ ',' := by
        rintro rfl
        exact hc _ List.mem_cons_self List.mem_cons_self
      simp [hd]

/-- A field that begins or ends with a blank character that is no gap is at fault. -/
theorem Padded.firstAtFault {f lead core trail : List Char} {fs good bad : List (List Char)}
    (h : Padded f lead core trail) (hfs : fs = good ++ f :: bad)
    (hgood : ∀ g ∈ good, ∃ a, Holds g a) (hforeign : ∃ c ∈ lead ++ trail, isGap c = false) :
    FirstAtFault fs good f bad := by
  refine ⟨hfs, hgood, fun a ha => ?_⟩
  obtain ⟨hlead, htrail⟩ := h.exists_holds_iff.1 ⟨a, ha⟩
  obtain ⟨c, hc, hn⟩ := hforeign
  have hgap : isGap c = true := by
    rcases List.mem_append.1 hc with hc | hc
    · exact hlead c hc
    · exact htrail c hc
  rw [hgap] at hn
  cases hn

section Reported

variable {cs f g : List Char} {before after rest : List (List Char)}

/-- The second field is reported if the listing begins with a comma. -/
theorem Reported.eq_second (h : Reported cs before f after) (hcs : fields cs = [] :: g :: rest) :
    f = g := by
  have hlen := h.second (head?_eq_comma_iff.2 ⟨g, rest, hcs⟩)
  obtain ⟨b, rfl⟩ := List.length_eq_one_iff.1 hlen
  have he := hcs.symm.trans h.fields_eq
  exact (List.cons.inj (List.cons.inj he).2).1.symm

/-- The first field at fault is reported if it is not empty. -/
theorem Reported.eq_of_firstAtFault {good bad : List (List Char)} (h : Reported cs before f after)
    (hg : FirstAtFault (fields cs) good g bad) (hne : g ≠ []) : f = g := by
  have hcs : cs.head? ≠ some ',' := by
    intro hcs
    exact hne (hg.eq_nil_of_comma hcs).2
  obtain ⟨hgood, hnot⟩ := h.first hcs
  exact FirstAtFault.unique ⟨h.fields_eq, hgood, hnot⟩ hg

/-- **The reported field is an integer, the blank characters around it apart, exactly if the listing
misleads.** -/
theorem reported_integer_iff (h : Reported cs before f after) :
    IsInteger (Text.trim Text.isBlank f) ↔ Misleads cs := by
  rw [isInteger_trim_iff]
  constructor
  · rintro ⟨lead, core, trail, hp⟩
    by_cases hcs : cs.head? = some ','
    · obtain ⟨g, rest, hfields⟩ := head?_eq_comma_iff.1 hcs
      rw [h.eq_second hfields] at hp
      exact .emptyFirst hfields hp
    · obtain ⟨hgood, hnot⟩ := h.first hcs
      refine .foreignBlank h.fields_eq hgood hp ?_
      by_contra hgaps
      have hall : Gaps (lead ++ trail) := by
        intro c hc
        by_contra hn
        exact hgaps ⟨c, hc, Bool.eq_false_iff.2 hn⟩
      obtain ⟨a, ha⟩ := hp.exists_holds_iff.2 (List.forall_mem_append.1 hall)
      exact hnot a ha
  · intro hm
    cases hm with
    | emptyFirst hfields hp =>
        rw [h.eq_second hfields]
        exact ⟨_, _, _, hp⟩
    | foreignBlank hfields hgood hp hforeign =>
        rw [h.eq_of_firstAtFault (hp.firstAtFault hfields hgood hforeign) ?_]
        · exact ⟨_, _, _, hp⟩
        · rw [hp.text_eq]
          simp [hp.integer.ne_nil]

end Reported

/-! ### The message -/

/-- The token of a load error is the reported field, without the blank characters around it. -/
theorem exists_reported {text : String} {offset : Nat} {token : String}
    (h : parse text = .error (.malformed offset token)) :
    ∃ before f after, Reported text.toList before f after ∧
      token.toList = Text.trim Text.isBlank f := by
  rcases parse_cases text with
    ⟨-, he⟩ | ⟨-, as, -, hok⟩ | ⟨hn, good, g, bad, hfault, hstop, he⟩
  · rw [he] at h
    cases h
  · rw [hok] at h
    cases h
  · have hne : text.toList ≠ [] := by
      intro hcs
      exact hn (by simp [hcs])
    obtain ⟨before, f, after, hrep, hs⟩ := reported_of_stops hfault hstop hne
    rw [he, hrep.malformed_eq hs] at h
    cases h
    exact ⟨before, f, after, hrep, String.toList_ofList⟩

/-- The characters of a field are characters of the text. -/
theorem mem_of_mem_fields {cs f : List Char} {c : Char} (hf : f ∈ fields cs) (hc : c ∈ f) :
    c ∈ cs := by
  obtain ⟨g, gs, hgs, hcs, -⟩ := exists_fields cs
  rw [hgs, List.mem_cons] at hf
  rw [hcs, List.mem_append, behind, List.mem_flatMap]
  rcases hf with rfl | hf
  · exact .inl hc
  · exact .inr ⟨f, hf, List.mem_cons_of_mem _ hc⟩

/-- A text with a field that is an integer is not blank. -/
theorem Padded.not_blank {cs f lead core trail : List Char} (h : Padded f lead core trail)
    (hf : f ∈ fields cs) : ¬∀ c ∈ cs, Text.isBlank c = true := by
  intro hblank
  obtain ⟨c, hc⟩ := List.exists_mem_of_ne_nil core h.integer.ne_nil
  have hmem : c ∈ f := by
    rw [h.text_eq]
    simp [hc]
  have hn := h.integer.not_blank c hc
  rw [hblank c (mem_of_mem_fields hf hmem)] at hn
  cases hn

/-- A listing that misleads is malformed. -/
theorem Misleads.malformed {text : String} (h : Misleads text.toList) :
    ∃ offset token, parse text = .error (.malformed offset token) := by
  rw [parse_eq_malformed_iff]
  cases h with
  | emptyFirst hfields hp =>
      refine ⟨hp.not_blank (by rw [hfields]; simp), [], by rw [hfields]; simp, ?_⟩
      intro n hn
      obtain ⟨c, hc, -⟩ := hn.exists_not_blank
      cases hc
  | foreignBlank hfields hgood hp hforeign =>
      have hfault := hp.firstAtFault hfields hgood hforeign
      exact ⟨hp.not_blank hfault.mem, _, hfault.mem, fun n hn => hfault.not_fits hn⟩

/-- **The message of a malformed listing is true exactly of the listings that do not mislead**: the
token that it calls no integer is not one. -/
theorem malformed_true_iff (text : String) :
    (∀ offset token, parse text = .error (.malformed offset token) →
      ¬IsInteger token.toList) ↔ ¬Misleads text.toList := by
  constructor
  · intro htrue hm
    obtain ⟨offset, token, hparse⟩ := hm.malformed
    obtain ⟨before, f, after, hrep, htoken⟩ := exists_reported hparse
    refine htrue offset token hparse ?_
    rw [htoken]
    exact (reported_integer_iff hrep).2 hm
  · intro hm offset token hparse hint
    obtain ⟨before, f, after, hrep, htoken⟩ := exists_reported hparse
    rw [htoken] at hint
    exact hm ((reported_integer_iff hrep).1 hint)

/-- **The message is false** of an integer behind a comma at the start, and of an integer behind a
no-break space. -/
theorem malformed_false_of_integers :
    parse ",5" = .error (.malformed 1 "5") ∧ parse "\u00a05" = .error (.malformed 2 "5") ∧
      IsInteger "5".toList := by
  have hdigit : Text.Digits ['5'] := by
    refine ⟨List.cons_ne_nil _ _, ?_⟩
    rw [List.forall_mem_singleton]
    rfl
  exact ⟨by decide +kernel, by decide +kernel, 5, .plain hdigit, by decide⟩

end Listing

end IntcodeMachine

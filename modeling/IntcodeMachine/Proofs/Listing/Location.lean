/-
**Where a malformed listing is reported to be wrong.**

The report of a malformed listing is rebuilt from one length, that of the text left over when
reading stopped.  If a comma is left over first, the field behind it is reported; otherwise reading
stopped within a field, and this one is looked for behind the last comma in front.  Both ways lead
to the beginning of the first field at fault, with one exception: when the listing begins with a
comma, nothing is read, that comma is left over first, and so the second field is reported instead
of the first, which is empty.

Main definitions:

* `Listing.Reported` — the field that is reported;
* `Listing.Stripped` — a field and the text that is left of it without the blanks around;
* `Listing.Locates` — a position and a text are those of the reported field;
* `Listing.CutsSafely` — all the cuts made on the way are possible.

Main results:

* `Listing.fieldStart_of_comma`, `Listing.fieldStart_of_field` — the two ways to the field;
* `Listing.reported_of_stops` — **both lead to the reported field**;
* `Listing.malformed_location` — **the position and the text of a load error are those of the
  reported field**.
-/

import IntcodeMachine.Proofs.Listing.Grammar

set_option relaxedAutoImplicit false
set_option autoImplicit false

namespace IntcodeMachine

namespace Listing

/-! ### The report -/

/-- The field `f` is **reported**, of a listing with the fields `before` in front of it and `after`
behind it: it is the first that holds no cell, but the second of a listing that begins with a
comma. -/
structure Reported (cs : List Char) (before : List (List Char)) (f : List Char)
    (after : List (List Char)) : Prop where
  fields_eq : fields cs = before ++ f :: after
  text_eq : cs = ahead before ++ f ++ behind after
  second : cs.head? = some ',' → before.length = 1
  first : cs.head? ≠ some ',' → (∀ g ∈ before, ∃ a, Holds g a) ∧ ∀ a, ¬Holds f a

/-- The field `f` is **stripped** to `token`: `lead` and `trail` are the blank characters around it.
If the field is blank they all count as leading ones. -/
structure Stripped (f lead token trail : List Char) : Prop where
  text_eq : f = lead ++ token ++ trail
  lead_blank : ∀ c ∈ lead, Text.isBlank c = true
  trail_blank : ∀ c ∈ trail, Text.isBlank c = true
  head_not_blank : ∀ c ∈ token.head?, Text.isBlank c = false
  last_not_blank : ∀ c ∈ token.getLast?, Text.isBlank c = false
  trail_nil : token = [] → trail = []

/-- A position and a text **locate** the reported field: the text is that of the field without the
blank characters around it, and stands at that position. -/
def Locates (cs : List Char) (offset : Nat) (token : List Char) : Prop :=
  ∃ before f after lead trail, Reported cs before f after ∧ Stripped f lead token trail ∧
    offset = Text.byteLength (ahead before ++ lead)

/-- The text is cut at boundaries only, and no length is taken off a smaller one. -/
structure CutsSafely (cs rest : List Char) : Prop where
  rest_le : Text.byteLength rest ≤ Text.byteLength cs
  stoppedAt : Text.IsBoundary cs (stoppedAt cs rest)
  fieldStart : Text.IsBoundary cs (fieldStart cs rest)
  remainder_le : Text.byteLength (remainder cs rest) ≤ Text.byteLength cs

/-! ### Stripping a field -/

theorem trimEnd_append {p : Char → Bool} {front tail : List Char}
    (hf : ∀ c ∈ front.getLast?, p c = false) (ht : ∀ c ∈ tail, p c = true) :
    Text.trimEnd p (front ++ tail) = front := by
  have htail : ∀ c ∈ tail.reverse, p c = true := by simpa using ht
  have hfront : ∀ c ∈ front.reverse.head?, p c = false := by simpa using hf
  rw [Text.trimEnd, List.reverse_append, (span_append htail hfront).2, List.reverse_reverse]

/-- What is left when the characters of a class are taken off the start begins with another. -/
theorem not_of_mem_head?_dropWhile {p : Char → Bool} {cs : List Char} {c : Char}
    (h : c ∈ (cs.dropWhile p).head?) : p c = false := by
  have hn := List.head?_dropWhile_not p cs
  rw [Option.mem_def.1 h] at hn
  exact hn

/-- A text is what is left when the characters of a class are taken off its end, which ends with
another, and those characters. -/
theorem exists_trail (p : Char → Bool) (cs : List Char) :
    ∃ trail, cs = Text.trimEnd p cs ++ trail ∧ (∀ c ∈ trail, p c = true) ∧
      ∀ c ∈ (Text.trimEnd p cs).getLast?, p c = false := by
  -- the end of the text is the start of its reverse
  refine ⟨(cs.reverse.takeWhile p).reverse, ?_, ?_, ?_⟩
  · rw [Text.trimEnd, ← List.reverse_append, List.takeWhile_append_dropWhile, List.reverse_reverse]
  · intro c hc
    exact List.mem_takeWhile_imp (List.mem_reverse.1 hc)
  · intro c hc
    rw [Text.trimEnd, List.getLast?_reverse] at hc
    exact not_of_mem_head?_dropWhile hc

/-- Taking the blank characters off both ends strips a field. -/
theorem exists_stripped (f : List Char) :
    ∃ trail, Stripped f (f.takeWhile Text.isBlank)
      (Text.trimEnd Text.isBlank (f.dropWhile Text.isBlank)) trail := by
  obtain ⟨trail, hg, htrail, hlast⟩ := exists_trail Text.isBlank (f.dropWhile Text.isBlank)
  have hhead : ∀ c ∈ (f.dropWhile Text.isBlank).head?, Text.isBlank c = false :=
    fun c hc => not_of_mem_head?_dropWhile hc
  refine ⟨trail, ?_, ?_, htrail, ?_, hlast, ?_⟩
  · rw [List.append_assoc, ← hg, List.takeWhile_append_dropWhile]
  · intro c hc
    exact List.mem_takeWhile_imp hc
  · intro c hc
    refine hhead c ?_
    rw [hg]
    exact List.mem_head?_append_of_mem_head? hc
  · intro htoken
    rw [htoken, List.nil_append] at hg
    rw [hg] at hhead
    cases trail with
    | nil => rfl
    | cons c cs =>
        have hn := hhead c rfl
        rw [htrail c (by simp)] at hn
        cases hn

/-! ### The way to the field -/

theorem stoppedAt_append (front rest : List Char) :
    stoppedAt (front ++ rest) rest = Text.byteLength front := by
  rw [stoppedAt, Text.byteLength_append]
  omega

/-- The field behind the comma that is left over first. -/
theorem fieldStart_of_comma (front rest : List Char) :
    fieldStart (front ++ ',' :: rest) (',' :: rest) = Text.byteLength (front ++ [',']) := by
  have hcomma : ','.utf8Size = 1 := by decide
  have hhead : (',' :: rest).head? = some ',' := rfl
  rw [fieldStart, if_pos hhead, stoppedAt_append, Text.byteLength_append, Text.byteLength_cons,
    Text.byteLength_nil, hcomma]

/-- The field behind the last comma in front of what is left over. -/
theorem fieldStart_of_field {front done rest : List Char} (hf : ∀ c ∈ front.getLast?, c = ',')
    (hd : ',' ∉ done) (hr : rest.head? ≠ some ',') :
    fieldStart (front ++ done ++ rest) rest = Text.byteLength front := by
  have hlast : ∀ c ∈ front.getLast?, (c != ',') = false := by
    intro c hc
    rw [hf c hc]
    decide
  have hdone : ∀ c ∈ done, (c != ',') = true := by
    intro c hc
    rw [bne_iff_ne]
    rintro rfl
    exact hd hc
  rw [fieldStart, if_neg hr, stoppedAt_append, Text.takeBytes_append, trimEnd_append hlast hdone]

/-- Fields end with a comma, if each has the comma after it. -/
theorem getLast?_ahead (fs : List (List Char)) : ∀ c ∈ (ahead fs).getLast?, c = ',' := by
  induction fs with
  | nil => simp
  | cons f fs ih =>
      intro c hc
      cases hfs : ahead fs with
      | nil => simpa [hfs, eq_comm] using hc
      | cons d ds =>
          refine ih c ?_
          simpa [hfs] using hc

/-- In a listing that begins with a comma, the first field at fault is the empty one in front. -/
theorem FirstAtFault.eq_nil_of_comma {cs f : List Char} {good bad : List (List Char)}
    (h : FirstAtFault (fields cs) good f bad) (hcs : cs.head? = some ',') :
    good = [] ∧ f = [] := by
  obtain ⟨ds, rfl⟩ := List.head?_eq_some_iff.1 hcs
  have he := h.fields_eq
  rw [fields_cons, if_pos rfl] at he
  cases good with
  | nil =>
      injection he with hf
      exact ⟨rfl, hf.symm⟩
  | cons g good =>
      injection he with hg
      subst hg
      obtain ⟨a, ha⟩ := h.holds [] (by simp)
      obtain ⟨c, hc, -⟩ := Denotes.exists_not_blank ha
      cases hc

/-- Unless it is the empty field at the start, the first field at fault is reported. -/
theorem FirstAtFault.reported {cs f : List Char} {good bad : List (List Char)}
    (h : FirstAtFault (fields cs) good f bad) (hne : ¬(good = [] ∧ f = [])) :
    Reported cs good f bad := by
  refine ⟨h.fields_eq, h.text_eq, ?_, ?_⟩
  · intro hcs
    exact absurd (h.eq_nil_of_comma hcs) hne
  · intro _
    exact ⟨h.holds, h.not_holds⟩

/-- **From what is left over, the way leads to the beginning of the reported field.** -/
theorem reported_of_stops {cs f left : List Char} {good bad : List (List Char)}
    (hfault : FirstAtFault (fields cs) good f bad)
    (hstop : Stops (ahead good) f (behind bad) left) (hne : cs ≠ []) :
    ∃ before g after, Reported cs before g after ∧
      fieldStart cs left = Text.byteLength (ahead before) := by
  have hcs := hfault.text_eq
  cases hstop with
  | @atComma earlier hfront =>
      refine ⟨good, f, bad, hfault.reported ?_, ?_⟩
      · rintro ⟨rfl, -⟩
        simp at hfront
      · rw [hcs, hfront, List.append_assoc, List.append_assoc]
        exact fieldStart_of_comma earlier (f ++ behind bad)
  | @inField done left hf hleft =>
      refine ⟨good, f, bad, hfault.reported ?_, ?_⟩
      · rintro ⟨-, rfl⟩
        simp [hleft] at hf
      · have hcomma : ',' ∉ done ++ left := by
          rw [← hf]
          exact notMem_of_mem_fields hfault.mem
        rw [List.mem_append, not_or] at hcomma
        rw [hcs, hf, ← List.append_assoc, List.append_assoc _ left]
        refine fieldStart_of_field (getLast?_ahead good) hcomma.1 ?_
        intro hhead
        cases left with
        | nil => exact hleft rfl
        | cons c cs =>
            cases hhead
            exact hcomma.2 (by simp)
  | atStart hfront hf =>
      rw [hfront, hf] at hcs
      cases bad with
      | nil => exact absurd hcs hne
      | cons g after =>
          -- nothing was read, so that the whole text is left over, the comma at its start included
          have hgood : good = [] := by
            cases good with
            | nil => rfl
            | cons h good => simp at hfront
          have hfields := hfault.fields_eq
          rw [hgood, hf] at hfields
          refine ⟨[[]], g, after, ⟨hfields, by simpa using hcs, by simp, ?_⟩, ?_⟩
          · intro hhead
            simp [hcs] at hhead
          · rw [hcs]
            exact fieldStart_of_comma [] (g ++ behind after)

/-! ### The report is right -/

section Reported

variable {cs rest f : List Char} {before after : List (List Char)}

/-- From the beginning of the reported field on, the text is that field and those behind it. -/
theorem Reported.remainder_eq (h : Reported cs before f after)
    (hs : fieldStart cs rest = Text.byteLength (ahead before)) :
    remainder cs rest = f.dropWhile Text.isBlank ++ behind after := by
  have hcs := h.text_eq
  rw [List.append_assoc] at hcs
  have hcut : Text.dropBytes (fieldStart cs rest) cs = f ++ behind after := by
    rw [hs, hcs]
    exact Text.dropBytes_append _ _
  rw [remainder, hcut]
  exact (closed_behind after).dropWhile_append (by decide) f

/-- The text is cut in two where the reported field begins, the blank characters in front of it
apart. -/
theorem Reported.append_remainder (h : Reported cs before f after)
    (hs : fieldStart cs rest = Text.byteLength (ahead before)) :
    ahead before ++ f.takeWhile Text.isBlank ++ remainder cs rest = cs := by
  have hf := List.takeWhile_append_dropWhile (p := Text.isBlank) (l := f)
  calc ahead before ++ f.takeWhile Text.isBlank ++ remainder cs rest
      = ahead before ++ (f.takeWhile Text.isBlank ++ f.dropWhile Text.isBlank) ++ behind after := by
        rw [h.remainder_eq hs]
        simp only [List.append_assoc]
    _ = ahead before ++ f ++ behind after := by rw [hf]
    _ = cs := h.text_eq.symm

/-- The load error has the position and the text of the reported field. -/
theorem Reported.malformed_eq (h : Reported cs before f after)
    (hs : fieldStart cs rest = Text.byteLength (ahead before)) :
    malformed cs rest =
      .malformed (Text.byteLength (ahead before ++ f.takeWhile Text.isBlank))
        (String.ofList (Text.trimEnd Text.isBlank (f.dropWhile Text.isBlank))) := by
  have hoffset : Text.byteLength cs - Text.byteLength (remainder cs rest) =
      Text.byteLength (ahead before ++ f.takeWhile Text.isBlank) := by
    have hlen := congrArg Text.byteLength (h.append_remainder hs)
    rw [Text.byteLength_append] at hlen
    omega
  have htoken : (remainder cs rest).takeWhile (· != ',') = f.dropWhile Text.isBlank := by
    have hcomma : ',' ∉ f := notMem_of_mem_fields (by rw [h.fields_eq]; simp)
    rw [h.remainder_eq hs, (closed_behind after).takeWhile_append (by decide),
      List.takeWhile_eq_self_iff]
    intro c hc
    rw [bne_iff_ne]
    rintro rfl
    exact hcomma ((List.dropWhile_sublist _).subset hc)
  rw [malformed, hoffset, htoken]

/-- All the cuts on the way to the reported field are possible. -/
theorem Reported.cutsSafely (h : Reported cs before f after)
    (hs : fieldStart cs rest = Text.byteLength (ahead before)) (hrest : rest <:+ cs) :
    CutsSafely cs rest := by
  have hlen := congrArg Text.byteLength (h.append_remainder hs)
  rw [Text.byteLength_append] at hlen
  obtain ⟨done, hdone⟩ := hrest
  refine ⟨?_, ?_, ?_, by omega⟩
  · rw [← hdone, Text.byteLength_append]
    omega
  · rw [← hdone, stoppedAt_append]
    exact ⟨done, rest, rfl, rfl⟩
  · rw [hs]
    exact ⟨ahead before, f ++ behind after, by rw [← List.append_assoc, ← h.text_eq], rfl⟩

end Reported

/-- What is left over is the end of the text. -/
theorem Stops.suffix {front f after left : List Char} (h : Stops front f after left) :
    left <:+ front ++ f ++ after := by
  cases h with
  | @atComma earlier hfront => exact ⟨earlier, by simp [hfront]⟩
  | @inField done left hf hleft => exact ⟨front ++ done, by simp [hf]⟩
  | atStart hfront hf => exact ⟨[], by simp [hfront, hf]⟩

/-- At its position, the text of the reported field stands in the listing. -/
theorem Locates.at_offset {cs token : List Char} {offset : Nat} (h : Locates cs offset token) :
    Text.IsBoundary cs offset ∧ token <+: Text.dropBytes offset cs := by
  obtain ⟨before, f, after, lead, trail, hrep, hstrip, rfl⟩ := h
  have hcs : cs = (ahead before ++ lead) ++ (token ++ (trail ++ behind after)) := by
    rw [hrep.text_eq, hstrip.text_eq]
    simp only [List.append_assoc]
  refine ⟨⟨_, _, hcs, rfl⟩, ?_⟩
  rw [hcs, Text.dropBytes_append]
  exact List.prefix_append _ _

/-- **The position and the text of a load error are those of the reported field**, without the
blank characters around it.  No cut on the way to them fails, the position is a boundary of the
listing, and the text stands there. -/
theorem malformed_location {text : String} {offset : Nat} {token : String}
    (h : parse text = .error (.malformed offset token)) :
    Locates text.toList offset token.toList ∧
    CutsSafely text.toList (cells text.toList).2 ∧
    Text.IsBoundary text.toList offset ∧ offset ≤ Text.byteLength text.toList ∧
    token.toList <+: Text.dropBytes offset text.toList := by
  rcases parse_cases text with
    ⟨-, he⟩ | ⟨-, as, -, hok⟩ | ⟨hn, good, g, bad, hfault, hstop, he⟩
  · rw [he] at h
    cases h
  · rw [hok] at h
    cases h
  · have hne : text.toList ≠ [] := by
      intro hcs
      exact hn (by simp [hcs])
    obtain ⟨before, f, after, hrep, hs⟩ := reported_of_stops hfault hstop hne
    rw [he, hrep.malformed_eq hs] at h
    cases h
    obtain ⟨trail, hstrip⟩ := exists_stripped f
    have hloc : Locates text.toList (Text.byteLength (ahead before ++ f.takeWhile Text.isBlank))
        (String.ofList (Text.trimEnd Text.isBlank (f.dropWhile Text.isBlank))).toList := by
      rw [String.toList_ofList]
      exact ⟨before, f, after, _, trail, hrep, hstrip, rfl⟩
    obtain ⟨hbound, htoken⟩ := hloc.at_offset
    have hsuffix := hstop.suffix
    rw [← hfault.text_eq] at hsuffix
    exact ⟨hloc, hrep.cutsSafely hs hsuffix, hbound, hbound.le_byteLength, htoken⟩

/-- A blank character and a token of more than one byte to a character, behind a good field. -/
theorem malformed_location_wide :
    parse "1,\u3000é2 ,x" = .error (.malformed 5 "é2") ∧
    Locates "1,\u3000é2 ,x".toList 5 "é2".toList ∧
    CutsSafely "1,\u3000é2 ,x".toList (cells "1,\u3000é2 ,x".toList).2 ∧
    Text.IsBoundary "1,\u3000é2 ,x".toList 5 ∧
    5 ≤ Text.byteLength "1,\u3000é2 ,x".toList ∧
    "é2".toList <+: Text.dropBytes 5 "1,\u3000é2 ,x".toList := by
  have h : parse "1,\u3000é2 ,x" = .error (.malformed 5 "é2") := by decide +kernel
  exact ⟨h, malformed_location h⟩

end Listing

end IntcodeMachine

/-
**The grammar of patches.**

A patch is written as an address, an equals sign and a value.  The reader cuts the text at its first
equals sign, whatever follows, takes the blank characters off the ends of both sides, and reads the
one side as an unsigned and the other as a signed integer.  So a plus sign may stand in front of
either number and a minus sign only in front of the value, and each number has its own range.

Blank characters and numerals have no equals sign among them.  A text that is read therefore has one
equals sign only, and a second one, wherever it stands, is left to the value and refused there.

Main definitions:

* `Text.Trims` — a text and what is left of it without the blank characters at its ends;
* `Patch.Writes` — **the texts of a patch**.

Main results:

* `Text.trims_iff` — trimming finds what is left, and nothing else;
* `Patch.sides?_eq_some_iff` — the cut at the first equals sign;
* `Patch.parse_eq_ok_iff` — **a text is read as the patch that it writes**, and as no other;
* `Patch.Writes.count_eq` — the text of a patch has one equals sign;
* `Patch.writes_texts` — the texts of its two numbers, with an equals sign between them and blank
  characters around, write a patch;
* `Patch.accepts_patch_grammar` — all of it together.
-/

import IntcodeMachine.CommandLine.Patch
import IntcodeMachine.Proofs.Listing.Location

set_option relaxedAutoImplicit false
set_option autoImplicit false

namespace IntcodeMachine

/-! ### Trimming -/

namespace Text

/-- A text **trims** to `core`: there are only blank characters around it, and it neither begins nor
ends with one. -/
def Trims (cs core : List Char) : Prop := ∃ lead trail, Listing.Stripped cs lead core trail

/-- Trimming finds what is left of a text without the blank characters at its ends. -/
theorem trims_iff {cs core : List Char} : Trims cs core ↔ trim isBlank cs = core := by
  constructor
  · rintro ⟨lead, trail, h⟩
    have hhead : ∀ c ∈ (core ++ trail).head?, isBlank c = false := by
      intro c hc
      cases core with
      | nil =>
          rw [h.trail_nil rfl] at hc
          cases hc
      | cons d ds => exact h.head_not_blank c hc
    rw [trim, trimStart, h.text_eq, List.append_assoc, (Listing.span_append h.lead_blank hhead).2]
    exact Listing.trimEnd_append h.last_not_blank h.trail_blank
  · rintro rfl
    obtain ⟨trail, h⟩ := Listing.exists_stripped cs
    exact ⟨_, trail, h⟩

/-- No character of a numeral is blank. -/
theorem Signed.not_blank {cs : List Char} {n : Int} (h : Signed cs n) {c : Char} (hc : c ∈ cs) :
    isBlank c = false := by
  rcases h.mem hc with hd | rfl | rfl
  · exact Listing.not_isBlank_of_isDigit hd
  · decide
  · decide

/-- A numeral with blank characters around it trims to the numeral. -/
theorem Signed.trims {lead cs trail : List Char} {n : Int} (h : Signed cs n)
    (hlead : ∀ c ∈ lead, isBlank c = true) (htrail : ∀ c ∈ trail, isBlank c = true) :
    Trims (lead ++ cs ++ trail) cs := by
  refine ⟨lead, trail, rfl, hlead, htrail, ?_, ?_, ?_⟩
  · intro c hc
    exact h.not_blank (List.mem_of_mem_head? hc)
  · intro c hc
    exact h.not_blank (List.mem_of_mem_getLast? hc)
  · intro hnil
    exact absurd hnil h.ne_nil

/-- A text that trims to a numeral has no equals sign, neither in the numeral nor around it. -/
theorem Trims.equals_notMem {cs core : List Char} {n : Int} (h : Trims cs core)
    (hn : Signed core n) : '=' ∉ cs := by
  obtain ⟨lead, trail, h⟩ := h
  have hblank : ¬isBlank '=' = true := by decide
  have hcore : '=' ∉ core := hn.notMem (by decide) (by decide) (by decide)
  intro hm
  rw [h.text_eq, List.mem_append, List.mem_append] at hm
  rcases hm with (hm | hm) | hm
  · exact hblank (h.lead_blank _ hm)
  · exact hcore hm
  · exact hblank (h.trail_blank _ hm)

end Text

namespace Patch

variable {text : String} {q : Patch}

/-! ### The two sides -/

/-- **The cut at the first equals sign.** -/
theorem sides?_eq_some_iff {cs left right : List Char} :
    sides? cs = some (left, right) ↔ cs = left ++ '=' :: right ∧ '=' ∉ left := by
  unfold sides?
  constructor
  · intro h
    split at h
    · cases h
    · next d ds hdrop =>
        cases h
        have hhead : d ∈ (cs.dropWhile (· != '=')).head? := by
          rw [hdrop]
          rfl
        obtain rfl : d = '=' := by simpa using Listing.not_of_mem_head?_dropWhile hhead
        refine ⟨?_, ?_⟩
        · rw [← hdrop, List.takeWhile_append_dropWhile]
        · intro hm
          have hne := List.mem_takeWhile_imp hm
          simp at hne
  · rintro ⟨rfl, hleft⟩
    have hne : ∀ c ∈ left, (c != '=') = true := by
      intro c hc
      rw [bne_iff_ne]
      rintro rfl
      exact hleft hc
    have hhead : ∀ c ∈ ('=' :: right).head?, (c != '=') = false := by
      intro c hc
      cases hc
      rfl
    obtain ⟨htake, hdrop⟩ := Listing.span_append hne hhead
    rw [hdrop, htake]

/-! ### The texts of a patch -/

/-- A text **writes** a patch: what stands before its first equals sign trims to a numeral of the
address, which has 64 bits and no minus sign, and all that follows trims to a numeral of the
value. -/
def Writes (text : String) (q : Patch) : Prop :=
  ∃ left right address value,
    text.toList = left ++ '=' :: right ∧ '=' ∉ left ∧
    Text.Trims left address ∧ Text.Unsigned address q.address ∧
      q.address ≤ 18446744073709551615 ∧
    Text.Trims right value ∧ Text.Signed value q.value.toInt

/-- **A text is read as the patch that it writes**, and as no other. -/
theorem parse_eq_ok_iff : parse text = .ok q ↔ Writes text q := by
  unfold parse
  constructor
  · intro h
    split at h
    · cases h
    · next left right hsides =>
        obtain ⟨htext, hleft⟩ := sides?_eq_some_iff.1 hsides
        dsimp only at h
        split at h
        · cases h
        · next a ha =>
            obtain ⟨hu, hle⟩ := Text.readNat64_eq_ok_iff.1 ha
            split at h
            · cases h
            · next v hv =>
                cases h
                exact ⟨left, right, _, _, htext, hleft, Text.trims_iff.2 rfl, hu, hle,
                  Text.trims_iff.2 rfl, Text.readCell_eq_ok_iff.1 hv⟩
  · rintro ⟨left, right, address, value, htext, hleft, haddress, hu, hle, hvalue, hs⟩
    have hsides := sides?_eq_some_iff.2 ⟨htext, hleft⟩
    have ha := Text.readNat64_eq_ok_iff.2 ⟨hu, hle⟩
    have hv := Text.readCell_eq_ok_iff.2 hs
    rw [← Text.trims_iff.1 haddress] at ha
    rw [← Text.trims_iff.1 hvalue] at hv
    simp only [hsides, ha, hv]

/-- **The text of a patch has one equals sign.** -/
theorem Writes.count_eq (h : Writes text q) : text.toList.count '=' = 1 := by
  obtain ⟨left, right, address, value, htext, hleft, -, -, -, hvalue, hs⟩ := h
  have hright := hvalue.equals_notMem hs
  rw [htext, List.count_append, List.count_cons_self, List.count_eq_zero.2 hleft,
    List.count_eq_zero.2 hright]

/-- A text with a second equals sign is refused. -/
theorem parse_of_two_le_count (h : 2 ≤ text.toList.count '=') : ∃ e, parse text = .error e := by
  cases hp : parse text with
  | error e => exact ⟨e, rfl⟩
  | ok q =>
      have hone := (parse_eq_ok_iff.1 hp).count_eq
      omega

/-- A text of blank characters. -/
def Blank (s : String) : Prop := ∀ c ∈ s.toList, Text.isBlank c = true

/-- **The texts of an address and a value**, with an equals sign between them and blank characters
around each, write the patch. -/
theorem writes_texts {a : Nat} {v : Cell} {w₁ w₂ w₃ w₄ : String} (ha : a ≤ 18446744073709551615)
    (h₁ : Blank w₁) (h₂ : Blank w₂) (h₃ : Blank w₃) (h₄ : Blank w₄) :
    Writes (w₁ ++ toString a ++ w₂ ++ "=" ++ w₃ ++ v.text ++ w₄) ⟨a, v⟩ := by
  have haddress := (Text.Signed.unsigned (Text.unsigned_toString a)).trims h₁ h₂
  have hvalue := (Text.signed_text v).trims h₃ h₄
  have hleft := haddress.equals_notMem (.unsigned (Text.unsigned_toString a))
  refine ⟨_, _, _, _, ?_, hleft, haddress, Text.unsigned_toString a, ha, hvalue,
    Text.signed_text v⟩
  simp [String.toList_append, List.append_assoc]

/-- **A text is read as a patch exactly if it writes one.**  So the texts of an address and a value,
with blank characters around, are read back, and a second equals sign is refused wherever it
stands. -/
theorem accepts_patch_grammar :
    (∀ (text : String) (q : Patch), parse text = .ok q ↔ Writes text q) ∧
    (∀ (a : Nat) (v : Cell) (w₁ w₂ w₃ w₄ : String), a ≤ 18446744073709551615 →
      Blank w₁ → Blank w₂ → Blank w₃ → Blank w₄ →
      parse (w₁ ++ toString a ++ w₂ ++ "=" ++ w₃ ++ v.text ++ w₄) = .ok ⟨a, v⟩) ∧
    (∀ text : String, 2 ≤ text.toList.count '=' → ∃ e, parse text = .error e) := by
  refine ⟨fun text q => parse_eq_ok_iff, ?_, fun text => parse_of_two_le_count⟩
  intro a v w₁ w₂ w₃ w₄ ha h₁ h₂ h₃ h₄
  exact parse_eq_ok_iff.2 (writes_texts ha h₁ h₂ h₃ h₄)

/-- The greatest address, with a sign, a leading zero and an ideographic space in front of it, and
the least value; the same two numbers as they are printed; and a text with two equals signs. -/
theorem accepts_patch_grammar_extremes :
    Writes "\u3000+018446744073709551615\u00a0=\t-9223372036854775808\n"
      ⟨18446744073709551615, -9223372036854775808⟩ ∧
    parse ("\u2028" ++ toString 18446744073709551615 ++ "" ++ "=" ++ " " ++
      Cell.text (-9223372036854775808) ++ "\r\n") =
        .ok ⟨18446744073709551615, -9223372036854775808⟩ ∧
    ∃ e, parse "1=2=3" = .error e := by
  obtain ⟨hiff, hback, htwice⟩ := accepts_patch_grammar
  have hread : parse "\u3000+018446744073709551615\u00a0=\t-9223372036854775808\n" =
      .ok ⟨18446744073709551615, -9223372036854775808⟩ := by decide +kernel
  have hseparator : Blank "\u2028" := by simp [Blank, Text.isBlank, Text.blankRanges]
  have hnone : Blank "" := by simp [Blank]
  have hspace : Blank " " := by simp [Blank, Text.isBlank, Text.blankRanges]
  have hend : Blank "\r\n" := by simp [Blank, Text.isBlank, Text.blankRanges]
  exact ⟨(hiff _ _).1 hread, hback _ _ _ _ _ _ (by omega) hseparator hnone hspace hend,
    htwice _ (by simp)⟩

end Patch

end IntcodeMachine

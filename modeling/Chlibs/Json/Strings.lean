import Chlibs.Json.Printer
import Chlibs.Json.Tokens

/-!
# Strings through the printer and the parser

`escape_string_to_stream` and `_string_from_in_stream_no_trim` have a table of escapes each. The
printer escapes the quote, the parser does not know that escape.

* `escapeString_writes` — the text of a string.
* `IsChars.escapeText`, `IsChars.of_escapeText` — the text of a character, read and inverted.
* `parsesBack_iff` — when the parser undoes the printer.
-/

namespace Chlibs.Chjson

open Infra Util

/-! ## The text of a string -/

/-- The control characters that have a letter. -/
def letteredControls : Bytes := [0x08, 0x0C, 0x0A, 0x0D, 0x09]

/-- Neither printable nor escaped. -/
def isIgnored (c : UInt8) : Bool := c < 0x20 && !letteredControls.contains c

/-- What is written for a character. -/
def escapeText (c : UInt8) : Bytes :=
  if 0x20 ≤ c then if c = 0x22 ∨ c = 0x5C then [0x5C, c] else [c]
  else
    match controlLetter c with
    | some letter => [0x5C, letter]
    | none => []

/-- Characters are signed: what is not a control character. -/
theorem not_control_iff (c : UInt8) : (charVal c < 0 ∨ 0x20 ≤ charVal c) ↔ 0x20 ≤ c := by
  have hcontrol := charVal_control c
  rw [← UInt8.not_lt, ← hcontrol]
  omega

theorem escapeChar_writes (c : UInt8) : Writes (escapeChar stringOutStream c) (escapeText c) := by
  unfold escapeChar escapeText
  by_cases hc : 0x20 ≤ c
  · rw [if_pos ((not_control_iff c).mpr hc), if_pos hc]
    by_cases hescaped : c = 0x22 ∨ c = 0x5C
    · rw [if_pos hescaped, if_pos hescaped]
      exact (Writes.putc 0x5C).andThen (Writes.putc c)
    · rw [if_neg hescaped, if_neg hescaped]
      exact Writes.putc c
  · rw [if_neg ((not_control_iff c).not.mpr hc), if_neg hc]
    cases controlLetter c with
    | some letter => exact (Writes.putc 0x5C).andThen (Writes.putc letter)
    | none => exact Writes.skip

theorem escapeString_writes : ∀ {s : Bytes}, (0 : UInt8) ∉ s →
    Writes (escapeStringToStream stringOutStream s) (s.flatMap escapeText)
  | [], _ => Writes.skip
  | c :: s, h => by
    have hc : c ≠ 0 := fun hc => h (hc ▸ List.mem_cons_self)
    rw [escapeStringToStream, if_neg hc, List.flatMap_cons]
    exact (escapeChar_writes c).andThen
      (escapeString_writes fun hmem => h (List.mem_cons_of_mem _ hmem))

/-! ## The text read back -/

/-- A letter for every control character but those that are ignored, and the parser knows it. -/
theorem controlLetter_cases {c : UInt8} (hc : ¬0x20 ≤ c) :
    (∃ letter, controlLetter c = some letter ∧ (letter, c) ∈ escapes ∧ letter ≠ 0x75 ∧
      isIgnored c = false) ∨ controlLetter c = none ∧ isIgnored c = true := by
  have hlt : c < 0x20 := UInt8.not_le.mp hc
  by_cases hmem : c ∈ letteredControls
  · left
    simp only [letteredControls, List.mem_cons, List.not_mem_nil, or_false] at hmem
    rcases hmem with rfl | rfl | rfl | rfl | rfl <;>
      exact ⟨_, rfl, by decide, by decide, by decide +kernel⟩
  · right
    refine ⟨?_, by simp [isIgnored, hlt, hmem]⟩
    simp only [letteredControls, List.mem_cons, List.not_mem_nil, or_false, not_or] at hmem
    obtain ⟨h1, h2, h3, h4, h5⟩ := hmem
    rw [controlLetter, if_neg h1, if_neg h2, if_neg h3, if_neg h4, if_neg h5]

theorem isIgnored_of_le {c : UInt8} (hc : 0x20 ≤ c) : isIgnored c = false := by
  have hnot : ¬c < 0x20 := UInt8.not_lt.mpr hc
  simp [isIgnored, hnot]

/-- The text of a character other than the quote is read as that character, or as nothing. -/
theorem IsChars.escapeText {c : UInt8} (hquote : c ≠ 0x22) {str s rest : Bytes}
    (h : IsChars str s rest) :
    IsChars ([c].filter (!isIgnored ·) ++ str) (escapeText c ++ s) rest := by
  unfold Chjson.escapeText
  by_cases hc : 0x20 ≤ c
  · rw [if_pos hc, List.filter_cons_of_pos (by simp [isIgnored_of_le hc])]
    by_cases hslash : c = 0x5C
    · subst hslash
      exact .escape (by decide) h
    · rw [if_neg (not_or.mpr ⟨hquote, hslash⟩)]
      exact .plain hc hquote hslash h
  · rw [if_neg hc]
    rcases controlLetter_cases hc with ⟨letter, hletter, hescape, -, hkept⟩ | ⟨hnone, hignored⟩
    · rw [hletter, List.filter_cons_of_pos (by simp [hkept])]
      exact .escape hescape h
    · rw [hnone, List.filter_cons_of_neg (by simp [hignored])]
      exact h

/-- Behind the text of a character there are characters, if there are any in front of it. -/
theorem IsChars.of_escapeText {c : UInt8} (hquote : c ≠ 0x22) {str s rest : Bytes}
    (h : IsChars str (Chjson.escapeText c ++ s) rest) : ∃ str', IsChars str' s rest := by
  -- An escape of one letter is none of four digits.
  have hescape : ∀ letter, letter ≠ 0x75 → IsChars str (0x5C :: letter :: s) rest →
      ∃ str', IsChars str' s rest := by
    intro letter hu h
    cases h with
    | plain _ _ hslash _ => exact absurd rfl hslash
    | escape _ h => exact ⟨_, h⟩
    | unicode _ _ _ => exact absurd rfl hu
  unfold Chjson.escapeText at h
  by_cases hc : 0x20 ≤ c
  · rw [if_pos hc] at h
    by_cases hslash : c = 0x5C
    · subst hslash
      exact hescape 0x5C (by decide) h
    · rw [if_neg (not_or.mpr ⟨hquote, hslash⟩)] at h
      cases h with
      | quote => exact absurd rfl hquote
      | plain _ _ _ h => exact ⟨_, h⟩
      | escape _ _ => exact absurd rfl hslash
      | unicode _ _ _ => exact absurd rfl hslash
  · rw [if_neg hc] at h
    rcases controlLetter_cases hc with ⟨letter, hletter, -, hu, -⟩ | ⟨hnone, -⟩
    · rw [hletter] at h
      exact hescape letter hu h
    · rw [hnone] at h
      exact ⟨_, h⟩

theorem isChars_escapeText : ∀ {s : Bytes}, 0x22 ∉ s → ∀ rest,
    IsChars (s.filter (!isIgnored ·)) (s.flatMap escapeText ++ 0x22 :: rest) rest
  | [], _, _ => .quote
  | c :: s, h, rest => by
    obtain ⟨hc, hs⟩ := not_or.mp (List.mem_cons.not.mp h)
    have hchars := (isChars_escapeText hs rest).escapeText (Ne.symm hc)
    rw [List.flatMap_cons, List.append_assoc, show c :: s = [c] ++ s from rfl, List.filter_append]
    exact hchars

/-- No escape is a backslash and a quote. -/
theorem not_isChars_quote {str s rest : Bytes} : ¬IsChars str (0x5C :: 0x22 :: s) rest := by
  intro h
  cases h with
  | plain _ _ hslash _ => exact hslash rfl
  | escape hmem _ => exact absurd hmem (by simp [escapes])

theorem not_isChars_escapeText : ∀ {s : Bytes}, 0x22 ∈ s → ∀ str rest rest',
    ¬IsChars str (s.flatMap escapeText ++ rest') rest
  | c :: s, h, str, rest, rest' => by
    rw [List.flatMap_cons, List.append_assoc]
    by_cases hc : c = 0x22
    · subst hc
      exact not_isChars_quote
    · intro hchars
      obtain ⟨str', hchars'⟩ := hchars.of_escapeText hc
      have hs : 0x22 ∈ s := (List.mem_cons.mp h).resolve_left (Ne.symm hc)
      exact not_isChars_escapeText hs str' rest rest' hchars'

/-! ## The parser and the printer -/

/-- The text that `escape_string_to_stream` puts on a string stream. -/
def escapeString (s : Bytes) : Bytes :=
  match escapeStringToStream stringOutStream s [] with
  | .ok _ text => text
  | .error _ text => text

theorem escapeString_eq {s : Bytes} (h : (0 : UInt8) ∉ s) :
    escapeString s = s.flatMap escapeText := by
  rw [escapeString, escapeString_writes h []]
  rfl

/--
The printed string between quotes is read to its end, whatever is behind it, and gives the string
without the control characters that are ignored.
-/
def ParsesBack (s : Bytes) : Prop := ∀ rest,
  stringFromInStreamNoTrim [] (0x22 :: (escapeString s ++ 0x22 :: rest))
    = .ok (s.filter (!isIgnored ·)) rest

/-- **The parser undoes the printer if and only if there is no quote in the string.** -/
theorem parsesBack_iff {s : Bytes} (h : (0 : UInt8) ∉ s) : ParsesBack s ↔ (0x22 : UInt8) ∉ s := by
  constructor
  · intro hback hquote
    cases stringFromInStreamNoTrim_eq_ok.mp (hback []) with
    | mk hchars =>
      rw [escapeString_eq h] at hchars
      exact not_isChars_escapeText hquote _ _ _ hchars
  · intro hquote rest
    rw [escapeString_eq h]
    exact stringFromInStreamNoTrim_complete (.mk (isChars_escapeText hquote rest))

/-- A backslash, a byte above 0x7F, a new line and a control character that is ignored. -/
theorem parsesBack_iff_slash : ParsesBack [0x5C, 0xFF, 0x0A, 0x01] ↔
    (0x22 : UInt8) ∉ ([0x5C, 0xFF, 0x0A, 0x01] : Bytes) :=
  parsesBack_iff (by decide)

/-- One quote is printed as `\"`, which is a syntax error. -/
theorem not_parsesBack_quote : escapeString [0x22] = [0x5C, 0x22] ∧ ¬ParsesBack [0x22] := by
  refine ⟨rfl, fun h => ?_⟩
  have hrun := h []
  have herror : stringFromInStreamNoTrim [] (0x22 :: (escapeString [0x22] ++ [0x22]))
      = .error (.state .syntaxError) [0x22] := by rfl
  rw [herror] at hrun
  cases hrun

end Chlibs.Chjson

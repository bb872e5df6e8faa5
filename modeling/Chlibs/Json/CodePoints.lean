import Chlibs.Json.Exact
import Chlibs.Util.Utf8

/-!
# Escapes of code points

A string literal of escapes, in digits of any case, is parsed to the UTF-8 of the code points, and
`unicode_from_utf8` reads them back.

* `Escape` — a code point and the case of each digit.
* `jsonFromInStream_literalOf` — what the parser makes of a literal.
* `unicode_escapes_decode` — what the decoder makes of that.
-/

namespace Chlibs.Chjson

open Infra Util

variable {Num : Type}

/-! ## Literals -/

/-- The digit for a number below 16. -/
def hexDigitOf (upper : Bool) (n : Nat) : UInt8 :=
  if n < 10 then UInt8.ofNat (0x30 + n)
  else if upper then UInt8.ofNat (0x41 + (n - 10))
  else UInt8.ofNat (0x61 + (n - 10))

theorem hexDigitOf_spec : ∀ n < 16, ∀ upper, isHexDigit (hexDigitOf upper n) = true ∧
    (hexDec (hexDigitOf upper n)).toNat = n := by
  decide +kernel

/-- How a code point is written: the letters among the four digits are upper or lower case. -/
structure Escape where
  uc : Unicode
  upper : Fin 4 → Bool

namespace Escape

def digits (e : Escape) : Bytes :=
  [hexDigitOf (e.upper 0) (e.uc.toNat / 4096), hexDigitOf (e.upper 1) (e.uc.toNat / 256 % 16),
    hexDigitOf (e.upper 2) (e.uc.toNat / 16 % 16), hexDigitOf (e.upper 3) (e.uc.toNat % 16)]

/-- A backslash, a `u` and the digits. -/
def text (e : Escape) : Bytes := 0x5C :: 0x75 :: e.digits

theorem isHexDigit_of_mem (e : Escape) : ∀ c ∈ e.digits, isHexDigit c = true := by
  have hlt : e.uc.toNat < 65536 := e.uc.toNat_lt
  intro c hc
  simp only [digits, List.mem_cons, List.not_mem_nil, or_false] at hc
  rcases hc with rfl | rfl | rfl | rfl <;> exact (hexDigitOf_spec _ (by omega) _).1

/-- **The digits are those of the code point.** -/
theorem hexValue_digits (e : Escape) : hexValue e.digits = e.uc.toNat := by
  have hlt : e.uc.toNat < 65536 := e.uc.toNat_lt
  unfold hexValue digits
  simp only [List.foldl_cons, List.foldl_nil]
  rw [(hexDigitOf_spec (e.uc.toNat / 4096) (by omega) _).2,
    (hexDigitOf_spec (e.uc.toNat / 256 % 16) (by omega) _).2,
    (hexDigitOf_spec (e.uc.toNat / 16 % 16) (by omega) _).2,
    (hexDigitOf_spec (e.uc.toNat % 16) (by omega) _).2]
  omega

end Escape

/-- Escapes between quotes. -/
def literalOf (es : List Escape) : Bytes := 0x22 :: (es.flatMap Escape.text ++ [0x22])

/-! ## Parsing -/

theorem isChars_escapes (rest : Bytes) : ∀ es : List Escape,
    IsChars ((es.map Escape.uc).flatMap writtenFor) (es.flatMap Escape.text ++ 0x22 :: rest) rest
  | [] => .quote
  | e :: es => by
    have ih := isChars_escapes rest es
    have hchars := IsChars.unicode (show e.digits.length = 4 from rfl) e.isHexDigit_of_mem ih
    rw [e.hexValue_digits, ← writtenFor_eq] at hchars
    rw [List.map_cons, List.flatMap_cons, List.flatMap_cons, List.append_assoc]
    exact hchars

/-- **The parser makes the UTF-8 of the code points.** -/
theorem jsonFromInStream_literalOf (strtod : Bytes → Num × Nat) (es : List Escape)
    (rest : Bytes) : jsonFromInStream strtod (literalOf es ++ rest)
      = .ok (.string ((es.map Escape.uc).flatMap writtenFor)) rest := by
  rw [jsonFromInStream_eq_ok]
  refine ⟨.string ((es.map Escape.uc).flatMap writtenFor),
    ⟨literalOf es ++ rest, Ws.refl _, .string ?_⟩, by rw [build]⟩
  have hquote : literalOf es ++ rest = 0x22 :: (es.flatMap Escape.text ++ 0x22 :: rest) := by
    simp [literalOf]
  rw [hquote]
  exact .mk (isChars_escapes rest es)

/--
**Escapes decode to text that decodes back.** The calls return the code points in their order, each
consumes what was written for its own, and then the stream is empty.
-/
theorem unicode_escapes_decode (strtod : Bytes → Num × Nat) (es : List Escape) (rest : Bytes) :
    ∃ str, jsonFromInStream strtod (literalOf es ++ rest) = .ok (.string str) rest ∧
      drain nextUnicode (str.length + 1) str
        = some (es.map fun e => (e.uc, writtenFor e.uc), []) := by
  refine ⟨_, jsonFromInStream_literalOf strtod es rest, ?_⟩
  rw [drain_nextUnicode, List.map_map]
  rfl

/-- A letter of each case, and a code point of each length. -/
example : literalOf [⟨0xAB, ![false, false, true, false]⟩, ⟨0x7F, fun _ => false⟩,
    ⟨0xBBBB, fun _ => true⟩] =
  [0x22, 0x5C, 0x75, 0x30, 0x30, 0x41, 0x62, 0x5C, 0x75, 0x30, 0x30, 0x37, 0x66,
    0x5C, 0x75, 0x42, 0x42, 0x42, 0x42, 0x22] := by decide +kernel

end Chlibs.Chjson

import Chlibs.Serial.Construct
import Chlibs.Serial.Decode
import Chlibs.Serial.Equality

/-!
# Round trips

* `constructible_roundtrip` — what the encoder writes for a constructible value is decoded to
  an equal value, in front of any bytes.
* `decodesOnlyEncodings_iff` — the decoder accepts only encodings exactly when no string in
  the buffer is malformed: it copies a string by its length prefix and never looks at its NUL.
-/

namespace Chlibs.Serial

open Infra

/-! ## Decoding undoes encoding -/

/-- **Decode undoes encode**, in front of any rest. -/
theorem constructible_roundtrip {v : ChrpcValue} (hv : Constructible v) {mem mem' : Bytes}
    {buf bufLen w : Nat} (hmem : buf + bufLen ≤ mem.length)
    (hrun : (chrpcValueToBuffer v buf bufLen).run mem = .ok w mem') (rest : Bytes) :
    ∃ v', chrpcValueFromBuffer ((mem'.drop buf).take w ++ rest) = .ok (v', w) ∧
      chrpcValueEquals v v' = .ok true ∧ v'.type = v.type := by
  have hwf := hv.wellFormed
  obtain ⟨hlen, rfl, rfl⟩ := (chrpcValueToBuffer_fills hwf buf bufLen).eq_ok hmem hrun
  refine ⟨v, ?_, chrpcValueEquals_self hwf, rfl⟩
  rw [read_overwrite (by omega)]
  exact chrpcValueFromBuffer_write hwf.dom rest

/-- The struct `{"ab"; [1, 2] : i16[]}`, written into the middle of a block and read back. -/
theorem constructible_roundtrip_struct :
    ∃ v', chrpcValueFromBuffer ([10, 2, 9, 11, 1, 3, 0, 0, 0, 97, 98, 0, 2, 0, 0, 0, 1, 0, 2, 0]
        ++ [7, 7]) = .ok (v', 20) ∧
      chrpcValueEquals
        ⟨.struct [.prim .string, .array (.prim .int16)],
          .entries [.str [97, 98, 0], .numArr [1, 0, 2, 0] 2]⟩ v' = .ok true ∧
      v'.type = .struct [.prim .string, .array (.prim .int16)] := by
  have hstr : Constructible (newChrpcStrValue ⟨[97, 98], by decide⟩) :=
    .str _ (by decide)
  have harr : Constructible (newChrpcI16ArrayValue [1, 2]) :=
    .numericArray (p := .int16) (by decide) [1, 2] (by decide)
  have hfields : ∀ f ∈ [newChrpcStrValue ⟨[97, 98], by decide⟩, newChrpcI16ArrayValue [1, 2]],
      Constructible f := by simpa using ⟨hstr, harr⟩
  have hv : Constructible ⟨.struct [.prim .string, .array (.prim .int16)],
      .entries [.str [97, 98, 0], .numArr [1, 0, 2, 0] 2]⟩ := .struct hfields rfl
  have hroom : 3 + 25 ≤ (List.replicate 30 (0 : UInt8)).length := by decide
  exact constructible_roundtrip hv hroom rfl [7, 7]

/-! ## What the decoder accepts -/

/--
The decoder accepts `b` only if it is an encoding: an accepted value is well formed, and
encoding it writes exactly the bytes that were read.
-/
def DecodesOnlyEncodings (b : Bytes) : Prop :=
  ∀ v r, chrpcValueFromBuffer b = .ok (v, r) →
    v.WellFormed ∧ ∀ (mem : Bytes) (buf bufLen : Nat), buf + bufLen ≤ mem.length → r ≤ bufLen →
      (chrpcValueToBuffer v buf bufLen).run mem = .ok r (overwrite mem buf (b.take r))

/--
`b` begins with a type and the grammar's layout for it in which some string block does not
hold exactly one NUL as its last byte. The empty block is one of these.
-/
def BeginsWithMalformedString (b : Bytes) : Prop :=
  ∃ (t : ChrpcType) (iv : InnerValue) (rest : Bytes), t.WellFormed ∧ iv.Sized t ∧
    b = t.bytes ++ (valueCodec t).write iv ++ rest ∧ ∃ s ∈ iv.stringBlocks, ¬TerminatedOnce s

/-- A string of length 0 is accepted, and it is the null pointer. -/
theorem not_decodesOnlyEncodings_emptyString : ¬DecodesOnlyEncodings [9, 0, 0, 0, 0] := by
  intro h
  obtain ⟨hwf, -⟩ := h ⟨.prim .string, .str []⟩ 5 rfl
  exact (hwf.value.strings [] (by simp [InnerValue.stringBlocks])).ne_nil rfl

/-- **The decoder accepts only encodings, except where a string is malformed.** -/
theorem decodesOnlyEncodings_iff (b : Bytes) :
    DecodesOnlyEncodings b ↔ ¬BeginsWithMalformedString b := by
  constructor
  · rintro h ⟨t, iv, rest, ht, hiv, rfl, s, hs, hbad⟩
    have hdom := (chrpcValueCodec_dom ⟨t, iv⟩).mpr ⟨ht, hiv⟩
    obtain ⟨hwf, -⟩ := h ⟨t, iv⟩ _ (chrpcValueFromBuffer_write hdom rest)
    exact hbad (hwf.value.strings s hs)
  · intro h v r hdec
    obtain ⟨hdom, rfl, hread⟩ := chrpcValueFromBuffer_eq_ok hdec
    obtain ⟨ht, hsized⟩ := (chrpcValueCodec_dom v).mp hdom
    have hb : b = chrpcValueCodec.write v ++ b.drop _ := (chrpcValueCodec.write_read hread).2
    have hwf : v.WellFormed := by
      refine ⟨ht, hsized, fun s hs => ?_⟩
      by_contra hbad
      exact h ⟨v.type, v.value, _, ht, hsized, hb, s, hs, hbad⟩
    refine ⟨hwf, fun mem buf bufLen hmem hr => ?_⟩
    have htake : b.take (chrpcValueCodec.write v).length = chrpcValueCodec.write v := by
      rw [hb, List.take_left]
    rw [htake]
    exact (chrpcValueToBuffer_fills hwf buf bufLen).fits mem hmem hr

end Chlibs.Serial

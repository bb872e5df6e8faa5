import Chlibs.Serial.Decode
import Chlibs.Serial.Encode
import Chlibs.Serial.TypeRoundtrip

/-!
# Encodings that are cut off

A proper prefix of an encoding is refused with `CHRPC_UNEXPECTED_END`, wherever it ends. What
the decoder deletes then are whole values of the encoding, so the failure is always defined.

* `chrpcValueFromBuffer_truncated` — the statement for `chrpc_value_from_buffer`.
-/

namespace Chlibs.Serial

open Infra

/-! ## What was read before the end -/

/-- The strings in the cells in front of the place where the cells are cut off. -/
theorem reachedCells_subset {α : Type} {c : Codec α} {strs : α → List Bytes}
    {reached : Bytes → List Bytes} {q : Bytes}
    (h : ∀ a b r, c.dom a → c.write a = b ++ r → reached b ⊆ strs a) :
    ∀ (as : List α) (b : Bytes), (∀ a ∈ as, c.dom a) → as.flatMap c.write = b ++ q →
      reachedCells c strs reached as.length b ⊆ as.flatMap strs
  | [], _, _, _ => by simp [reachedCells]
  | a :: as, b, hdom, hb => by
    have ha := hdom a List.mem_cons_self
    rw [List.flatMap_cons] at hb ⊢
    rw [List.length_cons, reachedCells]
    cases hread : c.read b with
    | some x =>
      obtain ⟨a', rest⟩ := x
      obtain ⟨ha', rfl⟩ := c.write_read hread
      rw [List.append_assoc] at hb
      obtain ⟨rfl, hrest⟩ := c.write_append_inj ha ha' hb
      have ih := reachedCells_subset h as rest (fun x hx => hdom x (List.mem_cons_of_mem _ hx))
        hrest
      exact List.append_subset.mpr ⟨List.subset_append_left _ _,
        List.subset_append_of_subset_right _ ih⟩
    | none =>
      rcases append_cut hb with ⟨r, -, hcut⟩ | ⟨r, rfl, -⟩
      · exact List.subset_append_of_subset_left _ (h a b r ha hcut)
      · -- A whole cell would have been read.
        rw [c.read_write ha] at hread
        cases hread

/-- The strings in the fields in front of the place where a struct is cut off. -/
theorem reachedFields_subset {q : Bytes} : ∀ (ts : List ChrpcType) (ivs : List InnerValue)
    (b : Bytes), (∀ t ∈ ts, ∀ iv b r, (valueCodec t).dom iv → (valueCodec t).write iv = b ++ r →
      reachedStrings t b ⊆ iv.scalarStrings) →
    (fieldsCodec ts).dom ivs → (fieldsCodec ts).write ivs = b ++ q →
    reachedFields ts b ⊆ InnerValue.allScalarStrings ivs
  | [], _, _, _, _, _ => by simp [reachedFields]
  | _ :: _, [], _, _, hdom, _ => hdom.elim
  | t :: ts, iv :: ivs, b, h, hdom, hb => by
    obtain ⟨ha, hrest⟩ := hdom
    rw [fieldsCodec, Codec.cons] at hb
    simp only at hb
    rw [reachedFields, InnerValue.allScalarStrings]
    cases hread : (valueCodec t).read b with
    | some x =>
      obtain ⟨iv', rest⟩ := x
      obtain ⟨ha', rfl⟩ := (valueCodec t).write_read hread
      rw [List.append_assoc] at hb
      obtain ⟨rfl, hcut⟩ := (valueCodec t).write_append_inj ha ha' hb
      have ih := reachedFields_subset ts ivs rest (fun x hx => h x (List.mem_cons_of_mem _ hx))
        hrest hcut
      exact List.append_subset.mpr ⟨List.subset_append_left _ _,
        List.subset_append_of_subset_right _ ih⟩
    | none =>
      rcases append_cut hb with ⟨r, -, hcut⟩ | ⟨r, rfl, -⟩
      · exact List.subset_append_of_subset_left _ (h t List.mem_cons_self iv b r ha hcut)
      · rw [(valueCodec t).read_write ha] at hread
        cases hread

/-- **The strings that are deleted when a value is cut off are its own.** -/
theorem reachedStrings_subset (t : ChrpcType) : ∀ (iv : InnerValue) (b q : Bytes),
    (valueCodec t).dom iv → (valueCodec t).write iv = b ++ q →
    reachedStrings t b ⊆ iv.scalarStrings := by
  induction t using ChrpcType.induct with
  | prim p => simp [reachedStrings]
  | array cell ih =>
    intro iv b q hdom hb
    rw [reachedStrings]
    by_cases hcomp : cell.IsComposite
    · have hsized : iv.SizedArray (InnerValue.Sized cell) cell := by
        simpa [InnerValue.Sized] using (valueCodec_dom _ iv).mp hdom
      obtain ⟨ivs, rfl, hlen, hcells⟩ := (InnerValue.sizedArray_composite hcomp iv).mp hsized
      rw [valueCodec, arrayCodec_composite _ hcomp, cellsCodec_write] at hb
      rw [if_pos hcomp]
      cases hread : Codec.len32.read b with
      | none => simp
      | some x =>
        obtain ⟨n, rest⟩ := x
        obtain ⟨hn, rfl⟩ := Codec.len32.write_read hread
        rw [List.append_assoc] at hb
        obtain ⟨rfl, hrest⟩ := Codec.len32.write_append_inj hlen hn hb
        simp only [InnerValue.scalarStrings, allScalarStrings_eq]
        exact reachedCells_subset ih ivs rest
          (fun x hx => (valueCodec_dom cell x).mpr (hcells x hx)) hrest
    · simp [hcomp]
  | struct fields ih =>
    intro iv b q hdom hb
    obtain ⟨ivs, rfl, hfields⟩ := InnerValue.sized_struct_iff.mp ((valueCodec_dom _ iv).mp hdom)
    rw [reachedStrings, InnerValue.scalarStrings]
    have hdom' := (fieldsCodec_dom fields ivs fun t _ => valueCodec_dom t).mpr hfields
    exact reachedFields_subset fields ivs b ih hdom' (by simpa [valueCodec, Codec.embed] using hb)

/-! ## Values -/

/--
`chrpc_value_from_buffer` with what its two out parameters hold, `none` for a variable that was
not written yet. `none` where the call is undefined.
-/
def chrpcValueFromBufferInto (v : Option ChrpcValue) (readden : Option Nat) (buf : Bytes) :
    Option (ChrpcStatus × Option ChrpcValue × Option Nat) :=
  match chrpcTypeFromBuffer buf with
  | .error .fault => none
  | .error (.status st) => some (st, v, readden)
  | .ok (ct, typeReadden) =>
    match advance buf typeReadden >>= chrpcInnerValueFromBuffer ct with
    | .error .fault => none
    | .error (.status st) => some (st, v, readden)
    | .ok (iv, valReadden) => some (chrpcSuccess, some ⟨ct, iv⟩, some (typeReadden + valReadden))

/-- The out parameters are written by a call that succeeds, and only then. -/
theorem chrpcValueFromBufferInto_eq (v : Option ChrpcValue) (readden : Option Nat) (buf : Bytes) :
    chrpcValueFromBufferInto v readden buf =
      match chrpcValueFromBuffer buf with
      | .error .fault => none
      | .error (.status st) => some (st, v, readden)
      | .ok (v, readden) => some (chrpcSuccess, some v, some readden) := by
  rw [chrpcValueFromBufferInto, chrpcValueFromBuffer]
  cases chrpcTypeFromBuffer buf with
  | error e => cases e <;> rfl
  | ok x =>
    simp only [Bind.bind, Except.bind]
    cases advance buf x.2 with
    | error e => cases e <;> rfl
    | ok rest =>
      simp only
      cases chrpcInnerValueFromBuffer x.1 rest with
      | error e => cases e <;> rfl
      | ok y => rfl

/-- A proper prefix of an encoding ends unexpectedly. -/
theorem chrpcValueFromBuffer_cut {v : ChrpcValue} (hv : v.WellFormed) {p q : Bytes} (hq : q ≠ [])
    (hp : chrpcValueCodec.write v = p ++ q) :
    chrpcValueFromBuffer p = .error (.status chrpcUnexpectedEnd) := by
  rw [chrpcValueCodec_write] at hp
  rcases append_cut hp with ⟨r, hr, htype⟩ | ⟨rest, rfl, hvalue⟩
  · rw [chrpcValueFromBuffer, chrpcTypeFromBuffer_cut hv.type hr htype]
    rfl
  · have hdom := (valueCodec_dom v.type v.value).mpr hv.value.sized
    have hread : typeCodec.read (v.type.bytes ++ rest) = some (v.type, rest) :=
      typeCodec.read_write hv.type rest
    rw [chrpcValueFromBuffer_value_none hread ((valueCodec v.type).read_eq_none hdom hvalue hq)]
    refine abandon_of (fun s hs => ?_) _
    have hscalar := reachedStrings_subset v.type v.value rest q hdom hvalue hs
    exact (hv.value.strings s (scalarStrings_subset _ hscalar)).mem

/-- **Every truncation is detected**, and nothing is written through the out parameters. -/
theorem chrpcValueFromBuffer_truncated {v : ChrpcValue} (hv : v.WellFormed) {p q : Bytes}
    (hq : q ≠ []) (he : EncodesTo v (p ++ q)) (out : Option ChrpcValue) (readden : Option Nat) :
    chrpcValueFromBufferInto out readden p = some (chrpcUnexpectedEnd, out, readden) := by
  have hp := ((encodesTo_iff hv _).mp he).symm
  rw [chrpcValueFromBufferInto_eq, chrpcValueFromBuffer_cut hv hq hp]

/-- The string array `["a"]` without its last byte. -/
theorem chrpcValueFromBuffer_truncated_strArr :
    chrpcValueFromBufferInto none none [11, 9, 1, 0, 0, 0, 2, 0, 0, 0, 97]
      = some (chrpcUnexpectedEnd, none, none) := by
  have hwf : (⟨.array (.prim .string), .strArr [[97, 0]]⟩ : ChrpcValue).WellFormed := by
    refine ⟨trivial, ⟨by decide, by simp⟩, ?_⟩
    intro s hs
    obtain rfl := List.mem_singleton.mp hs
    exact ⟨[97], by decide, rfl⟩
  exact chrpcValueFromBuffer_truncated hwf (q := [0]) (by simp)
    ((encodesTo_iff hwf _).mpr rfl) none none

end Chlibs.Serial

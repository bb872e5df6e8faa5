import Chlibs.Serial.TypeCodec

/-!
# Round trips of types

`chrpcTypeToBuffer` and `chrpcTypeFromBuffer` are inverse to each other, between well-formed
type trees and the byte strings that the decoder accepts.

* `typeCodec_bijection` — both directions, and what follows for comparing and copying.
* `chrpcTypeFromBuffer_cut` — a type that is cut off ends unexpectedly.
-/

namespace Chlibs.Serial

open Infra

/-! ## Encodings -/

/-- `chrpc_type_to_buffer` writes `e` for this type wherever `e` fits, and nothing else. -/
def TypeEncodesTo (t : ChrpcType) (e : Bytes) : Prop :=
  ∀ buf n, Fills chrpcBufferTooSmall (chrpcTypeToBuffer t buf n) buf n e e.length

/-- There is one encoding: the byte form. -/
theorem typeEncodesTo_iff (t : ChrpcType) (e : Bytes) : TypeEncodesTo t e ↔ e = t.bytes := by
  constructor
  · intro h
    exact Fills.unique (h 0) (chrpcTypeToBuffer_fills t 0)
  · rintro rfl
    exact chrpcTypeToBuffer_fills t

mutual
theorem newChrpcTypeCopy_eq : ∀ t : ChrpcType, newChrpcTypeCopy t = t
  | .prim _ => rfl
  | .array cell => by rw [newChrpcTypeCopy, newChrpcTypeCopy_eq cell]
  | .struct fields => by rw [newChrpcTypeCopy, newChrpcTypeCopies_eq fields]
theorem newChrpcTypeCopies_eq : ∀ ts : List ChrpcType, newChrpcTypeCopies ts = ts
  | [] => rfl
  | t :: ts => by rw [newChrpcTypeCopies, newChrpcTypeCopy_eq t, newChrpcTypeCopies_eq ts]
end

/--
**The type codec is a bijection** between well-formed types and the byte strings the decoder
accepts. Types are equal when their encodings are, and a copy has the same encoding.
-/
theorem typeCodec_bijection :
    (∀ t : ChrpcType, t.WellFormed → ∃ e, TypeEncodesTo t e ∧ ∀ tail, ∃ t',
      chrpcTypeFromBuffer (e ++ tail) = .ok (t', e.length) ∧ chrpcTypeEquals t t' = true) ∧
    (∀ (b : Bytes) (t : ChrpcType) (r : Nat), chrpcTypeFromBuffer b = .ok (t, r) →
      t.WellFormed ∧ r ≤ b.length ∧ TypeEncodesTo t (b.take r)) ∧
    (∀ (t u : ChrpcType) (e f : Bytes), t.WellFormed → u.WellFormed → TypeEncodesTo t e →
      TypeEncodesTo u f → (chrpcTypeEquals t u = true ↔ e = f)) ∧
    ∀ (t : ChrpcType) (e : Bytes), TypeEncodesTo t e → TypeEncodesTo (newChrpcTypeCopy t) e := by
  refine ⟨fun t ht => ?_, fun b t r h => ?_, fun t u e f ht hu he hf => ?_, fun t e h => ?_⟩
  · refine ⟨t.bytes, (typeEncodesTo_iff t _).mpr rfl, fun tail => ⟨t, ?_, by simp⟩⟩
    exact typeCodec_read_eq_some (typeCodec.read_write ht tail)
  · obtain ⟨rfl, hread⟩ := chrpcTypeFromBuffer_eq_ok h
    obtain ⟨hwf, hb⟩ := typeCodec.write_read hread
    have hlen := typeCodec.read_length hread
    have hbytes : b.take t.bytes.length = t.bytes := by
      rw [hb]
      exact List.take_left
    exact ⟨hwf, by rw [hlen]; exact Nat.le_add_right _ _, (typeEncodesTo_iff t _).mpr hbytes⟩
  · rw [typeEncodesTo_iff] at he hf
    subst he hf
    rw [chrpcTypeEquals_iff]
    constructor
    · rintro rfl
      rfl
    · intro hbytes
      -- The encodings are uniquely readable, so equal ones are read back as one type.
      exact typeCodec.write_inj ht hu hbytes
  · rwa [newChrpcTypeCopy_eq]

/-- The type `{str; i32[]}` is encoded, read back in front of other bytes, and copied. -/
theorem typeCodec_bijection_struct :
    (∃ t', chrpcTypeFromBuffer ([10, 2, 9, 11, 2] ++ [7]) = .ok (t', 5) ∧
      chrpcTypeEquals (.struct [.prim .string, .array (.prim .int32)]) t' = true) ∧
    TypeEncodesTo (.struct [.prim .string, .array (.prim .int32)]) [10, 2, 9, 11, 2] ∧
    (chrpcTypeEquals (.prim .byte) (.array (.prim .byte)) = true ↔ ([0] : Bytes) = [11, 0]) ∧
    TypeEncodesTo (newChrpcTypeCopy (.array (.prim .byte))) [11, 0] := by
  obtain ⟨hread, hwrite, hequal, hcopy⟩ := typeCodec_bijection
  have hstruct : TypeEncodesTo (.struct [.prim .string, .array (.prim .int32)]) [10, 2, 9, 11, 2] :=
    (hwrite [10, 2, 9, 11, 2] _ 5 rfl).2.2
  have hbyte : TypeEncodesTo (.prim .byte) [0] := (hwrite [0] _ 1 rfl).2.2
  have harray : TypeEncodesTo (.array (.prim .byte)) [11, 0] := (hwrite [11, 0] _ 2 rfl).2.2
  refine ⟨?_, hstruct, hequal _ _ _ _ trivial trivial hbyte harray, hcopy _ _ harray⟩
  obtain ⟨e, he, hback⟩ := hread (.struct [.prim .string, .array (.prim .int32)])
    ⟨by decide, by decide, trivial, trivial, trivial⟩
  obtain rfl := (typeEncodesTo_iff _ e).mp he
  exact hback [7]

/-! ## Types that are cut off -/

/-- The loop comes to the field that is cut off. -/
theorem chrpcFieldTypesFromBuffer_cut (rec : Bytes → SRes (ChrpcType × Nat)) (buf : Bytes)
    {q : Bytes} (hq : q ≠ []) : ∀ (ts : List ChrpcType) (pos : Nat), 0 < pos → pos ≤ buf.length →
    (∀ t ∈ ts, t.bytes.length ≤ buf.length → ∀ rest,
      rec (t.bytes ++ rest) = .ok (t, t.bytes.length)) →
    (∀ t ∈ ts, ∀ p r, p.length < buf.length → r ≠ [] → t.bytes = p ++ r →
      rec p = .error (.status chrpcUnexpectedEnd)) →
    ChrpcType.fieldBytes ts = buf.drop pos ++ q →
    chrpcFieldTypesFromBuffer rec buf ts.length pos = .error (.status chrpcUnexpectedEnd)
  | [], pos, _, _, _, _, hbuf => by
    have hnil := congrArg List.length hbuf
    simp only [ChrpcType.fieldBytes, List.length_nil, List.length_append] at hnil
    exact absurd (List.length_eq_zero_iff.mp (by omega)) hq
  | t :: ts, pos, hpos0, hpos, hok, hcut, hbuf => by
    rw [List.length_cons, chrpcFieldTypesFromBuffer, advance_of_le hpos]
    rcases append_cut hbuf with ⟨r, hr, ht⟩ | ⟨rest, hdrop, hrest⟩
    · have hlen : (buf.drop pos).length < buf.length := by simp; omega
      simp only [Bind.bind, Except.bind, hcut t List.mem_cons_self _ r hlen hr ht]
    · have hlen : buf.length - pos = t.bytes.length + rest.length := by
        rw [← List.length_drop, hdrop, List.length_append]
      have hnext : buf.drop (pos + t.bytes.length) = rest := by
        rw [← List.drop_drop, hdrop, List.drop_left]
      have ih := chrpcFieldTypesFromBuffer_cut rec buf hq ts (pos + t.bytes.length) (by omega) (by omega)
        (fun x hx => hok x (List.mem_cons_of_mem _ hx))
        (fun x hx => hcut x (List.mem_cons_of_mem _ hx)) (by rw [hnext, hrest])
      simp only [Bind.bind, Except.bind, hdrop, hok t List.mem_cons_self (by omega) rest, ih]

theorem chrpcTypeFromBufferDepth_cut (t : ChrpcType) (hwf : t.WellFormed) :
    ∀ (depth : Nat) (p q : Bytes), p.length < depth → q ≠ [] → t.bytes = p ++ q →
      chrpcTypeFromBufferDepth depth p = .error (.status chrpcUnexpectedEnd) := by
  induction t using ChrpcType.induct with
  | prim prim =>
    intro depth p q hd hq hp
    rcases p with _ | ⟨b, p⟩
    · obtain ⟨d, rfl⟩ : ∃ d, depth = d + 1 := ⟨depth - 1, by simp at hd; omega⟩
      rfl
    · -- A primitive type is one byte, so nothing is cut off.
      have hlen := congrArg List.length hp
      simp only [ChrpcType.bytes, List.length_cons, List.length_append, List.length_nil] at hlen
      exact absurd (List.length_eq_zero_iff.mp (by omega)) hq
  | array cell ih =>
    intro depth p q hd hq hp
    obtain ⟨d, rfl⟩ : ∃ d, depth = d + 1 := ⟨depth - 1, by omega⟩
    rcases p with _ | ⟨b, p⟩
    · rfl
    · simp only [ChrpcType.bytes, List.cons_append, List.cons.injEq] at hp
      obtain ⟨rfl, hp⟩ := hp
      have hrec := ih (by simpa [ChrpcType.WellFormed] using hwf) d p q (by simpa using hd) hq hp
      simp [chrpcTypeFromBufferDepth, hrec, Bind.bind, Except.bind,
        show newChrpcPrimitiveTypeFromId chrpcArrayTid = none from rfl]
  | struct fields ih =>
    intro depth p q hd hq hp
    obtain ⟨d, rfl⟩ : ∃ d, depth = d + 1 := ⟨depth - 1, by omega⟩
    obtain ⟨hmin, hmax, hall⟩ := by simpa [ChrpcType.WellFormed] using hwf
    have hnum := toNat_ofNat_numFields hmax
    have hwfs := (ChrpcType.allWellFormed_iff fields).mp hall
    rcases p with _ | ⟨b, _ | ⟨c, p⟩⟩
    · rfl
    · simp only [ChrpcType.bytes, List.cons_append, List.nil_append, List.cons.injEq] at hp
      obtain ⟨rfl, -⟩ := hp
      simp [chrpcTypeFromBufferDepth, show ¬chrpcStructTid = chrpcArrayTid by decide,
        show newChrpcPrimitiveTypeFromId chrpcStructTid = none from rfl]
    · simp only [ChrpcType.bytes, List.cons_append, List.cons.injEq] at hp
      obtain ⟨rfl, rfl, hp⟩ := hp
      simp only [List.length_cons] at hd
      have hloop := chrpcFieldTypesFromBuffer_cut (chrpcTypeFromBufferDepth d)
        (chrpcStructTid :: UInt8.ofNat fields.length :: p) hq fields 2 (by omega) (by simp)
        (fun t ht hlen => chrpcTypeFromBufferDepth_append t (hwfs t ht) d (by simp at hlen; omega))
        (fun t ht p' r hlen => ih t ht (hwfs t ht) d p' r (by simp at hlen; omega))
        (by simpa using hp)
      simp only [chrpcTypeFromBufferDepth,
        show newChrpcPrimitiveTypeFromId chrpcStructTid = none from rfl,
        show ¬chrpcStructTid = chrpcArrayTid by decide, reduceIte, hnum,
        show ¬fields.length < 1 by omega, show ¬chrpcMaxStructFields < fields.length by omega,
        hloop, Bind.bind, Except.bind]

/-- **A type that is cut off ends unexpectedly.** -/
theorem chrpcTypeFromBuffer_cut {t : ChrpcType} (hwf : t.WellFormed) {p q : Bytes} (hq : q ≠ [])
    (hp : t.bytes = p ++ q) : chrpcTypeFromBuffer p = .error (.status chrpcUnexpectedEnd) :=
  chrpcTypeFromBufferDepth_cut t hwf _ p q (Nat.lt_succ_self _) hq hp

end Chlibs.Serial

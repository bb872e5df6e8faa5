import Chlibs.Serial.ValueCodec

/-!
# The encoder writes the grammar

On a well-formed value `chrpcValueToBuffer` writes exactly the bytes of `chrpcValueCodec`
when they fit, and reports `CHRPC_BUFFER_TOO_SMALL` when they do not.
-/

namespace Chlibs.Serial

open Infra

/-! ## Blocks -/

/-- The block view of a terminated string is the whole string. -/
theorem chrpcInnerValueToBlockValue_str {block : Bytes} (hlen : block.length < 2 ^ 32)
    (h : TerminatedOnce block) :
    chrpcInnerValueToBlockValue (.prim .string) (.str block)
      = .ok ⟨block, 1, block.length⟩ := by
  have hpos : 0 < block.length := List.length_pos_of_ne_nil h.ne_nil
  have hnum : (block.length - 1 + 1) % 2 ^ 32 = block.length := by
    rw [Nat.sub_add_cancel hpos, Nat.mod_eq_of_lt hlen]
  simp only [chrpcInnerValueToBlockValue, h.strlen, hnum]

theorem readBlock_all (block : Bytes) : readBlock block block.length = .ok block := by
  simp [readBlock]

/-- A whole block behind its number of cells. -/
theorem chrpcBlockValueToBuffer_fills_lenPrefix {block : Bytes} {cellSize numCells : Nat}
    (h : numCells * cellSize = block.length) (buf n : Nat) :
    Fills chrpcBufferTooSmall (chrpcBlockValueToBuffer ⟨block, cellSize, numCells⟩ true buf n)
      buf n (le32 numCells ++ block) (le32 numCells ++ block).length := by
  rw [chrpcBlockValueToBuffer, if_pos rfl, h, readBlock_all, liftRes_ok]
  refine Fills.failIf (by simp; omega) fun hn => ?_
  refine Fills.bind (Fills.store (by simp; omega)) fun _ => ?_
  refine Fills.failIf (by simp; omega) fun hfit => ?_
  rw [List.length_append, le32_length]
  have hroom : block.length ≤ n - 4 := by omega
  exact (Fills.store hroom).map fun _ => 4 + block.length

/-- A whole block. -/
theorem chrpcBlockValueToBuffer_fills {block : Bytes} {cellSize numCells : Nat}
    (h : numCells * cellSize = block.length) (buf n : Nat) :
    Fills chrpcBufferTooSmall (chrpcBlockValueToBuffer ⟨block, cellSize, numCells⟩ false buf n)
      buf n block block.length := by
  rw [chrpcBlockValueToBuffer, if_neg Bool.false_ne_true, h, readBlock_all, liftRes_ok]
  refine Fills.failIf (by omega) fun hn => ?_
  have hroom : block.length ≤ n := by omega
  exact (Fills.store hroom).map fun _ => block.length

/-! ## Loops -/

/-- The strings of an array, each behind its length. -/
theorem chrpcStringsToBuffer_fills (buf n : Nat) : ∀ (strs : List Bytes) (w : Nat), w ≤ n →
    (∀ str ∈ strs, str.length < 2 ^ 32 ∧ TerminatedOnce str) →
    Fills chrpcBufferTooSmall (chrpcStringsToBuffer buf n strs w) (buf + w) (n - w)
      (strs.flatMap Codec.block.write) (w + (strs.flatMap Codec.block.write).length)
  | [], w, _, _ => Fills.pure w
  | str :: strs, w, hw, h => by
    obtain ⟨hlen, hterm⟩ := h str List.mem_cons_self
    rw [chrpcStringsToBuffer, chrpcInnerValueToBlockValue_str hlen hterm, liftRes_ok, pure_bind,
      remaining_of_le hw, pure_bind, List.flatMap_cons]
    have hblock : Fills chrpcBufferTooSmall (chrpcBlockValueToBuffer ⟨str, 1, str.length⟩ true
        (buf + w) (n - w)) (buf + w) (n - w) (Codec.block.write str)
        (Codec.block.write str).length :=
      chrpcBlockValueToBuffer_fills_lenPrefix (by simp) (buf + w) (n - w)
    refine Fills.bind hblock fun hfit => ?_
    have ih := chrpcStringsToBuffer_fills buf n strs (w + (Codec.block.write str).length)
      (by omega) (fun x hx => h x (List.mem_cons_of_mem _ hx))
    rw [List.length_append]
    simpa only [Nat.add_assoc, Nat.sub_sub] using ih

/-- **The encoder fits exactly on this value**: it writes what the grammar does. -/
def FitsExactly (t : ChrpcType) (iv : InnerValue) : Prop :=
  ∀ buf n, Fills chrpcBufferTooSmall (chrpcInnerValueToBuffer t iv buf n) buf n
    ((valueCodec t).write iv) ((valueCodec t).write iv).length

/-- The cells of a composite array. -/
theorem chrpcCellsToBuffer_fills {cell : ChrpcType} (buf n : Nat) : ∀ (ivs : List InnerValue)
    (w : Nat), w ≤ n → (∀ iv ∈ ivs, FitsExactly cell iv) →
    Fills chrpcBufferTooSmall (chrpcCellsToBuffer (chrpcInnerValueToBuffer cell) buf n ivs w)
      (buf + w) (n - w) (ivs.flatMap (valueCodec cell).write)
      (w + (ivs.flatMap (valueCodec cell).write).length)
  | [], w, _, _ => Fills.pure w
  | iv :: ivs, w, hw, h => by
    rw [chrpcCellsToBuffer, remaining_of_le hw, pure_bind, List.flatMap_cons]
    refine Fills.bind (h iv List.mem_cons_self _ _) fun hfit => ?_
    have ih := chrpcCellsToBuffer_fills buf n ivs (w + ((valueCodec cell).write iv).length)
      (by omega) (fun x hx => h x (List.mem_cons_of_mem _ hx))
    rw [List.length_append]
    simpa only [Nat.add_assoc, Nat.sub_sub] using ih

/-- The fields of a struct. -/
theorem chrpcFieldsToBuffer_fills (buf n : Nat) {ts : List ChrpcType} {ivs : List InnerValue}
    (h : List.Forall₂ FitsExactly ts ivs) : ∀ w, w ≤ n →
    Fills chrpcBufferTooSmall (chrpcFieldsToBuffer ts ivs buf n w) (buf + w) (n - w)
      ((fieldsCodec ts).write ivs) (w + ((fieldsCodec ts).write ivs).length) := by
  induction h with
  | nil =>
    intro w _
    exact Fills.pure w
  | @cons t iv ts ivs hiv _ ih =>
    intro w hw
    rw [chrpcFieldsToBuffer, remaining_of_le hw, pure_bind]
    refine Fills.bind (hiv _ _) fun hfit => ?_
    have hrest := ih (w + ((valueCodec t).write iv).length) (by omega)
    simp only [fieldsCodec, Codec.cons, List.length_append]
    simpa only [Nat.add_assoc, Nat.sub_sub] using hrest

/-! ## Values -/

theorem chrpcInnerValueToBlockValue_num {p : PrimType} (hp : p ≠ .string) (cell : Bytes) :
    chrpcInnerValueToBlockValue (.prim p) (.num cell) = .ok ⟨cell, p.size, 1⟩ := by
  cases p <;> first | rfl | exact absurd rfl hp

theorem chrpcInnerValueToBlockValue_numArr {p : PrimType} (hp : p ≠ .string) (block : Bytes)
    (arrayLen : Nat) :
    chrpcInnerValueToBlockValue (.array (.prim p)) (.numArr block arrayLen)
      = .ok ⟨block, p.size, arrayLen⟩ := by
  cases p <;> first | rfl | exact absurd rfl hp

theorem fitsExactly_str {block : Bytes} (hlen : block.length < 2 ^ 32) (h : TerminatedOnce block) :
    FitsExactly (.prim .string) (.str block) := by
  intro buf n
  rw [chrpcInnerValueToBuffer, chrpcBlockableToBuffer, chrpcInnerValueToBlockValue_str hlen h,
    liftRes_ok, pure_bind, valueCodec]
  exact chrpcBlockValueToBuffer_fills_lenPrefix (by simp) buf n

theorem fitsExactly_num {p : PrimType} (hp : p ≠ .string) {cell : Bytes}
    (h : cell.length = p.size) : FitsExactly (.prim p) (.num cell) := by
  intro buf n
  rw [chrpcInnerValueToBuffer, chrpcBlockableToBuffer, chrpcInnerValueToBlockValue_num hp,
    liftRes_ok, pure_bind, hasLenPrefix_numeric hp, valueCodec, primCodec_write_num hp]
  exact chrpcBlockValueToBuffer_fills (by omega) buf n

/-- The length itself needs no bound here: both sides write its low 32 bits. -/
theorem fitsExactly_numArr {p : PrimType} (hp : p ≠ .string) {block : Bytes} {arrayLen : Nat}
    (h : block.length = p.size * arrayLen) :
    FitsExactly (.array (.prim p)) (.numArr block arrayLen) := by
  intro buf n
  simp only [chrpcInnerValueToBuffer, chrpcTypeIsBlockable_numArr hp, if_true,
    chrpcBlockableToBuffer, chrpcInnerValueToBlockValue_numArr hp, liftRes_ok, pure_bind,
    valueCodec, arrayCodec_numeric _ hp, numArrCodec_write]
  exact chrpcBlockValueToBuffer_fills_lenPrefix (by rw [h, Nat.mul_comm]) buf n

theorem fitsExactly_strArr {strs : List Bytes}
    (h : ∀ str ∈ strs, str.length < 2 ^ 32 ∧ TerminatedOnce str) :
    FitsExactly (.array (.prim .string)) (.strArr strs) := by
  intro buf n
  simp only [chrpcInnerValueToBuffer, chrpcTypeIsBlockable, isStringType, bne_self_eq_false,
    Bool.false_eq_true, if_false, if_true, valueCodec, arrayCodec_string, strArrCodec_write]
  refine Fills.failIf (by simp; omega) fun hn => ?_
  refine Fills.bind (Fills.store (by simp; omega)) fun hfit => ?_
  rw [List.length_append]
  exact chrpcStringsToBuffer_fills buf n strs 4 (by omega) h

theorem fitsExactly_cells {cell : ChrpcType} (hcomp : cell.IsComposite) {ivs : List InnerValue}
    (h : ∀ iv ∈ ivs, FitsExactly cell iv) : FitsExactly (.array cell) (.entries ivs) := by
  intro buf n
  simp only [chrpcInnerValueToBuffer, hcomp.isBlockable, hcomp.isStringType, Bool.false_eq_true,
    if_false, valueCodec, arrayCodec_composite _ hcomp, cellsCodec_write]
  refine Fills.failIf (by simp; omega) fun hn => ?_
  refine Fills.bind (Fills.store (by simp; omega)) fun hfit => ?_
  rw [List.length_append]
  exact chrpcCellsToBuffer_fills buf n ivs 4 (by omega) h

theorem fitsExactly_struct {ts : List ChrpcType} {ivs : List InnerValue}
    (h : List.Forall₂ FitsExactly ts ivs) : FitsExactly (.struct ts) (.entries ivs) := by
  intro buf n
  have hloop := chrpcFieldsToBuffer_fills buf n h 0 (Nat.zero_le n)
  simpa [chrpcInnerValueToBuffer, valueCodec, Codec.embed] using hloop

/-- Fields that are well formed fit when each field that is well formed does. -/
theorem fitsExactly_fields : ∀ (ts : List ChrpcType) (ivs : List InnerValue),
    InnerValue.AllWellFormed ts ivs →
    (∀ t ∈ ts, ∀ iv : InnerValue, iv.WellFormed t → FitsExactly t iv) →
    List.Forall₂ FitsExactly ts ivs
  | [], [], _, _ => .nil
  | t :: ts, iv :: ivs, hwf, h =>
    .cons (h t List.mem_cons_self iv hwf.head)
      (fitsExactly_fields ts ivs hwf.tail fun x hx => h x (List.mem_cons_of_mem _ hx))
  | [], _ :: _, hwf, _ => absurd hwf.1 (by simp [InnerValue.AllSized])
  | _ :: _, [], hwf, _ => absurd hwf.1 (by simp [InnerValue.AllSized])

/-- **The encoder fits exactly on well-formed values.** -/
theorem InnerValue.WellFormed.fitsExactly (t : ChrpcType) : ∀ iv : InnerValue, iv.WellFormed t →
    FitsExactly t iv := by
  induction t using ChrpcType.induct with
  | prim p =>
    intro iv h
    by_cases hp : p = .string
    · subst hp
      obtain ⟨block, rfl, hlen⟩ := InnerValue.sized_string_iff.mp h.sized
      exact fitsExactly_str hlen (h.strings block (by simp [InnerValue.stringBlocks]))
    · obtain ⟨cell, rfl, hlen⟩ := (InnerValue.sized_numeric_iff hp).mp h.sized
      exact fitsExactly_num hp hlen
  | array cell ih =>
    intro iv h
    have hsized : iv.SizedArray (InnerValue.Sized cell) cell := by
      simpa [InnerValue.Sized] using h.sized
    rcases cell.cell_cases with ⟨p, hp, rfl⟩ | rfl | hcomp
    · obtain ⟨block, arrayLen, rfl, -, hlen⟩ := (InnerValue.sizedArray_numeric hp iv).mp hsized
      exact fitsExactly_numArr hp hlen
    · obtain ⟨strs, rfl, -, hlens⟩ := (InnerValue.sizedArray_string iv).mp hsized
      exact fitsExactly_strArr fun str hs => ⟨hlens str hs, h.strings str hs⟩
    · obtain ⟨ivs, rfl, -, -⟩ := (InnerValue.sizedArray_composite hcomp iv).mp hsized
      exact fitsExactly_cells hcomp fun iv hiv => ih iv (h.cell iv hiv)
  | struct fields ih =>
    intro iv h
    obtain ⟨ivs, rfl, -⟩ := InnerValue.sized_struct_iff.mp h.sized
    exact fitsExactly_struct
      (fitsExactly_fields fields ivs (InnerValue.wellFormed_struct_iff.mp h) ih)

/-- Writing a value is writing its type and then its inner value. -/
theorem FitsExactly.value {v : ChrpcValue} (h : FitsExactly v.type v.value) (buf n : Nat) :
    Fills chrpcBufferTooSmall (chrpcValueToBuffer v buf n) buf n (chrpcValueCodec.write v)
      (chrpcValueCodec.write v).length := by
  rw [chrpcValueToBuffer, chrpcValueCodec_write, List.length_append]
  refine Fills.bind (chrpcTypeToBuffer_fills v.type buf n) fun hfit => ?_
  rw [remaining_of_le hfit, pure_bind]
  exact (h _ _).map fun w => v.type.bytes.length + w

/-- **`chrpc_value_to_buffer` fits exactly.** -/
theorem chrpcValueToBuffer_fills {v : ChrpcValue} (h : v.WellFormed) (buf n : Nat) :
    Fills chrpcBufferTooSmall (chrpcValueToBuffer v buf n) buf n (chrpcValueCodec.write v)
      (chrpcValueCodec.write v).length :=
  (InnerValue.WellFormed.fitsExactly v.type v.value h.value).value buf n

/-- `chrpc_value_to_buffer` writes `e` for this value wherever `e` fits, and nothing else. -/
def EncodesTo (v : ChrpcValue) (e : Bytes) : Prop :=
  ∀ buf n, Fills chrpcBufferTooSmall (chrpcValueToBuffer v buf n) buf n e e.length

/-- A well-formed value has one encoding: the grammar's. -/
theorem encodesTo_iff {v : ChrpcValue} (h : v.WellFormed) (e : Bytes) :
    EncodesTo v e ↔ e = chrpcValueCodec.write v := by
  constructor
  · intro he
    exact Fills.unique (he 0) (chrpcValueToBuffer_fills h 0)
  · rintro rfl
    exact chrpcValueToBuffer_fills h

/-- An optional value behind the number of its bytes. `NULL` has none. -/
def lengthPrefixed : Option ChrpcValue → Bytes
  | none => le32 0
  | some v => le32 (chrpcValueCodec.write v).length ++ chrpcValueCodec.write v

/-- **`chrpc_value_to_buffer_with_length` fits exactly.** -/
theorem chrpcValueToBufferWithLength_fills {v : Option ChrpcValue} (h : ∀ x ∈ v, x.WellFormed)
    (buf n : Nat) :
    Fills chrpcBufferTooSmall (chrpcValueToBufferWithLength v buf n) buf n (lengthPrefixed v)
      (lengthPrefixed v).length := by
  cases v with
  | none =>
    refine Fills.failIf (by simp [lengthPrefixed]) fun hn => ?_
    have hroom : (le32 0).length ≤ n := by rw [le32_length]; omega
    exact (Fills.store hroom).map fun _ => 4
  | some v =>
    have hv := chrpcValueToBuffer_fills (h v rfl) (buf + 4) (n - 4)
    refine Fills.failIf (by simp [lengthPrefixed]; omega) fun hn => ?_
    simp only [remaining_of_le (show 4 ≤ n by omega), pure_bind, lengthPrefixed,
      List.length_append, le32_length]
    exact hv.header le32 (fun w => 4 + w) (by omega) (le32_length _)

/-! ## Exact fit -/

/--
The call succeeds exactly when the buffer has room for `e`. Then it counts the bytes of `e` and
has changed those of the buffer to `e`, and no others. Otherwise it reports that the buffer is
too small and has changed nothing outside of it. Either way it is defined, so that no length
that is left went below zero.
-/
def ExactFit (call : SWriter Nat) (buf n : Nat) (e : Bytes) : Prop :=
  ∀ mem : Bytes, buf + n ≤ mem.length →
    ((∃ w mem', call.run mem = .ok w mem') ↔ e.length ≤ n) ∧
    (∀ w mem', call.run mem = .ok w mem' →
      w = e.length ∧ (mem'.drop buf).take w = e ∧ SameOutside buf w mem mem') ∧
    (n < e.length → ∃ mem', call.run mem = .error (.status chrpcBufferTooSmall) mem' ∧
      SameOutside buf n mem mem')

theorem exactFit_of_fills {call : SWriter Nat} {buf n : Nat} {e : Bytes}
    (h : Fills chrpcBufferTooSmall call buf n e e.length) : ExactFit call buf n e := by
  intro mem hmem
  refine ⟨⟨?_, fun hfit => ⟨_, _, h.fits mem hmem hfit⟩⟩, ?_, fun hlong => h.short mem hmem hlong⟩
  · rintro ⟨w, mem', hrun⟩
    exact (h.eq_ok hmem hrun).1
  · intro w mem' hrun
    obtain ⟨hfit, rfl, rfl⟩ := h.eq_ok hmem hrun
    exact ⟨rfl, read_overwrite (by omega), SameOutside.overwrite (by omega) (Nat.le_refl _)⟩

/--
**The encoder fits exactly**, with the length in front as without it. The length is the number
of bytes that follow, 0 for `NULL`.
-/
theorem chrpcValueToBuffer_exactFit {v : ChrpcValue} (hv : v.WellFormed)
    (hlen : (chrpcValueCodec.write v).length < 2 ^ 32) (buf n : Nat) :
    ExactFit (chrpcValueToBuffer v buf n) buf n (chrpcValueCodec.write v) ∧
    (∃ len, len.length = 4 ∧ leNat len = (chrpcValueCodec.write v).length ∧
      ExactFit (chrpcValueToBufferWithLength (some v) buf n) buf n
        (len ++ chrpcValueCodec.write v)) ∧
    ExactFit (chrpcValueToBufferWithLength none buf n) buf n [0, 0, 0, 0] := by
  refine ⟨exactFit_of_fills (chrpcValueToBuffer_fills hv buf n), ?_, ?_⟩
  · refine ⟨le32 (chrpcValueCodec.write v).length, le32_length _, leNat_le32 hlen, ?_⟩
    exact exactFit_of_fills (chrpcValueToBufferWithLength_fills (by simpa using hv) buf n)
  · exact exactFit_of_fills (chrpcValueToBufferWithLength_fills (by simp) buf n)

/-- A struct of a string and two numbers fits its own length, and with the length in front of it
four bytes more, which three are not. -/
theorem chrpcValueToBuffer_exactFit_struct :
    ∃ v e, v = ⟨.struct [.prim .string, .array (.prim .int16)],
        .entries [.str [97, 98, 0], .numArr [1, 0, 2, 0] 2]⟩ ∧
      e = [10, 2, 9, 11, 1, 3, 0, 0, 0, 97, 98, 0, 2, 0, 0, 0, 1, 0, 2, 0] ∧
      ExactFit (chrpcValueToBuffer v 3 20) 3 20 e ∧
      ExactFit (chrpcValueToBufferWithLength (some v) 3 24) 3 24 ([20, 0, 0, 0] ++ e) ∧
      ExactFit (chrpcValueToBufferWithLength (some v) 3 23) 3 23 ([20, 0, 0, 0] ++ e) := by
  refine ⟨_, _, rfl, rfl, ?_⟩
  have hwf : (⟨.struct [.prim .string, .array (.prim .int16)],
      .entries [.str [97, 98, 0], .numArr [1, 0, 2, 0] 2]⟩ : ChrpcValue).WellFormed := by
    refine ⟨⟨by decide, by decide, trivial, trivial, trivial⟩, ⟨?_, ?_⟩, ?_⟩
    · exact (by decide : [97, 98, 0].length < 2 ^ 32)
    · exact ⟨⟨by decide, by decide, rfl⟩, trivial⟩
    · intro s hs
      obtain rfl := List.mem_singleton.mp hs
      exact ⟨[97, 98], by decide, rfl⟩
  have hbytes : ∀ len : Bytes, len.length = 4 → leNat len = 20 → len = [20, 0, 0, 0] := by
    intro len hlen hnat
    rw [← le32_leNat hlen, hnat]
    rfl
  obtain ⟨len, hlen, hnat, hroom⟩ := (chrpcValueToBuffer_exactFit hwf (by decide) 3 24).2.1
  obtain ⟨len', hlen', hnat', hshort⟩ := (chrpcValueToBuffer_exactFit hwf (by decide) 3 23).2.1
  rw [hbytes len hlen hnat] at hroom
  rw [hbytes len' hlen' hnat'] at hshort
  exact ⟨(chrpcValueToBuffer_exactFit hwf (by decide) 3 20).1, hroom, hshort⟩

end Chlibs.Serial

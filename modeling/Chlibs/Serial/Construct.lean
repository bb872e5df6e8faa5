import Chlibs.Serial.Value

/-!
# Constructing values

The public constructors of `serial_value.h`. The varargs variants collect their arguments
and call these.

An array argument is the list of its cells. Numbers and floats are given by their bits,
and a C string by its characters (`CString`).
-/

namespace Chlibs.Serial

open Infra

/-! ## Numbers -/

/-- A numeric value: its object representation, low byte first. -/
def newNumericValue (p : PrimType) (n : BitVec (8 * p.size)) : ChrpcValue :=
  ⟨.prim p, .num (leBytes p.size n.toNat)⟩

/-- A numeric array: one block for all cells. -/
def newNumericArrayValue (p : PrimType) (cells : List (BitVec (8 * p.size))) : ChrpcValue :=
  ⟨.array (.prim p), .numArr (cells.flatMap fun n => leBytes p.size n.toNat) cells.length⟩

def newChrpcB8Value (b8Val : BitVec 8) : ChrpcValue := newNumericValue .byte b8Val
def newChrpcB8ArrayValue (b8ArrayVal : List (BitVec 8)) : ChrpcValue :=
  newNumericArrayValue .byte b8ArrayVal
def newChrpcI16Value (i16Val : BitVec 16) : ChrpcValue := newNumericValue .int16 i16Val
def newChrpcI16ArrayValue (i16ArrayVal : List (BitVec 16)) : ChrpcValue :=
  newNumericArrayValue .int16 i16ArrayVal
def newChrpcI32Value (i32Val : BitVec 32) : ChrpcValue := newNumericValue .int32 i32Val
def newChrpcI32ArrayValue (i32ArrayVal : List (BitVec 32)) : ChrpcValue :=
  newNumericArrayValue .int32 i32ArrayVal
def newChrpcI64Value (i64Val : BitVec 64) : ChrpcValue := newNumericValue .int64 i64Val
def newChrpcI64ArrayValue (i64ArrayVal : List (BitVec 64)) : ChrpcValue :=
  newNumericArrayValue .int64 i64ArrayVal
def newChrpcU16Value (u16Val : BitVec 16) : ChrpcValue := newNumericValue .uint16 u16Val
def newChrpcU16ArrayValue (u16ArrayVal : List (BitVec 16)) : ChrpcValue :=
  newNumericArrayValue .uint16 u16ArrayVal
def newChrpcU32Value (u32Val : BitVec 32) : ChrpcValue := newNumericValue .uint32 u32Val
def newChrpcU32ArrayValue (u32ArrayVal : List (BitVec 32)) : ChrpcValue :=
  newNumericArrayValue .uint32 u32ArrayVal
def newChrpcU64Value (u64Val : BitVec 64) : ChrpcValue := newNumericValue .uint64 u64Val
def newChrpcU64ArrayValue (u64ArrayVal : List (BitVec 64)) : ChrpcValue :=
  newNumericArrayValue .uint64 u64ArrayVal
def newChrpcF32Value (f32Val : BitVec 32) : ChrpcValue := newNumericValue .float32 f32Val
def newChrpcF32ArrayValue (f32ArrayVal : List (BitVec 32)) : ChrpcValue :=
  newNumericArrayValue .float32 f32ArrayVal
def newChrpcF64Value (f64Val : BitVec 64) : ChrpcValue := newNumericValue .float64 f64Val
def newChrpcF64ArrayValue (f64ArrayVal : List (BitVec 64)) : ChrpcValue :=
  newNumericArrayValue .float64 f64ArrayVal

/-! ## Strings -/

/-- A C string: characters none of which is NUL. -/
structure CString where
  chars : Bytes
  noNul : (0 : UInt8) ∉ chars

/-- The block of a C string. -/
def CString.block (s : CString) : Bytes := s.chars ++ [0]

theorem CString.terminatedOnce (s : CString) : TerminatedOnce s.block := ⟨s.chars, s.noNul, rfl⟩

def newChrpcStrValue (strVal : CString) : ChrpcValue := ⟨.prim .string, .str strVal.block⟩

def newChrpcStrArrayValue (strArrayVal : List CString) : ChrpcValue :=
  ⟨.array (.prim .string), .strArr (strArrayVal.map CString.block)⟩

/-! ## Composites -/

/-- `NULL` unless the cell type is an array or a struct. -/
def newChrpcCompositeEmptyArrayValue (t : ChrpcType) : Option ChrpcValue :=
  if t.IsComposite then some ⟨.array t, .entries []⟩ else none

/-- `NULL` unless there are entries, all of one composite type. -/
def newChrpcCompositeNemptyArrayValue : List ChrpcValue → Option ChrpcValue
  | [] => none
  | entry :: entries =>
    if ¬entry.type.IsComposite then none
    else if ¬(∀ e ∈ entries, chrpcTypeEquals entry.type e.type = true) then none
    else some ⟨.array entry.type, .entries ((entry :: entries).map ChrpcValue.value)⟩

/-- `NULL` unless there are 1 to 64 fields. -/
def newChrpcStructValue (structFields : List ChrpcValue) : Option ChrpcValue :=
  if structFields.length < 1 ∨ chrpcMaxStructFields < structFields.length then none
  else some ⟨.struct (structFields.map ChrpcValue.type),
    .entries (structFields.map ChrpcValue.value)⟩

/-! ## Constructible values -/

/-- The values that the public constructors build. -/
inductive Constructible : ChrpcValue → Prop
  | numeric {p : PrimType} (hp : p ≠ .string) (n : BitVec (8 * p.size)) :
      Constructible (newNumericValue p n)
  | numericArray {p : PrimType} (hp : p ≠ .string) (cells : List (BitVec (8 * p.size)))
      (hlen : cells.length < 2 ^ 32) : Constructible (newNumericArrayValue p cells)
  | str (s : CString) (hlen : s.chars.length < 2 ^ 32 - 1) : Constructible (newChrpcStrValue s)
  | strArray (strs : List CString) (hlen : strs.length < 2 ^ 32)
      (hlens : ∀ s ∈ strs, s.chars.length < 2 ^ 32 - 1) :
      Constructible (newChrpcStrArrayValue strs)
  | emptyArray {t : ChrpcType} {v : ChrpcValue} (ht : t.WellFormed)
      (h : newChrpcCompositeEmptyArrayValue t = some v) : Constructible v
  | nemptyArray {entries : List ChrpcValue} {v : ChrpcValue} (hlen : entries.length < 2 ^ 32)
      (hentries : ∀ e ∈ entries, Constructible e)
      (h : newChrpcCompositeNemptyArrayValue entries = some v) : Constructible v
  | struct {fields : List ChrpcValue} {v : ChrpcValue}
      (hfields : ∀ f ∈ fields, Constructible f)
      (h : newChrpcStructValue fields = some v) : Constructible v

theorem leBytes_flatMap_length {w : Nat} (k : Nat) (cells : List (BitVec w)) :
    (cells.flatMap fun n => leBytes k n.toNat).length = k * cells.length := by
  induction cells with
  | nil => simp
  | cons n cells ih =>
    rw [List.flatMap_cons, List.length_append, ih, leBytes_length, List.length_cons,
      Nat.mul_succ, Nat.add_comm]

theorem CString.block_length {s : CString} (h : s.chars.length < 2 ^ 32 - 1) :
    s.block.length < 2 ^ 32 := by
  simp only [CString.block, List.length_append, List.length_singleton]
  omega

/-- The inner value of a struct, when each of its fields is well formed. -/
theorem wellFormed_fields : ∀ (fields : List ChrpcValue), (∀ f ∈ fields, f.WellFormed) →
    InnerValue.AllWellFormed (fields.map ChrpcValue.type) (fields.map ChrpcValue.value)
  | [], _ => ⟨trivial, by simp [InnerValue.allStringBlocks]⟩
  | f :: fields, h => by
    have hf := h f List.mem_cons_self
    obtain ⟨hsized, hstr⟩ := wellFormed_fields fields fun x hx => h x (List.mem_cons_of_mem _ hx)
    refine ⟨⟨hf.value.sized, hsized⟩, fun s hs => ?_⟩
    rcases List.mem_append.mp hs with hs | hs
    · exact hf.value.strings s hs
    · exact hstr s hs

/-- **The public constructors build well-formed values only.** -/
theorem Constructible.wellFormed {v : ChrpcValue} (hv : Constructible v) : v.WellFormed := by
  induction hv with
  | @numeric p hp n =>
    refine ⟨trivial, (InnerValue.sized_numeric_iff hp).mpr ⟨_, rfl, leBytes_length _ _⟩, ?_⟩
    simp [newNumericValue, InnerValue.stringBlocks]
  | @numericArray p hp cells hlen =>
    refine ⟨trivial, ?_, by simp [newNumericArrayValue, InnerValue.stringBlocks]⟩
    exact (InnerValue.sizedArray_numeric hp _).mpr
      ⟨_, _, rfl, hlen, leBytes_flatMap_length p.size cells⟩
  | str s hlen =>
    refine ⟨trivial, InnerValue.sized_string_iff.mpr ⟨_, rfl, CString.block_length hlen⟩, ?_⟩
    simpa [newChrpcStrValue, InnerValue.stringBlocks] using s.terminatedOnce
  | strArray strs hlen hlens =>
    refine ⟨trivial, ?_, ?_⟩
    · refine (InnerValue.sizedArray_string _).mpr ⟨_, rfl, by simpa using hlen, fun b hb => ?_⟩
      obtain ⟨s, hs, rfl⟩ := List.mem_map.mp hb
      exact CString.block_length (hlens s hs)
    · intro b hb
      obtain ⟨s, -, rfl⟩ := List.mem_map.mp hb
      exact s.terminatedOnce
  | @emptyArray t v ht h =>
    unfold newChrpcCompositeEmptyArrayValue at h
    split at h
    · next hcomp =>
      cases h
      refine ⟨ht, ?_, by simp [InnerValue.stringBlocks, InnerValue.allStringBlocks]⟩
      exact (InnerValue.sizedArray_composite hcomp _).mpr ⟨[], rfl, by simp, by simp⟩
    · simp at h
  | @nemptyArray entries v hlen hentries h ih =>
    unfold newChrpcCompositeNemptyArrayValue at h
    split at h
    · simp at h
    · next entry entries =>
      split at h
      · simp at h
      · next hcomp =>
        split at h
        · simp at h
        · next hsame =>
          cases h
          -- The constructor compares the type of each entry with that of the first.
          have htypes : ∀ e ∈ entry :: entries, e.type = entry.type := by
            intro e he
            rcases List.mem_cons.mp he with rfl | he
            · rfl
            · exact ((chrpcTypeEquals_iff _ _).mp (not_not.mp hsame e he)).symm
          have hcell : ∀ a ∈ (entry :: entries).map ChrpcValue.value,
              a.WellFormed entry.type := by
            intro a ha
            obtain ⟨e, he, rfl⟩ := List.mem_map.mp ha
            exact htypes e he ▸ (ih e he).value
          refine ⟨(ih entry List.mem_cons_self).type, ?_, fun s hs => ?_⟩
          · exact (InnerValue.sizedArray_composite (not_not.mp hcomp) _).mpr
              ⟨_, rfl, by simpa using hlen, fun a ha => (hcell a ha).sized⟩
          · obtain ⟨a, ha, hs⟩ := InnerValue.mem_allStringBlocks.mp hs
            exact (hcell a ha).strings s hs
  | @struct fields v hfields h ih =>
    unfold newChrpcStructValue at h
    split at h
    · simp at h
    · next hnum =>
      cases h
      obtain ⟨hsized, hstr⟩ := wellFormed_fields fields ih
      refine ⟨?_, hsized, hstr⟩
      refine ⟨?_, ?_, (ChrpcType.allWellFormed_iff _).mpr ?_⟩
      · simp; omega
      · simp; omega
      · intro t ht
        obtain ⟨f, hf, rfl⟩ := List.mem_map.mp ht
        exact (ih f hf).type

end Chlibs.Serial

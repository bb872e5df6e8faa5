import Chlibs.Serial.TypeCodec

/-!
# Serial values

`chrpc_inner_value_t` and the functions of `serial_value.c` that look into one: the block
view, deletion, comparison, and the public constructors.

The C union is untagged and is read as the type tree says. `InnerValue` is tagged, and
reading it through the wrong member is undefined (`fault`). Numbers are kept as their
object representation on a little-endian machine.
-/

namespace Chlibs.Serial

open Infra

/-! ## Values -/

/-- `chrpc_inner_value_t`. A pointer with its `array_len` is the list of its cells. -/
inductive InnerValue where
  /-- `b8`, `i16`, …, `f64` -/
  | num (cell : Bytes)
  /-- `str` -/
  | str (block : Bytes)
  /-- `b8_arr`, `i16_arr`, …, `f64_arr` -/
  | numArr (block : Bytes) (arrayLen : Nat)
  /-- `str_arr` -/
  | strArr (blocks : List Bytes)
  /-- `struct_entries`, `array_entries` -/
  | entries (ivs : List InnerValue)

/-- `chrpc_value_t` -/
structure ChrpcValue where
  type : ChrpcType
  value : InnerValue

/-! ## Blockable types -/

/-- `sizeof` the C type behind a primitive type; a string has `char` cells. -/
def PrimType.size : PrimType → Nat
  | .byte => 1
  | .int16 => 2
  | .int32 => 4
  | .int64 => 8
  | .uint16 => 2
  | .uint32 => 4
  | .uint64 => 8
  | .float32 => 4
  | .float64 => 8
  | .string => 1

def chrpcTypeIsBlockable : ChrpcType → Bool
  | .prim _ => true
  | .array (.prim p) => p != .string
  | _ => false

/-- 0 if the type is not blockable. -/
def chrpcBlockableTypeCellSize : ChrpcType → Nat
  | .prim p => p.size
  | .array (.prim p) => if p = .string then 0 else p.size
  | _ => 0

/-- `type_id == CHRPC_STRING_TID` -/
def isStringType : ChrpcType → Bool
  | .prim .string => true
  | _ => false

/-- `CHRPC_STRING_TID` or `CHRPC_ARRAY_TID`: the block has a length prefix and is on the heap. -/
def hasLenPrefix : ChrpcType → Bool
  | .prim .string => true
  | .array _ => true
  | _ => false

/-- Not a primitive type. An array of composite cells keeps its cells one by one. -/
def ChrpcType.IsComposite : ChrpcType → Prop
  | .prim _ => False
  | _ => True

instance : (cell : ChrpcType) → Decidable cell.IsComposite
  | .prim _ => isFalse not_false
  | .struct _ => isTrue trivial
  | .array _ => isTrue trivial

/-- The three kinds of array cells, which the functions below tell apart. -/
theorem ChrpcType.cell_cases (cell : ChrpcType) :
    (∃ p : PrimType, p ≠ .string ∧ cell = .prim p) ∨ cell = .prim .string ∨ cell.IsComposite := by
  cases cell with
  | prim p =>
    by_cases hp : p = .string
    · exact Or.inr (Or.inl (by rw [hp]))
    · exact Or.inl ⟨p, hp, rfl⟩
  | _ => exact Or.inr (Or.inr trivial)

theorem ChrpcType.IsComposite.isBlockable {cell : ChrpcType} (h : cell.IsComposite) :
    chrpcTypeIsBlockable (.array cell) = false := by
  cases cell <;> first | rfl | exact h.elim

theorem ChrpcType.IsComposite.isStringType {cell : ChrpcType} (h : cell.IsComposite) :
    Serial.isStringType cell = false := by
  cases cell <;> first | rfl | exact h.elim

theorem chrpcTypeIsBlockable_numArr {p : PrimType} (hp : p ≠ .string) :
    chrpcTypeIsBlockable (.array (.prim p)) = true := by
  cases p <;> first | rfl | exact absurd rfl hp

theorem hasLenPrefix_numeric {p : PrimType} (hp : p ≠ .string) :
    hasLenPrefix (.prim p) = false := by
  cases p <;> first | rfl | exact absurd rfl hp

/-- `chrpc_block_value_t` -/
structure BlockValue where
  block : Bytes
  cellSize : Nat
  numCells : Nat

def chrpcInnerArrayValueToBlockValue : ChrpcType → InnerValue → SRes BlockValue
  | .prim .string, _ => .ok ⟨[], 0, 0⟩
  | .prim p, .numArr block arrayLen => .ok ⟨block, p.size, arrayLen⟩
  | .prim _, _ => .error .fault
  | _, _ => .ok ⟨[], 0, 0⟩

def chrpcInnerValueToBlockValue : ChrpcType → InnerValue → SRes BlockValue
  | .prim .string, .str block =>
    match strlen block with
    | some n => .ok ⟨block, 1, (n + 1) % 2 ^ 32⟩
    | none => .error .fault
  | .prim .string, _ => .error .fault
  | .prim p, .num cell => .ok ⟨cell, p.size, 1⟩
  | .prim _, _ => .error .fault
  | .struct _, _ => .ok ⟨[], 0, 0⟩
  | .array cell, iv => chrpcInnerArrayValueToBlockValue cell iv

/-! ## Deleting

Only the reads matter here: freeing has no effect on a value, but the block of a string is
found through `strlen`. -/

/-- Delete each cell. -/
def deleteCells {α : Type} (delete : α → SRes Unit) : List α → SRes Unit
  | [] => .ok ()
  | a :: as => do delete a; deleteCells delete as

mutual
def deleteChrpcInnerValue : ChrpcType → InnerValue → SRes Unit
  | .prim p, iv =>
    if hasLenPrefix (.prim p) then do
      let _ ← chrpcInnerValueToBlockValue (.prim p) iv
      .ok ()
    else .ok ()
  | .struct fields, .entries ivs => deleteChrpcFields fields ivs
  | .array cell, iv =>
    if chrpcTypeIsBlockable (.array cell) then do
      let _ ← chrpcInnerValueToBlockValue (.array cell) iv
      .ok ()
    else if isStringType cell then
      match iv with
      | .strArr _ => .ok ()
      | _ => .error .fault
    else
      match iv with
      | .entries ivs => deleteCells (deleteChrpcInnerValue cell) ivs
      | _ => .error .fault
  | _, _ => .error .fault
/-- The loop over the fields of a struct. -/
def deleteChrpcFields : List ChrpcType → List InnerValue → SRes Unit
  | [], _ => .ok ()
  | t :: ts, iv :: ivs => do deleteChrpcInnerValue t iv; deleteChrpcFields ts ivs
  | _ :: _, [] => .error .fault
end

def deleteChrpcValue (v : ChrpcValue) : SRes Unit := deleteChrpcInnerValue v.type v.value

/-! ## Comparing -/

/-- `memcmp(a, b, n) == 0` -/
def memcmpEq (a b : Bytes) (n : Nat) : SRes Bool :=
  if n ≤ a.length ∧ n ≤ b.length then .ok (a.take n == b.take n) else .error .fault

/-- `strcmp(a, b) == 0` -/
def strcmpEq (a b : Bytes) : SRes Bool :=
  if (0 : UInt8) ∈ a ∧ (0 : UInt8) ∈ b then .ok (cString a == cString b) else .error .fault

/-- Compare cell by cell, up to the first difference. -/
def cellsEqual {α : Type} (eq : α → α → SRes Bool) : List α → List α → SRes Bool
  | a :: as, b :: bs => do if ← eq a b then cellsEqual eq as bs else .ok false
  | [], _ => .ok true
  | _ :: _, [] => .error .fault

/-- Compare the blocks of two values of a blockable type. -/
def blockValuesEqual (ct : ChrpcType) (iv0 iv1 : InnerValue) : SRes Bool := do
  let block0 ← chrpcInnerValueToBlockValue ct iv0
  let block1 ← chrpcInnerValueToBlockValue ct iv1
  if block0.numCells ≠ block1.numCells then .ok false
  else memcmpEq block0.block block1.block (block0.cellSize * block0.numCells)

mutual
def chrpcInnerValueEquals : ChrpcType → InnerValue → InnerValue → SRes Bool
  | .prim p, iv0, iv1 => blockValuesEqual (.prim p) iv0 iv1
  | .struct fields, .entries ivs0, .entries ivs1 => chrpcFieldsEqual fields ivs0 ivs1
  | .array cell, iv0, iv1 =>
    if chrpcTypeIsBlockable (.array cell) then blockValuesEqual (.array cell) iv0 iv1
    else if isStringType cell then
      match iv0, iv1 with
      | .strArr strs0, .strArr strs1 =>
        if strs0.length ≠ strs1.length then .ok false else cellsEqual strcmpEq strs0 strs1
      | _, _ => .error .fault
    else
      match iv0, iv1 with
      | .entries ivs0, .entries ivs1 =>
        if ivs0.length ≠ ivs1.length then .ok false
        else cellsEqual (chrpcInnerValueEquals cell) ivs0 ivs1
      | _, _ => .error .fault
  | _, _, _ => .error .fault
/-- The loop over the fields of a struct. -/
def chrpcFieldsEqual : List ChrpcType → List InnerValue → List InnerValue → SRes Bool
  | [], _, _ => .ok true
  | t :: ts, a :: as, b :: bs => do
    if ← chrpcInnerValueEquals t a b then chrpcFieldsEqual ts as bs else .ok false
  | _ :: _, _, _ => .error .fault
end

/--
`chrpc_value_equals` on two distinct non-`NULL` objects. The source answers `true` at once
for two equal pointers; `chrpcValueEquals_self` agrees with it.
-/
def chrpcValueEquals (cv0 cv1 : ChrpcValue) : SRes Bool :=
  if chrpcTypeEquals cv0.type cv1.type then
    chrpcInnerValueEquals cv0.type cv0.value cv1.value
  else .ok false

/-! ## Well-formed values -/

namespace InnerValue

/-- An array value, given when its cells are of the right size. -/
def SizedArray (sized : InnerValue → Prop) : ChrpcType → InnerValue → Prop
  | .prim .string, .strArr strs => strs.length < 2 ^ 32 ∧ ∀ s ∈ strs, s.length < 2 ^ 32
  | .prim p, .numArr block arrayLen =>
    p ≠ .string ∧ arrayLen < 2 ^ 32 ∧ block.length = p.size * arrayLen
  | .struct _, .entries ivs => ivs.length < 2 ^ 32 ∧ ∀ iv ∈ ivs, sized iv
  | .array _, .entries ivs => ivs.length < 2 ^ 32 ∧ ∀ iv ∈ ivs, sized iv
  | _, _ => False

mutual
/-- Every block and every array has the size its type and its length ask for. -/
def Sized : ChrpcType → InnerValue → Prop
  | .prim .string, .str block => block.length < 2 ^ 32
  | .prim p, .num cell => p ≠ .string ∧ cell.length = p.size
  | .struct fields, .entries ivs => AllSized fields ivs
  | .array cell, iv => SizedArray (Sized cell) cell iv
  | _, _ => False
def AllSized : List ChrpcType → List InnerValue → Prop
  | [], [] => True
  | t :: ts, iv :: ivs => Sized t iv ∧ AllSized ts ivs
  | _, _ => False
end

theorem sized_string_iff {iv : InnerValue} :
    Sized (.prim .string) iv ↔ ∃ block, iv = .str block ∧ block.length < 2 ^ 32 := by
  cases iv <;> simp [Sized]

theorem sized_numeric_iff {p : PrimType} (hp : p ≠ .string) {iv : InnerValue} :
    Sized (.prim p) iv ↔ ∃ cell, iv = .num cell ∧ cell.length = p.size := by
  cases iv <;> cases p <;> simp [Sized] at hp ⊢

theorem sized_struct_iff {fields : List ChrpcType} {iv : InnerValue} :
    Sized (.struct fields) iv ↔ ∃ ivs, iv = .entries ivs ∧ AllSized fields ivs := by
  cases iv <;> simp [Sized]

theorem sizedArray_numeric {sized : InnerValue → Prop} {p : PrimType} (hp : p ≠ .string)
    (iv : InnerValue) :
    SizedArray sized (.prim p) iv ↔
      ∃ block n, iv = .numArr block n ∧ n < 2 ^ 32 ∧ block.length = p.size * n := by
  cases iv <;> cases p <;> simp [SizedArray] at hp ⊢

theorem sizedArray_string {sized : InnerValue → Prop} (iv : InnerValue) :
    SizedArray sized (.prim .string) iv ↔
      ∃ strs, iv = .strArr strs ∧ strs.length < 2 ^ 32 ∧ ∀ s ∈ strs, s.length < 2 ^ 32 := by
  cases iv <;> simp [SizedArray]

theorem sizedArray_composite {sized : InnerValue → Prop} {cell : ChrpcType}
    (h : cell.IsComposite) (iv : InnerValue) :
    SizedArray sized cell iv ↔
      ∃ ivs, iv = .entries ivs ∧ ivs.length < 2 ^ 32 ∧ ∀ a ∈ ivs, sized a := by
  cases cell <;> first | exact h.elim | (cases iv <;> simp [SizedArray])

mutual
/-- The string blocks of a value, those of string arrays among them. -/
def stringBlocks : InnerValue → List Bytes
  | .str block => [block]
  | .strArr blocks => blocks
  | .entries ivs => allStringBlocks ivs
  | _ => []
def allStringBlocks : List InnerValue → List Bytes
  | [] => []
  | iv :: ivs => stringBlocks iv ++ allStringBlocks ivs
end

mutual
/-- The string blocks outside string arrays: those that deletion measures. -/
def scalarStrings : InnerValue → List Bytes
  | .str block => [block]
  | .entries ivs => allScalarStrings ivs
  | _ => []
def allScalarStrings : List InnerValue → List Bytes
  | [] => []
  | iv :: ivs => scalarStrings iv ++ allScalarStrings ivs
end

/-- A value of type `t` as the constructors build it: sizes fit, and every string block
holds exactly one NUL, its last byte. -/
structure WellFormed (t : ChrpcType) (iv : InnerValue) : Prop where
  sized : Sized t iv
  strings : ∀ s ∈ iv.stringBlocks, TerminatedOnce s

end InnerValue

/-- A well-formed value: its type is well formed and its inner value fits the type. -/
structure ChrpcValue.WellFormed (v : ChrpcValue) : Prop where
  type : v.type.WellFormed
  value : v.value.WellFormed v.type

/-! ## Parts of well-formed values -/

namespace InnerValue

theorem mem_allStringBlocks {s : Bytes} {ivs : List InnerValue} :
    s ∈ allStringBlocks ivs ↔ ∃ iv ∈ ivs, s ∈ iv.stringBlocks := by
  induction ivs with
  | nil => simp [allStringBlocks]
  | cons iv ivs ih => simp [allStringBlocks, ih]

/-- The cells of a composite array are well formed. -/
theorem WellFormed.cell {cell : ChrpcType} {ivs : List InnerValue}
    (h : WellFormed (.array cell) (.entries ivs)) : ∀ iv ∈ ivs, WellFormed cell iv := by
  intro iv hiv
  refine ⟨?_, fun s hs => h.strings s ?_⟩
  · have hsized := h.sized
    cases cell with
    | prim p => cases p <;> simp [Sized, SizedArray] at hsized
    | _ => exact (show ivs.length < 2 ^ 32 ∧ ∀ iv ∈ ivs, Sized _ iv from hsized).2 iv hiv
  · exact mem_allStringBlocks.mpr ⟨iv, hiv, hs⟩

/-- Fields that are well formed one by one. -/
def AllWellFormed (ts : List ChrpcType) (ivs : List InnerValue) : Prop :=
  AllSized ts ivs ∧ ∀ s ∈ allStringBlocks ivs, TerminatedOnce s

theorem AllWellFormed.head {t : ChrpcType} {ts : List ChrpcType} {iv : InnerValue}
    {ivs : List InnerValue} (h : AllWellFormed (t :: ts) (iv :: ivs)) : WellFormed t iv :=
  ⟨h.1.1, fun s hs => h.2 s (List.mem_append_left _ hs)⟩

theorem AllWellFormed.tail {t : ChrpcType} {ts : List ChrpcType} {iv : InnerValue}
    {ivs : List InnerValue} (h : AllWellFormed (t :: ts) (iv :: ivs)) : AllWellFormed ts ivs :=
  ⟨h.1.2, fun s hs => h.2 s (List.mem_append_right _ hs)⟩

theorem wellFormed_struct_iff {fields : List ChrpcType} {ivs : List InnerValue} :
    WellFormed (.struct fields) (.entries ivs) ↔ AllWellFormed fields ivs :=
  ⟨fun h => ⟨h.sized, h.strings⟩, fun h => ⟨h.1, h.2⟩⟩

end InnerValue

end Chlibs.Serial

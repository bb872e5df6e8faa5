import Chlibs.Infra.Codec
import Chlibs.Infra.Writer

/-!
# Types of serial values

The type trees of `serial_type.h`, their byte form, and the functions that write, read,
copy and compare them.

A buffer that is written is an offset and a length inside a block (`BlockWriter`). A buffer
that is read is the list of its `buf_len` bytes, so `buf + pos` with `buf_len - pos` is
`advance buf pos`.
-/

namespace Chlibs.Serial

open Infra

/-! ## Status codes -/

abbrev ChrpcStatus := UInt8

def chrpcSuccess : ChrpcStatus := 0
def chrpcSyntaxError : ChrpcStatus := 1
def chrpcUnexpectedEnd : ChrpcStatus := 2
def chrpcBufferTooSmall : ChrpcStatus := 3
def chrpcEmptyStructType : ChrpcStatus := 4
def chrpcStructTypeTooLarge : ChrpcStatus := 5
def chrpcServerFull : ChrpcStatus := 8
def chrpcUnknownEndpoint : ChrpcStatus := 9
def chrpcArgumentMismatch : ChrpcStatus := 10
def chrpcClientChannelEmpty : ChrpcStatus := 11
def chrpcClientChannelError : ChrpcStatus := 12
def chrpcBadRequest : ChrpcStatus := 13
def chrpcServerInternalError : ChrpcStatus := 14
def chrpcDisconnect : ChrpcStatus := 15
def chrpcBadResponse : ChrpcStatus := 16

abbrev SRes := Res ChrpcStatus
abbrev SWriter := BlockWriter ChrpcStatus

/-! ## Type trees -/

/-- The ten primitive types. -/
inductive PrimType where
  | byte | int16 | int32 | int64 | uint16 | uint32 | uint64 | float32 | float64 | string
  deriving DecidableEq, Repr

/-- `type_id` of a primitive type. -/
def PrimType.tid : PrimType → UInt8
  | .byte => 0
  | .int16 => 1
  | .int32 => 2
  | .int64 => 3
  | .uint16 => 4
  | .uint32 => 5
  | .uint64 => 6
  | .float32 => 7
  | .float64 => 8
  | .string => 9

def chrpcStructTid : UInt8 := 10
def chrpcArrayTid : UInt8 := 11

def chrpcMaxStructFields : Nat := 64

/-- `chrpc_type_t`. A struct carries its field types, an array its cell type. -/
inductive ChrpcType where
  | prim (p : PrimType)
  | struct (fields : List ChrpcType)
  | array (cell : ChrpcType)

namespace ChrpcType

/-- Induction over type trees, with one hypothesis for each field of a struct. -/
@[elab_as_elim]
theorem induct {P : ChrpcType → Prop} (prim : ∀ p, P (.prim p))
    (struct : ∀ fields, (∀ t ∈ fields, P t) → P (.struct fields))
    (array : ∀ cell, P cell → P (.array cell)) (t : ChrpcType) : P t :=
  ChrpcType.rec (motive_1 := P) (motive_2 := fun ts => ∀ t ∈ ts, P t) prim struct array
    (by simp) (fun t ts ht hts => by simpa using ⟨ht, hts⟩) t

mutual
/-- Structs of 1 to 64 well-formed fields, arrays of a well-formed type. -/
def WellFormed : ChrpcType → Prop
  | .prim _ => True
  | .struct fields =>
    1 ≤ fields.length ∧ fields.length ≤ chrpcMaxStructFields ∧ AllWellFormed fields
  | .array cell => WellFormed cell
def AllWellFormed : List ChrpcType → Prop
  | [] => True
  | t :: ts => WellFormed t ∧ AllWellFormed ts
end

theorem allWellFormed_iff (ts : List ChrpcType) : AllWellFormed ts ↔ ∀ t ∈ ts, WellFormed t := by
  induction ts with
  | nil => simp [AllWellFormed]
  | cons t ts ih => simp [AllWellFormed, ih]

mutual
/-- The byte form: `PRIM`, `STRUCT <NUM_FIELDS> TYPE+`, `ARRAY TYPE`. -/
def bytes : ChrpcType → Bytes
  | .prim p => [p.tid]
  | .struct fields => chrpcStructTid :: UInt8.ofNat fields.length :: fieldBytes fields
  | .array cell => chrpcArrayTid :: bytes cell
def fieldBytes : List ChrpcType → Bytes
  | [] => []
  | t :: ts => bytes t ++ fieldBytes ts
end

end ChrpcType

/-- The singleton of a primitive id, or `NULL`. -/
def newChrpcPrimitiveTypeFromId (tid : UInt8) : Option ChrpcType :=
  if tid = 0 then some (.prim .byte)
  else if tid = 1 then some (.prim .int16)
  else if tid = 2 then some (.prim .int32)
  else if tid = 3 then some (.prim .int64)
  else if tid = 4 then some (.prim .uint16)
  else if tid = 5 then some (.prim .uint32)
  else if tid = 6 then some (.prim .uint64)
  else if tid = 7 then some (.prim .float32)
  else if tid = 8 then some (.prim .float64)
  else if tid = 9 then some (.prim .string)
  else none

/-- `NULL` unless 1 to 64 field types are given. -/
def newChrpcStructType (fields : List ChrpcType) : Option ChrpcType :=
  if fields.length < 1 ∨ chrpcMaxStructFields < fields.length then none
  else some (.struct fields)

/-! ## Writing -/

mutual
def chrpcTypeToBuffer : ChrpcType → Nat → Nat → SWriter Nat
  | .prim p, buf, bufLen => do
    failIf (bufLen < 1) chrpcBufferTooSmall
    store buf [p.tid]
    return 1
  | .array cell, buf, bufLen => do
    failIf (bufLen < 1) chrpcBufferTooSmall
    store buf [chrpcArrayTid]
    let cellWritten ← chrpcTypeToBuffer cell (buf + 1) (← remaining bufLen 1)
    return cellWritten + 1
  | .struct fields, buf, bufLen => do
    failIf (bufLen < 1) chrpcBufferTooSmall
    failIf (bufLen < 2) chrpcBufferTooSmall
    store buf [chrpcStructTid]
    store (buf + 1) [UInt8.ofNat fields.length]
    chrpcFieldTypesToBuffer fields buf bufLen 2
/-- The loop over the field types. -/
def chrpcFieldTypesToBuffer : List ChrpcType → Nat → Nat → Nat → SWriter Nat
  | [], _, _, pos => return pos
  | t :: ts, buf, bufLen, pos => do
    let fieldWritten ← chrpcTypeToBuffer t (buf + pos) (← remaining bufLen pos)
    chrpcFieldTypesToBuffer ts buf bufLen (pos + fieldWritten)
end

/-! ## Reading -/

/-- The loop over the field types, each read by `rec` at the position reached. -/
def chrpcFieldTypesFromBuffer (rec : Bytes → SRes (ChrpcType × Nat)) (buf : Bytes) :
    Nat → Nat → SRes (List ChrpcType × Nat)
  | 0, pos => .ok ([], pos)
  | n + 1, pos => do
    let (t, fieldReadden) ← rec (← advance buf pos)
    let (ts, pos') ← chrpcFieldTypesFromBuffer rec buf n (pos + fieldReadden)
    .ok (t :: ts, pos')

/-- `chrpc_type_from_buffer` with a bound on its recursion depth. -/
def chrpcTypeFromBufferDepth : Nat → Bytes → SRes (ChrpcType × Nat)
  | 0, _ => .error .fault
  | depth + 1, buf =>
    match buf with
    | [] => .error (.status chrpcUnexpectedEnd)
    | tid :: rest =>
      match newChrpcPrimitiveTypeFromId tid with
      | some primType => .ok (primType, 1)
      | none =>
        if tid = chrpcArrayTid then do
          let (cell, cellReadden) ← chrpcTypeFromBufferDepth depth (← advance buf 1)
          .ok (.array cell, 1 + cellReadden)
        else if tid = chrpcStructTid then
          match rest with
          | [] => .error (.status chrpcUnexpectedEnd)
          | numFields :: _ =>
            if numFields.toNat < 1 then .error (.status chrpcEmptyStructType)
            else if chrpcMaxStructFields < numFields.toNat then
              .error (.status chrpcStructTypeTooLarge)
            else do
              let (fields, pos) ← chrpcFieldTypesFromBuffer (chrpcTypeFromBufferDepth depth) buf
                numFields.toNat 2
              .ok (.struct fields, pos)
        else .error (.status chrpcSyntaxError)

/-- Every recursive call has consumed at least one byte, so the length bounds the depth. -/
def chrpcTypeFromBuffer (buf : Bytes) : SRes (ChrpcType × Nat) :=
  chrpcTypeFromBufferDepth (buf.length + 1) buf

/-! ## Copying and comparing -/

mutual
def newChrpcTypeCopy : ChrpcType → ChrpcType
  | .prim p => .prim p
  | .array cell => .array (newChrpcTypeCopy cell)
  | .struct fields => .struct (newChrpcTypeCopies fields)
def newChrpcTypeCopies : List ChrpcType → List ChrpcType
  | [] => []
  | t :: ts => newChrpcTypeCopy t :: newChrpcTypeCopies ts
end

mutual
def chrpcTypeEquals : ChrpcType → ChrpcType → Bool
  | .prim p, .prim q => p.tid == q.tid
  | .array c, .array d => chrpcTypeEquals c d
  | .struct fs, .struct gs => fs.length == gs.length && chrpcFieldTypesEqual fs gs
  | _, _ => false
/-- The loop over the fields of two structs of one length. -/
def chrpcFieldTypesEqual : List ChrpcType → List ChrpcType → Bool
  | t :: ts, u :: us => chrpcTypeEquals t u && chrpcFieldTypesEqual ts us
  | _, _ => true
end

end Chlibs.Serial

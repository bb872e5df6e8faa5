import Chlibs.Infra.Alloc
import Chlibs.Serial.ValueBuffer

/-!
# The memory of decoded values

The decoder of `serial_value.c` and `serial_type.c` once more, with the blocks that it allocates
and frees. Every tree carries the pointers to its blocks (`TypeMem`, `ValueMem`); without them it
is the tree that the decoder reads (`erase`).
-/

namespace Chlibs.Serial

open Infra

abbrev MemM := AllocM ChrpcStatus

/-! ## Trees with their blocks -/

/-- `chrpc_type_t *`. The primitive types are singletons. -/
inductive TypeMem where
  | prim (p : PrimType)
  | struct (ct structFieldsTypes fieldTypes : Ptr) (fields : List TypeMem)
  | array (ct : Ptr) (cell : TypeMem)

/-- `chrpc_inner_value_t *`: the block of the union, and the one that a pointer in it leads to. -/
inductive ValueMem where
  | num (iv : Ptr) (cell : Bytes)
  | str (iv arr : Ptr) (block : Bytes)
  | numArr (iv arr : Ptr) (block : Bytes) (arrayLen : Nat)
  | strArr (iv arr : Ptr) (blocks : List (Ptr × Bytes))
  | entries (iv arr : Ptr) (ivs : List ValueMem)

/-- `chrpc_value_t *` -/
structure ChrpcValueMem where
  cv : Ptr
  type : TypeMem
  value : ValueMem

namespace TypeMem

mutual
def erase : TypeMem → ChrpcType
  | .prim p => .prim p
  | .struct _ _ _ fields => .struct (eraseAll fields)
  | .array _ cell => .array (erase cell)
def eraseAll : List TypeMem → List ChrpcType
  | [] => []
  | t :: ts => erase t :: eraseAll ts
end

mutual
/-- The blocks of a type. -/
def blocks : TypeMem → List Nat
  | .prim _ => []
  | .struct ct structFieldsTypes fieldTypes fields =>
    allBlocks fields ++ (fieldTypes.toList ++ (structFieldsTypes.toList ++ ct.toList))
  | .array ct cell => blocks cell ++ ct.toList
def allBlocks : List TypeMem → List Nat
  | [] => []
  | t :: ts => blocks t ++ allBlocks ts
end

end TypeMem

namespace ValueMem

mutual
def erase : ValueMem → InnerValue
  | .num _ cell => .num cell
  | .str _ _ block => .str block
  | .numArr _ _ block arrayLen => .numArr block arrayLen
  | .strArr _ _ blocks => .strArr (blocks.map Prod.snd)
  | .entries _ _ ivs => .entries (eraseAll ivs)
def eraseAll : List ValueMem → List InnerValue
  | [] => []
  | iv :: ivs => erase iv :: eraseAll ivs
end

mutual
/-- The blocks of a value. -/
def blocks : ValueMem → List Nat
  | .num iv _ => iv.toList
  | .str iv arr _ => arr.toList ++ iv.toList
  | .numArr iv arr _ _ => arr.toList ++ iv.toList
  | .strArr iv arr strs => strs.flatMap (fun str => str.1.toList) ++ (arr.toList ++ iv.toList)
  | .entries iv arr ivs => allBlocks ivs ++ (arr.toList ++ iv.toList)
def allBlocks : List ValueMem → List Nat
  | [] => []
  | iv :: ivs => blocks iv ++ allBlocks ivs
end

/-- The pointer to the value. -/
def ptr : ValueMem → Ptr
  | .num iv _ => iv
  | .str iv _ _ => iv
  | .numArr iv _ _ _ => iv
  | .strArr iv _ _ => iv
  | .entries iv _ _ => iv

/-- The pointer in the union, where there is one. -/
def arr : ValueMem → Ptr
  | .num _ _ => none
  | .str _ arr _ => arr
  | .numArr _ arr _ _ => arr
  | .strArr _ arr _ => arr
  | .entries _ arr _ => arr

end ValueMem

/-! ## Sizes -/

def sizeofPtr : Nat := 8
def sizeofChrpcType : Nat := 16
def sizeofStructFieldsTypes : Nat := 16
def sizeofInnerValue : Nat := 16
def sizeofChrpcValue : Nat := 16

/-! ## Deleting -/

mutual
def deleteChrpcTypeMem : TypeMem → MemM Unit
  | .prim _ => pure ()
  | .array ct cell => do
    deleteChrpcTypeMem cell
    safeFree ct
  | .struct ct structFieldsTypes fieldTypes fields => do
    deleteChrpcTypesMem fields
    safeFree fieldTypes
    safeFree structFieldsTypes
    safeFree ct
/-- The loop over the fields of a struct. -/
def deleteChrpcTypesMem : List TypeMem → MemM Unit
  | [] => pure ()
  | t :: ts => do
    deleteChrpcTypeMem t
    deleteChrpcTypesMem ts
end

/-- Delete each cell. -/
def deleteCellsMem {α : Type} (delete : α → MemM Unit) : List α → MemM Unit
  | [] => pure ()
  | a :: as => do
    delete a
    deleteCellsMem delete as

/-- The blockable case: the block of a string or an array goes first. -/
def deleteBlockableMem (t : ChrpcType) (iv : ValueMem) : MemM Unit := do
  if hasLenPrefix t then
    let _ ← readOnly (chrpcInnerValueToBlockValue t iv.erase)
    safeFree iv.arr
  safeFree iv.ptr

mutual
def deleteChrpcInnerValueMem : ChrpcType → ValueMem → MemM Unit
  | .prim p, iv => deleteBlockableMem (.prim p) iv
  | .struct fields, .entries iv arr ivs => do
    deleteChrpcFieldsMem fields ivs
    safeFree arr
    safeFree iv
  | .array cell, iv =>
    if chrpcTypeIsBlockable (.array cell) then deleteBlockableMem (.array cell) iv
    else if isStringType cell then
      match iv with
      | .strArr iv arr strs => do
        deleteCellsMem (fun str => safeFree str.1) strs
        safeFree arr
        safeFree iv
      | _ => throw .fault
    else
      match iv with
      | .entries iv arr ivs => do
        deleteCellsMem (deleteChrpcInnerValueMem cell) ivs
        safeFree arr
        safeFree iv
      | _ => throw .fault
  | _, _ => throw .fault
/-- The loop over the fields of a struct. -/
def deleteChrpcFieldsMem : List ChrpcType → List ValueMem → MemM Unit
  | [], _ => pure ()
  | t :: ts, iv :: ivs => do
    deleteChrpcInnerValueMem t iv
    deleteChrpcFieldsMem ts ivs
  | _ :: _, [] => throw .fault
end

def deleteChrpcValueMem (v : ChrpcValueMem) : MemM Unit := do
  deleteChrpcInnerValueMem v.type.erase v.value
  deleteChrpcTypeMem v.type
  safeFree v.cv

/-! ## Reading a type -/

/-- The loop over the field types. On a failure it deletes those that were read. -/
def chrpcFieldTypesFromBufferMem (rec : Bytes → MemM (TypeMem × Nat)) (fields : Ptr) (buf : Bytes) :
    Nat → List TypeMem → Nat → MemM (List TypeMem × Nat)
  | 0, done, pos => pure (done, pos)
  | n + 1, done, pos => do
    let b ← readOnly (advance buf pos)
    match ← attempt (rec b) with
    | .ok (t, fieldReadden) =>
      chrpcFieldTypesFromBufferMem rec fields buf n (done ++ [t]) (pos + fieldReadden)
    | .error st => do
      deleteChrpcTypesMem done
      safeFree fields
      throw (.status st)

/-- `chrpc_type_from_buffer` with a bound on its recursion depth. -/
def chrpcTypeFromBufferDepthMem : Nat → Bytes → MemM (TypeMem × Nat)
  | 0, _ => throw .fault
  | depth + 1, buf =>
    match buf with
    | [] => throw (.status chrpcUnexpectedEnd)
    | tid :: rest =>
      match newChrpcPrimitiveTypeFromId tid with
      | some (.prim p) => pure (.prim p, 1)
      | some _ => throw .fault
      | none =>
        if tid = chrpcArrayTid then do
          let b ← readOnly (advance buf 1)
          let (cell, cellReadden) ← chrpcTypeFromBufferDepthMem depth b
          let ct ← safeMalloc sizeofChrpcType
          pure (.array ct cell, 1 + cellReadden)
        else if tid = chrpcStructTid then
          match rest with
          | [] => throw (.status chrpcUnexpectedEnd)
          | numFields :: _ =>
            if numFields.toNat < 1 then throw (.status chrpcEmptyStructType)
            else if chrpcMaxStructFields < numFields.toNat then
              throw (.status chrpcStructTypeTooLarge)
            else do
              let fieldTypes ← safeMalloc (sizeofChrpcType * numFields.toNat)
              let (fields, pos) ← chrpcFieldTypesFromBufferMem (chrpcTypeFromBufferDepthMem depth)
                fieldTypes buf numFields.toNat [] 2
              let structFieldsTypes ← safeMalloc sizeofStructFieldsTypes
              let ct ← safeMalloc sizeofChrpcType
              pure (.struct ct structFieldsTypes fieldTypes fields, pos)
        else throw (.status chrpcSyntaxError)

def chrpcTypeFromBufferMem (buf : Bytes) : MemM (TypeMem × Nat) :=
  chrpcTypeFromBufferDepthMem (buf.length + 1) buf

/-! ## Reading a value -/

def chrpcNumericInnerValueFromBufferMem (p : PrimType) (buf : Bytes) : MemM (ValueMem × Nat) := do
  let ivp ← safeMalloc sizeofInnerValue
  if buf.length < p.size then do
    safeFree ivp
    throw (.status chrpcUnexpectedEnd)
  else pure (.num ivp (buf.take p.size), p.size)

/-- The block with its pointer, its number of cells, and the bytes read. -/
def chrpcBlockArrayFromBufferMem (ct : ChrpcType) (buf : Bytes) : MemM ((Ptr × Bytes) × Nat × Nat) :=
  if buf.length < 4 then throw (.status chrpcUnexpectedEnd)
  else
    let numCells := leNat (buf.take 4)
    let remBuf := buf.drop 4
    let arrBytes := chrpcBlockableTypeCellSize ct * numCells
    if remBuf.length < arrBytes then throw (.status chrpcUnexpectedEnd)
    else do
      let arr ← safeMalloc arrBytes
      pure ((arr, remBuf.take arrBytes), numCells, 4 + arrBytes)

def chrpcBlockArrayInnerValueFromBufferMem (ct : ChrpcType) (buf : Bytes) :
    MemM (ValueMem × Nat) := do
  let ((arr, block), numEles, readden) ← chrpcBlockArrayFromBufferMem ct buf
  let ivp ← safeMalloc sizeofInnerValue
  if isStringType ct then pure (.str ivp arr block, readden)
  else pure (.numArr ivp arr block numEles, readden)

/--
The loop that reads `n` cells into the block `arr`. On a failure it deletes the cells read so far
and the block.
-/
def readCellsMem {α : Type} (read : Bytes → MemM (α × Nat)) (delete : α → MemM Unit) (arr : Ptr)
    (buf : Bytes) : Nat → List α → Nat → MemM (List α × Nat)
  | 0, done, bytesRead => pure (done, bytesRead)
  | n + 1, done, bytesRead => do
    let b ← readOnly (advance buf bytesRead)
    match ← attempt (read b) with
    | .ok (a, tmpRead) => readCellsMem read delete arr buf n (done ++ [a]) (bytesRead + tmpRead)
    | .error st => do
      deleteCellsMem delete done
      safeFree arr
      throw (.status st)

def chrpcStrArrayInnerValueFromBufferMem (buf : Bytes) : MemM (ValueMem × Nat) :=
  if buf.length < 4 then throw (.status chrpcUnexpectedEnd)
  else do
    let strArr ← safeMalloc (sizeofPtr * leNat (buf.take 4))
    let readStr := fun b => do
      let (str, _, tmpRead) ← chrpcBlockArrayFromBufferMem (.prim .string) b
      pure (str, tmpRead)
    let (strs, bytesRead) ← readCellsMem readStr (fun str => safeFree str.1) strArr buf
      (leNat (buf.take 4)) [] 4
    let ivp ← safeMalloc sizeofInnerValue
    pure (.strArr ivp strArr strs, bytesRead)

def chrpcCmpArrayInnerValueFromBufferMem (read : Bytes → MemM (ValueMem × Nat))
    (delete : ValueMem → MemM Unit) (buf : Bytes) : MemM (ValueMem × Nat) :=
  if buf.length < 4 then throw (.status chrpcUnexpectedEnd)
  else do
    let arr ← safeMalloc (sizeofPtr * leNat (buf.take 4))
    let (ivs, bytesRead) ← readCellsMem read delete arr buf (leNat (buf.take 4)) [] 4
    let ivp ← safeMalloc sizeofInnerValue
    pure (.entries ivp arr ivs, bytesRead)

mutual
def chrpcInnerValueFromBufferMem : ChrpcType → Bytes → MemM (ValueMem × Nat)
  | .prim p, buf =>
    if hasLenPrefix (.prim p) then chrpcBlockArrayInnerValueFromBufferMem (.prim p) buf
    else chrpcNumericInnerValueFromBufferMem p buf
  | .struct fields, buf => do
    let structEntries ← safeMalloc (sizeofPtr * fields.length)
    let (ivs, bytesRead) ← chrpcFieldsFromBufferMem fields structEntries buf [] [] 0
    let structIv ← safeMalloc sizeofInnerValue
    pure (.entries structIv structEntries ivs, bytesRead)
  | .array cell, buf =>
    if chrpcTypeIsBlockable (.array cell) then
      chrpcBlockArrayInnerValueFromBufferMem (.array cell) buf
    else if isStringType cell then chrpcStrArrayInnerValueFromBufferMem buf
    else
      chrpcCmpArrayInnerValueFromBufferMem (chrpcInnerValueFromBufferMem cell)
        (deleteChrpcInnerValueMem cell) buf
/-- The loop over the fields of a struct; `doneTypes` and `done` are the fields read so far. -/
def chrpcFieldsFromBufferMem : List ChrpcType → Ptr → Bytes → List ChrpcType → List ValueMem → Nat →
    MemM (List ValueMem × Nat)
  | [], _, _, _, done, bytesRead => pure (done, bytesRead)
  | t :: ts, structEntries, buf, doneTypes, done, bytesRead => do
    let b ← readOnly (advance buf bytesRead)
    match ← attempt (chrpcInnerValueFromBufferMem t b) with
    | .ok (iv, fieldRead) =>
      chrpcFieldsFromBufferMem ts structEntries buf (doneTypes ++ [t]) (done ++ [iv])
        (bytesRead + fieldRead)
    | .error st => do
      deleteChrpcFieldsMem doneTypes done
      safeFree structEntries
      throw (.status st)
end

def chrpcValueFromBufferMem (buf : Bytes) : MemM (ChrpcValueMem × Nat) := do
  let (ct, typeReadden) ← chrpcTypeFromBufferMem buf
  let b ← readOnly (advance buf typeReadden)
  match ← attempt (chrpcInnerValueFromBufferMem ct.erase b) with
  | .ok (iv, valReadden) => do
    let cv ← safeMalloc sizeofChrpcValue
    pure (⟨cv, ct, iv⟩, typeReadden + valReadden)
  | .error st => do
    deleteChrpcTypeMem ct
    throw (.status st)

end Chlibs.Serial

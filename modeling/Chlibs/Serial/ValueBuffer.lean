import Chlibs.Serial.Value

/-!
# Writing and reading serial values

The encoder and the decoder of `serial_value.c`, branch by branch.
-/

namespace Chlibs.Serial

open Infra

/-! ## Writing -/

/-- The first `n` bytes of a block, as `memcpy` reads them. -/
def readBlock (block : Bytes) (n : Nat) : SRes Bytes :=
  if n ≤ block.length then .ok (block.take n) else .error .fault

def chrpcBlockValueToBuffer (block : BlockValue) (lenPrefix : Bool) (buf bufLen : Nat) :
    SWriter Nat :=
  let arrSize := block.numCells * block.cellSize
  if lenPrefix then do
    failIf (bufLen < 4) chrpcBufferTooSmall
    store buf (le32 block.numCells)
    failIf (bufLen < 4 + arrSize) chrpcBufferTooSmall
    store (buf + 4) (← liftRes (readBlock block.block arrSize))
    return 4 + arrSize
  else do
    failIf (bufLen < arrSize) chrpcBufferTooSmall
    store buf (← liftRes (readBlock block.block arrSize))
    return arrSize

/-- The loop over the strings of a string array, each written as a block of its own. -/
def chrpcStringsToBuffer (buf bufLen : Nat) : List Bytes → Nat → SWriter Nat
  | [], totalWritten => return totalWritten
  | str :: strs, totalWritten => do
    let block ← liftRes (chrpcInnerValueToBlockValue (.prim .string) (.str str))
    let w ← chrpcBlockValueToBuffer block true (buf + totalWritten)
      (← remaining bufLen totalWritten)
    chrpcStringsToBuffer buf bufLen strs (totalWritten + w)

/-- The loop over the cells of a composite array. -/
def chrpcCellsToBuffer (write : InnerValue → Nat → Nat → SWriter Nat) (buf bufLen : Nat) :
    List InnerValue → Nat → SWriter Nat
  | [], totalWritten => return totalWritten
  | iv :: ivs, totalWritten => do
    let w ← write iv (buf + totalWritten) (← remaining bufLen totalWritten)
    chrpcCellsToBuffer write buf bufLen ivs (totalWritten + w)

/-- The blockable case: one `memcpy`, behind a length for strings and arrays. -/
def chrpcBlockableToBuffer (ct : ChrpcType) (iv : InnerValue) (buf bufLen : Nat) :
    SWriter Nat := do
  let block ← liftRes (chrpcInnerValueToBlockValue ct iv)
  chrpcBlockValueToBuffer block (hasLenPrefix ct) buf bufLen

mutual
def chrpcInnerValueToBuffer : ChrpcType → InnerValue → Nat → Nat → SWriter Nat
  | .prim p, iv, buf, bufLen => chrpcBlockableToBuffer (.prim p) iv buf bufLen
  | .struct fields, iv, buf, bufLen =>
    match iv with
    | .entries ivs => chrpcFieldsToBuffer fields ivs buf bufLen 0
    | _ => throw .fault
  | .array cell, iv, buf, bufLen =>
    if chrpcTypeIsBlockable (.array cell) then chrpcBlockableToBuffer (.array cell) iv buf bufLen
    else
      match iv with
      | .strArr strs => do
        failIf (bufLen < 4) chrpcBufferTooSmall
        store buf (le32 strs.length)
        if isStringType cell then chrpcStringsToBuffer buf bufLen strs 4 else throw .fault
      | .entries ivs => do
        failIf (bufLen < 4) chrpcBufferTooSmall
        store buf (le32 ivs.length)
        if isStringType cell then throw .fault
        else chrpcCellsToBuffer (chrpcInnerValueToBuffer cell) buf bufLen ivs 4
      | _ => throw .fault
/-- The loop over the fields of a struct. -/
def chrpcFieldsToBuffer : List ChrpcType → List InnerValue → Nat → Nat → Nat → SWriter Nat
  | [], _, _, _, totalWritten => return totalWritten
  | t :: ts, iv :: ivs, buf, bufLen, totalWritten => do
    let w ← chrpcInnerValueToBuffer t iv (buf + totalWritten) (← remaining bufLen totalWritten)
    chrpcFieldsToBuffer ts ivs buf bufLen (totalWritten + w)
  | _ :: _, [], _, _, _ => throw .fault
end

def chrpcValueToBuffer (v : ChrpcValue) (buf bufLen : Nat) : SWriter Nat := do
  let typeWritten ← chrpcTypeToBuffer v.type buf bufLen
  let valWritten ← chrpcInnerValueToBuffer v.type v.value (buf + typeWritten)
    (← remaining bufLen typeWritten)
  return typeWritten + valWritten

/-- `v` may be `NULL`: then only a zero length is written. -/
def chrpcValueToBufferWithLength (v : Option ChrpcValue) (buf bufLen : Nat) : SWriter Nat := do
  failIf (bufLen < 4) chrpcBufferTooSmall
  match v with
  | some v => do
    let w ← chrpcValueToBuffer v (buf + 4) (← remaining bufLen 4)
    store buf (le32 w)
    return 4 + w
  | none => do
    store buf (le32 0)
    return 4

/-! ## Reading -/

/-- Assumes `ct` is primitive, but not a string. -/
def chrpcNumericInnerValueFromBuffer (p : PrimType) (buf : Bytes) : SRes (InnerValue × Nat) :=
  if buf.length < p.size then .error (.status chrpcUnexpectedEnd)
  else .ok (.num (buf.take p.size), p.size)

/-- A singular string or numeric array: the block, its number of cells, and the bytes read. -/
def chrpcBlockArrayFromBuffer (ct : ChrpcType) (buf : Bytes) : SRes (Bytes × Nat × Nat) :=
  if buf.length < 4 then .error (.status chrpcUnexpectedEnd)
  else
    let numCells := leNat (buf.take 4)
    let remBuf := buf.drop 4
    let arrBytes := chrpcBlockableTypeCellSize ct * numCells
    if remBuf.length < arrBytes then .error (.status chrpcUnexpectedEnd)
    else .ok (remBuf.take arrBytes, numCells, 4 + arrBytes)

def chrpcBlockArrayInnerValueFromBuffer (ct : ChrpcType) (buf : Bytes) :
    SRes (InnerValue × Nat) := do
  let (arr, numEles, readden) ← chrpcBlockArrayFromBuffer ct buf
  if isStringType ct then .ok (.str arr, readden)
  else .ok (.numArr arr numEles, readden)

/--
The loop that reads `n` cells one after the other. On a failure it deletes the cells read
so far and returns the status.
-/
def readCells {α : Type} (read : Bytes → SRes (α × Nat)) (delete : α → SRes Unit)
    (buf : Bytes) : Nat → List α → Nat → SRes (List α × Nat)
  | 0, done, bytesRead => .ok (done, bytesRead)
  | n + 1, done, bytesRead => do
    match read (← advance buf bytesRead) with
    | .ok (a, tmpRead) => readCells read delete buf n (done ++ [a]) (bytesRead + tmpRead)
    | .error (.status st) => do deleteCells delete done; .error (.status st)
    | .error .fault => .error .fault

def chrpcStrArrayInnerValueFromBuffer (buf : Bytes) : SRes (InnerValue × Nat) :=
  if buf.length < 4 then .error (.status chrpcUnexpectedEnd)
  else do
    let readStr := fun b => do
      let (str, _, tmpRead) ← chrpcBlockArrayFromBuffer (.prim .string) b
      .ok (str, tmpRead)
    -- The strings of an array are freed as they are, without a look inside.
    let (strs, bytesRead) ← readCells readStr (fun _ => .ok ()) buf (leNat (buf.take 4)) [] 4
    .ok (.strArr strs, bytesRead)

def chrpcCmpArrayInnerValueFromBuffer (read : Bytes → SRes (InnerValue × Nat))
    (delete : InnerValue → SRes Unit) (buf : Bytes) : SRes (InnerValue × Nat) :=
  if buf.length < 4 then .error (.status chrpcUnexpectedEnd)
  else do
    let (ivs, bytesRead) ← readCells read delete buf (leNat (buf.take 4)) [] 4
    .ok (.entries ivs, bytesRead)

mutual
def chrpcInnerValueFromBuffer : ChrpcType → Bytes → SRes (InnerValue × Nat)
  | .prim p, buf =>
    if hasLenPrefix (.prim p) then chrpcBlockArrayInnerValueFromBuffer (.prim p) buf
    else chrpcNumericInnerValueFromBuffer p buf
  | .struct fields, buf => do
    let (ivs, bytesRead) ← chrpcFieldsFromBuffer fields buf [] [] 0
    .ok (.entries ivs, bytesRead)
  | .array cell, buf =>
    if chrpcTypeIsBlockable (.array cell) then
      chrpcBlockArrayInnerValueFromBuffer (.array cell) buf
    else if isStringType cell then chrpcStrArrayInnerValueFromBuffer buf
    else
      chrpcCmpArrayInnerValueFromBuffer (chrpcInnerValueFromBuffer cell)
        (deleteChrpcInnerValue cell) buf
/-- The loop over the fields of a struct; `doneTypes` and `done` are the fields read so far. -/
def chrpcFieldsFromBuffer : List ChrpcType → Bytes → List ChrpcType → List InnerValue → Nat →
    SRes (List InnerValue × Nat)
  | [], _, _, done, bytesRead => .ok (done, bytesRead)
  | t :: ts, buf, doneTypes, done, bytesRead => do
    match chrpcInnerValueFromBuffer t (← advance buf bytesRead) with
    | .ok (iv, fieldRead) =>
      chrpcFieldsFromBuffer ts buf (doneTypes ++ [t]) (done ++ [iv]) (bytesRead + fieldRead)
    | .error (.status st) => do deleteChrpcFields doneTypes done; .error (.status st)
    | .error .fault => .error .fault
end

def chrpcValueFromBuffer (buf : Bytes) : SRes (ChrpcValue × Nat) := do
  let (ct, typeReadden) ← chrpcTypeFromBuffer buf
  let (iv, valReadden) ← chrpcInnerValueFromBuffer ct (← advance buf typeReadden)
  .ok (⟨ct, iv⟩, typeReadden + valReadden)

end Chlibs.Serial

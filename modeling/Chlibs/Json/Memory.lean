import Chlibs.Infra.Counted
import Chlibs.Json.Parser

/-!
# The memory of the parser

`parser.c` once more, with the blocks that it allocates and frees. Nothing but their number is kept:
what a tree owns is clear from the tree. The strings that the parser builds are not shared, and
where a buffer grows it is reallocated, which does not count.

* `jsonFromInStreamCount` — the parser.
* `deleteJsonCount` — what a caller does with the result.
-/

namespace Chlibs.Chjson

open Infra Util

/-- A call of the parser, or one that frees what it returned. -/
abbrev JsonM := CountM ParserError InStream

variable {Num α : Type}

/-! ## Sizes -/

def sizeofPtr : Nat := 8
def sizeofString : Nat := 16
def sizeofSharedString : Nat := 32
def sizeofList : Nat := 16
def sizeofArrayList : Nat := 40
def sizeofHashMap : Nat := 72
def sizeofKeyValHeader : Nat := 16
def sizeofOutStream : Nat := 16
def sizeofStringOutStream : Nat := 8
def sizeofJson : Nat := 16

/-! ## Strings, lists and maps -/

/-- An empty string: its buffer has room for a NUL. -/
def newStringCount : JsonM Unit := do
  safeMallocCount sizeofString
  safeMallocCount sizeofSharedString
  safeMallocCount 1

/-- The buffer is as large as it was at first, or larger. -/
def deleteStringCount : JsonM Unit := do
  safeFreeCount 1
  safeFreeCount sizeofSharedString
  safeFreeCount sizeofString

/-- An array list with room for one pointer. -/
def newListCount : JsonM Unit := do
  safeMallocCount sizeofArrayList
  safeMallocCount sizeofPtr
  safeMallocCount sizeofList

def deleteListCount : JsonM Unit := do
  safeFreeCount sizeofPtr
  safeFreeCount sizeofArrayList
  safeFreeCount sizeofList

/-- A map from pointers to pointers, with eight chains. -/
def newHashMapCount : JsonM Unit := do
  safeMallocCount sizeofHashMap
  safeMallocCount (sizeofPtr * 8)

/-- A pair: the header, and the pointers to the key and to the value. -/
def sizeofKvp : Nat := sizeofKeyValHeader + sizeofPtr + sizeofPtr

/-- The loop over the chains, and over the pairs of each. -/
def deleteHashMapCount (hm : HashMap Bytes (Json Num)) : JsonM Unit := do
  hm.chains.forM fun chain => chain.forM fun _ => safeFreeCount sizeofKvp
  safeFreeCount (sizeofPtr * hm.chains.length)
  safeFreeCount sizeofHashMap

/-- The new table is there before the old one goes. -/
def hmCheckResizeCount (hm : HashMap Bytes (Json Num)) : JsonM (HashMap Bytes (Json Num)) :=
  if hm.numKeys * hmFillFactor ≤ hm.chains.length then pure hm
  else do
    safeMallocCount (sizeofPtr * (hm.chains.length * 2))
    safeFreeCount (sizeofPtr * hm.chains.length)
    pure { hm with chains := rehash hm.chains (hm.chains.length * 2) }

/-- An update frees neither the key that it was given nor the value that it overwrites. -/
def hmPutCount (hm : HashMap Bytes (Json Num)) (key : Bytes) (value : Json Num) :
    JsonM (HashMap Bytes (Json Num)) :=
  let hashVal := hm.hashFunc key
  let ind := chainInd hm.chains.length hashVal
  match updateChain (kvMatches hm hashVal key) value (chainOf hm hashVal) with
  | some chain => pure { hm with chains := hm.chains.set ind chain }
  | none => do
    safeMallocCount sizeofKvp
    hmCheckResizeCount
      { hm with
        chains := hm.chains.set ind (⟨hashVal, key, value⟩ :: chainOf hm hashVal)
        numKeys := hm.numKeys + 1 }

/-! ## Trees -/

def newJsonObjectCount : JsonM Unit := do
  newHashMapCount
  safeMallocCount sizeofJson

def newJsonListCount : JsonM Unit := do
  newListCount
  safeMallocCount sizeofJson

/-- `delete_json`. There is one `null` for all, it is never freed. -/
def deleteJsonCount : Json Num → JsonM Unit
  | .object hm => do
    (hmKvps hm).attach.forM fun kv => do
      deleteStringCount
      deleteJsonCount kv.1.value
    deleteHashMapCount hm
    safeFreeCount sizeofJson
  | .list l => do
    l.attach.forM fun json => deleteJsonCount json.1
    deleteListCount
    safeFreeCount sizeofJson
  | .string _ => do
    deleteStringCount
    safeFreeCount sizeofJson
  | .number _ => safeFreeCount sizeofJson
  | .boolean _ => safeFreeCount sizeofJson
  | .null => pure ()
termination_by json => sizeOf json
decreasing_by
  · exact sizeOf_value_lt kv.2
  · exact sizeOf_element_lt json.2

/-! ## Strings and numbers -/

/-- As much fuel as the input can need. -/
def withFuelCount (p : Nat → JsonM α) : JsonM α := fun s => p (s.1.length + 1) s

/-- `unicode_to_utf8` gets a stream of its own, which is deleted whatever it says. -/
def expectControlSuffixCount (builder : Bytes) : JsonM Bytes := do
  let c ← uncounted nextChar
  match controlChar c with
  | some control => pure (builder ++ [control])
  | none =>
    if c = 0x75 then do
      let digits ← uncounted (hexDigits 4)
      safeMallocCount sizeofStringOutStream
      safeMallocCount sizeofOutStream
      let ss := unicodeToUtf8 stringOutStream (unicodeFromCstr digits) builder
      safeFreeCount sizeofStringOutStream
      safeFreeCount sizeofOutStream
      match ss with
      | .ok _ builder' => pure builder'
      | .error _ _ => throw (.state .outputStreamError)
    else uncounted throwSyntax

def stringLoopCount : Nat → Bytes → JsonM Bytes
  | 0, _ => throw .outOfFuel
  | fuel + 1, builder => do
    let c ← uncounted nextChar
    if 0 ≤ charVal c ∧ charVal c < 0x20 then uncounted throwSyntax
    else if c = 0x22 then pure builder
    else if c = 0x5C then do
      let builder' ← expectControlSuffixCount builder
      stringLoopCount fuel builder'
    else stringLoopCount fuel (builder ++ [c])

/-- `_string_from_in_stream_no_trim` -/
def stringFromInStreamCount (builder : Bytes) : JsonM Bytes := do
  uncounted (expectChar 0x22)
  withFuelCount fun fuel => stringLoopCount fuel builder

def jsonStringFromInStreamCount : JsonM (Json Num) := do
  newStringCount
  match ← outcome (stringFromInStreamCount []) with
  | .ok s => do
    safeMallocCount sizeofJson
    pure (.string s)
  | .error ps => do
    deleteStringCount
    throw ps

def jsonNumberFromStreamCount (strtod : Bytes → Num × Nat) : JsonM (Json Num) := do
  let buf ← uncounted (numberLoop numberMaxStrWidth)
  if buf.length = 0 then uncounted throwSyntax
  else if buf.length ≠ (strtod buf).2 then uncounted throwSyntax
  else do
    safeMallocCount sizeofJson
    pure (.number (strtod buf).1)

/-! ## Lists and objects -/

/-- What stands in front of the first item, and whether there is one. -/
def firstItem (start close : UInt8) : ParserM Bool := do
  expectChar start
  trimWs
  let c ← peekChar
  if c = close then do
    consumeLah
    pure false
  else pure true

/-- What stands in front of another item, and whether there is one. -/
def nextItem (close : UInt8) : ParserM Bool := do
  trimWs
  let c ← nextChar
  if c = close then pure false
  else if c ≠ 0x2C then throwSyntax
  else do
    trimWs
    pure true

/-- The loop after the first item. It leaves what it has in `acc` also when it fails. -/
def itemsLoopCount (close : UInt8) (item : α → JsonM α) : Nat → α → JsonM (α × Option ParserError)
  | 0, acc => pure (acc, some .outOfFuel)
  | fuel + 1, acc => do
    match ← outcome (uncounted (nextItem close)) with
    | .error ps => pure (acc, some ps)
    | .ok false => pure (acc, none)
    | .ok true => do
      match ← outcome (item acc) with
      | .error ps => pure (acc, some ps)
      | .ok acc' => itemsLoopCount close item fuel acc'

/-- `_json_list_from_stream_no_trim` and `_json_object_from_stream_no_trim` -/
def itemsFromStreamCount (start close : UInt8) (item : α → JsonM α) (acc : α) :
    JsonM (α × Option ParserError) := do
  match ← outcome (uncounted (firstItem start close)) with
  | .error ps => pure (acc, some ps)
  | .ok false => pure (acc, none)
  | .ok true => do
    match ← outcome (item acc) with
    | .error ps => pure (acc, some ps)
    | .ok acc' => withFuelCount fun fuel => itemsLoopCount close item fuel acc'

section Value

variable (value : JsonM (Json Num))

def jsonElementFromStreamCount (l : List (Json Num)) : JsonM (List (Json Num)) := do
  let ele ← value
  pure (l ++ [ele])

def jsonListFromStreamCount : JsonM (Json Num) := do
  newJsonListCount
  match ← itemsFromStreamCount 0x5B 0x5D (jsonElementFromStreamCount value) [] with
  | (l, none) => pure (.list l)
  | (l, some ps) => do
    deleteJsonCount (.list l)
    throw ps

/-- `_json_kvp_from_stream_no_trim` -/
def jsonKvpPartsFromStreamCount : JsonM (Bytes × Json Num) := do
  let k ← stringFromInStreamCount []
  uncounted trimWs
  uncounted (expectChar 0x3A)
  uncounted trimWs
  let v ← value
  pure (k, v)

/-- There is no value where the parts cannot be read. -/
def jsonKvpFromStreamCount (hm : HashMap Bytes (Json Num)) : JsonM (HashMap Bytes (Json Num)) := do
  newStringCount
  match ← outcome (jsonKvpPartsFromStreamCount value) with
  | .ok (k, v) => hmPutCount hm k v
  | .error ps => do
    deleteStringCount
    throw ps

def jsonObjectFromStreamCount : JsonM (Json Num) := do
  newJsonObjectCount
  match ← itemsFromStreamCount 0x7B 0x7D (jsonKvpFromStreamCount value) newObject with
  | (hm, none) => pure (.object hm)
  | (hm, some ps) => do
    deleteJsonCount (.object hm)
    throw ps

end Value

/-! ## Values -/

/-- The fuel is for the depth of the value. -/
def jsonFromInStreamNoTrimCount (strtod : Bytes → Num × Nat) : Nat → JsonM (Json Num)
  | 0 => throw .outOfFuel
  | fuel + 1 => do
    let c ← uncounted peekChar
    if c = 0x7B then jsonObjectFromStreamCount (jsonFromInStreamNoTrimCount strtod fuel)
    else if c = 0x5B then jsonListFromStreamCount (jsonFromInStreamNoTrimCount strtod fuel)
    else if c = 0x22 then jsonStringFromInStreamCount
    else if c = 0x66 then do
      uncounted (expectCstr [0x66, 0x61, 0x6C, 0x73, 0x65])
      safeMallocCount sizeofJson
      pure (.boolean false)
    else if c = 0x74 then do
      uncounted (expectCstr [0x74, 0x72, 0x75, 0x65])
      safeMallocCount sizeofJson
      pure (.boolean true)
    else if c = 0x6E then do
      uncounted (expectCstr [0x6E, 0x75, 0x6C, 0x6C])
      pure .null
    else jsonNumberFromStreamCount strtod

def jsonFromInStreamCount (strtod : Bytes → Num × Nat) : JsonM (Json Num) := do
  uncounted trimWs
  withFuelCount fun fuel => jsonFromInStreamNoTrimCount strtod fuel

end Chlibs.Chjson

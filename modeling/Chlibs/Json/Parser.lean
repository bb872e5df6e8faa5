import Chlibs.Json.Json

/-!
# Parsing JSON

`parser.c`. Every call works on what is left of the input and ends with a result or with a
parser state. `strtod` is a parameter: the number, and how many characters it took.

* The functions that read lists and objects take the function that reads a value.
* A loop has fuel for every character that is left, and so has the depth of the recursion.
-/

namespace Chlibs.Chjson

open Infra Util

/-- `parser_state_t` -/
inductive ParserState where
  | success
  | inputStreamError
  | outputStreamError
  | syntaxError
  deriving DecidableEq, Repr

/-- What ends a call that does not succeed. -/
inductive ParserError where
  | state (ps : ParserState)
  | outOfFuel
  deriving DecidableEq, Repr

abbrev ParserM := EStateM ParserError InStream

variable {Num α : Type}

def throwSyntax : ParserM α := throw (.state .syntaxError)

/-- As much fuel as the input can need. -/
def withFuel (p : Nat → ParserM α) : ParserM α := fun is => p (is.length + 1) is

/-! ## Characters -/

/-- `is_next_char`, then `ASSERT_NOT_EMPTY`. -/
def nextChar : ParserM UInt8 := fun is =>
  match isNextChar is with
  | .ok (c, is') => .ok c is'
  | .error .empty => .error (.state .syntaxError) is
  | .error _ => .error (.state .inputStreamError) is

/-- `is_peek_char`, then `ASSERT_NOT_EMPTY`. -/
def peekChar : ParserM UInt8 := fun is =>
  match isPeekChar is with
  | .ok c => .ok c is
  | .error .empty => .error (.state .syntaxError) is
  | .error _ => .error (.state .inputStreamError) is

/-- `CONSUME_LAH` -/
def consumeLah : ParserM Unit := fun is =>
  match isNextChar is with
  | .ok (_, is') => .ok () is'
  | .error _ => .error (.state .inputStreamError) is

/-- `is_next_char`, then `ASSERT_CHAR_FOUND`. -/
def expectChar (expected : UInt8) : ParserM Unit := do
  let actual ← nextChar
  if expected = actual then pure () else throwSyntax

def expectCstr : Bytes → ParserM Unit
  | [] => pure ()
  | c :: cs => do
    expectChar c
    expectCstr cs

def isWhitespace (c : UInt8) : Bool := c == 0x20 || c == 0x0A || c == 0x0D || c == 0x09

/-- One turn of the loop for each character that is left, an empty stream ends it. -/
def trimWs : ParserM Unit
  | [] => .ok () []
  | c :: is => if isWhitespace c then trimWs is else .ok () (c :: is)

/-! ## Strings -/

/-- The escapes of one letter. There is none for a quote. -/
def controlChar (c : UInt8) : Option UInt8 :=
  if c = 0x5C then some 0x5C
  else if c = 0x2F then some 0x2F
  else if c = 0x62 then some 0x08
  else if c = 0x66 then some 0x0C
  else if c = 0x6E then some 0x0A
  else if c = 0x72 then some 0x0D
  else if c = 0x74 then some 0x09
  else none

def isHexDigit (c : UInt8) : Bool :=
  (0x30 ≤ charVal c && charVal c ≤ 0x39) || (0x61 ≤ charVal c && charVal c ≤ 0x66) ||
    (0x41 ≤ charVal c && charVal c ≤ 0x46)

/-- The loop that fills `hex_digits`. -/
def hexDigits : Nat → ParserM Bytes
  | 0 => pure []
  | i + 1 => do
    let c ← nextChar
    if isHexDigit c then do
      let digits ← hexDigits i
      pure (c :: digits)
    else throwSyntax

/-- What a backslash has before it is in `builder`, the backslash is read. -/
def expectControlSuffix (builder : Bytes) : ParserM Bytes := do
  let c ← nextChar
  match controlChar c with
  | some control => pure (builder ++ [control])
  | none =>
    if c = 0x75 then do
      let digits ← hexDigits 4
      match unicodeToUtf8 stringOutStream (unicodeFromCstr digits) builder with
      | .ok _ builder' => pure builder'
      | .error _ _ => throw (.state .outputStreamError)
    else throwSyntax

/-- The loop after the opening quote. -/
def stringLoop : Nat → Bytes → ParserM Bytes
  | 0, _ => throw .outOfFuel
  | fuel + 1, builder => do
    let c ← nextChar
    if 0 ≤ charVal c ∧ charVal c < 0x20 then throwSyntax
    else if c = 0x22 then pure builder
    else if c = 0x5C then do
      let builder' ← expectControlSuffix builder
      stringLoop fuel builder'
    else stringLoop fuel (builder ++ [c])

def stringFromInStreamNoTrim (builder : Bytes) : ParserM Bytes := do
  expectChar 0x22
  withFuel fun fuel => stringLoop fuel builder

def jsonStringFromInStreamNoTrim : ParserM (Json Num) := do
  let s ← stringFromInStreamNoTrim []
  pure (.string s)

/-! ## Numbers -/

def isNumberLike (c : UInt8) : Bool :=
  (c == 0x65 || c == 0x45) || (0x30 ≤ charVal c && charVal c ≤ 0x39) ||
    (c == 0x2B || c == 0x2D) || c == 0x2E

/-- The loop that fills `buf`, which has so many places left. -/
def numberLoop : Nat → ParserM Bytes
  | 0, is => .ok [] is
  | _ + 1, [] => .ok [] []
  | i + 1, c :: is =>
    if isNumberLike c then
      match numberLoop i is with
      | .ok buf is' => .ok (c :: buf) is'
      | .error ps is' => .error ps is'
    else .ok [] (c :: is)

def jsonNumberFromStreamNoTrim (strtod : Bytes → Num × Nat) : ParserM (Json Num) := do
  let buf ← numberLoop numberMaxStrWidth
  if buf.length = 0 then throwSyntax
  else if buf.length ≠ (strtod buf).2 then throwSyntax
  else pure (.number (strtod buf).1)

/-! ## Lists and objects -/

/-- The loop after the first item. -/
def itemsLoop (close : UInt8) (item : α → ParserM α) : Nat → α → ParserM α
  | 0, _ => throw .outOfFuel
  | fuel + 1, acc => do
    trimWs
    let c ← nextChar
    if c = close then pure acc
    else if c ≠ 0x2C then throwSyntax
    else do
      trimWs
      let acc' ← item acc
      itemsLoop close item fuel acc'

/-- What lists and objects have in common. -/
def itemsFromStream (start close : UInt8) (item : α → ParserM α) (acc : α) : ParserM α := do
  expectChar start
  trimWs
  let c ← peekChar
  if c = close then do
    consumeLah
    pure acc
  else do
    let acc' ← item acc
    withFuel fun fuel => itemsLoop close item fuel acc'

section Value

variable (value : ParserM (Json Num))

def jsonElementFromStream (l : List (Json Num)) : ParserM (List (Json Num)) := do
  let ele ← value
  pure (l ++ [ele])

def jsonListFromStreamNoTrim : ParserM (Json Num) := do
  let l ← itemsFromStream 0x5B 0x5D (jsonElementFromStream value) []
  pure (.list l)

def jsonKvpFromStreamNoTrim (hm : HashMap Bytes (Json Num)) :
    ParserM (HashMap Bytes (Json Num)) := do
  let k ← stringFromInStreamNoTrim []
  trimWs
  expectChar 0x3A
  trimWs
  let v ← value
  pure (hmPut hm k v)

def jsonObjectFromStreamNoTrim : ParserM (Json Num) := do
  let hm ← itemsFromStream 0x7B 0x7D (jsonKvpFromStreamNoTrim value) newObject
  pure (.object hm)

end Value

/-! ## Values -/

/-- The fuel is for the depth of the value. -/
def jsonFromInStreamNoTrim (strtod : Bytes → Num × Nat) : Nat → ParserM (Json Num)
  | 0 => throw .outOfFuel
  | fuel + 1 => do
    let c ← peekChar
    if c = 0x7B then jsonObjectFromStreamNoTrim (jsonFromInStreamNoTrim strtod fuel)
    else if c = 0x5B then jsonListFromStreamNoTrim (jsonFromInStreamNoTrim strtod fuel)
    else if c = 0x22 then jsonStringFromInStreamNoTrim
    else if c = 0x66 then do
      expectCstr [0x66, 0x61, 0x6C, 0x73, 0x65]
      pure (.boolean false)
    else if c = 0x74 then do
      expectCstr [0x74, 0x72, 0x75, 0x65]
      pure (.boolean true)
    else if c = 0x6E then do
      expectCstr [0x6E, 0x75, 0x6C, 0x6C]
      pure .null
    else jsonNumberFromStreamNoTrim strtod

def jsonFromInStream (strtod : Bytes → Num × Nat) : ParserM (Json Num) := do
  trimWs
  withFuel fun fuel => jsonFromInStreamNoTrim strtod fuel

end Chlibs.Chjson

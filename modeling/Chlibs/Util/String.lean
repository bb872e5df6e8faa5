import Chlibs.Infra.Bytes
import Chlibs.Infra.Heap

/-!
# Copy-on-write strings

`string.c`, over a memory with a heap for each type of block. A `size_t` is a `Nat`.

A function returns `none` where the C code is undefined: a load or a store outside a live block,
a use of the wrong half of the union in `string_t`, a read of characters never written.
-/

namespace Chlibs.Util

open Infra

/-- A place in a block of characters. -/
structure CharPtr where
  block : Nat
  off : Nat
  deriving DecidableEq, Repr

/-- `shared_string_t` -/
structure SharedString where
  refCount : Nat
  cap : Nat
  len : Nat
  /-- the block of characters -/
  buf : Nat

/-- `shared_literal_t` -/
structure SharedLiteral where
  refCount : Nat
  len : Nat
  literal : CharPtr

/-- `string_t`: the flag `from_literal` with the half of the union it stands for. -/
inductive StringT where
  | literal (sl : Nat)
  | shared (ss : Nat)
  deriving DecidableEq, Repr

structure StringMem where
  /-- buffers, and the texts of the callers -/
  chars : Heap Chars
  sharedStrings : Heap SharedString
  sharedLiterals : Heap SharedLiteral
  strings : Heap StringT

namespace StringMem

def empty : StringMem := ⟨.empty, .empty, .empty, .empty⟩

/-! ## Characters -/

/-- The C string at a place. -/
def cstr (m : StringMem) (p : CharPtr) : Option Bytes := do
  Chars.cstr ((← m.chars.load p.block).drop p.off)

/-- `strlen` -/
def strlen (m : StringMem) (p : CharPtr) : Option Nat := (m.cstr p).map List.length

/-- The source of a `memcpy`. -/
def loadChars (m : StringMem) (p : CharPtr) (len : Nat) : Option Chars := do
  let block ← m.chars.load p.block
  if p.off + len ≤ block.length then some ((block.drop p.off).take len) else none

/-- The destination of a `memcpy`, a `strcpy` or an assignment. -/
def storeChars (m : StringMem) (p : CharPtr) (cs : Chars) : Option StringMem := do
  let block ← m.chars.load p.block
  if p.off + cs.length ≤ block.length then
    let chars ← m.chars.store p.block (Chars.splice block p.off cs)
    some { m with chars := chars }
  else none

/-- `safe_malloc` of characters. -/
def mallocChars (m : StringMem) (size : Nat) : Nat × StringMem :=
  let (block, chars) := m.chars.alloc (List.replicate size none)
  (block, { m with chars := chars })

/-- `safe_realloc` to a size that is not smaller. -/
def reallocChars (m : StringMem) (block size : Nat) : Option (Nat × StringMem) := do
  let cs ← m.chars.load block
  let (block', chars) := m.chars.alloc (cs ++ List.replicate (size - cs.length) none)
  let chars ← chars.free block
  some (block', { m with chars := chars })

def freeChars (m : StringMem) (block : Nat) : Option StringMem := do
  let chars ← m.chars.free block
  some { m with chars := chars }

/-! ## Structures -/

def storeShared (m : StringMem) (ss : Nat) (s : SharedString) : Option StringMem := do
  let sharedStrings ← m.sharedStrings.store ss s
  some { m with sharedStrings := sharedStrings }

def freeShared (m : StringMem) (ss : Nat) : Option StringMem := do
  let sharedStrings ← m.sharedStrings.free ss
  some { m with sharedStrings := sharedStrings }

def storeLiteral (m : StringMem) (sl : Nat) (l : SharedLiteral) : Option StringMem := do
  let sharedLiterals ← m.sharedLiterals.store sl l
  some { m with sharedLiterals := sharedLiterals }

def freeLiteral (m : StringMem) (sl : Nat) : Option StringMem := do
  let sharedLiterals ← m.sharedLiterals.free sl
  some { m with sharedLiterals := sharedLiterals }

/-- `safe_malloc` of a `string_t`, and the assignment of its fields. -/
def newStringT (m : StringMem) (s : StringT) : Nat × StringMem :=
  let (a, strings) := m.strings.alloc s
  (a, { m with strings := strings })

def storeStringT (m : StringMem) (a : Nat) (s : StringT) : Option StringMem := do
  let strings ← m.strings.store a s
  some { m with strings := strings }

def freeStringT (m : StringMem) (a : Nat) : Option StringMem := do
  let strings ← m.strings.free a
  some { m with strings := strings }

end StringMem

/-! ## Construction -/

/-- `if (len > 0) memcpy(buf, cstr, len)` -/
def copyCstr (m : StringMem) (buf : Nat) (cstr : Option CharPtr) (len : Nat) :
    Option StringMem :=
  if 0 < len then do m.storeChars ⟨buf, 0⟩ (← m.loadChars (← cstr) len) else some m

/-- `new_shared_string` once its sizes are settled. -/
def allocShared (m : StringMem) (cstr : Option CharPtr) (len cap : Nat) :
    Option (Nat × StringMem) := do
  let (buf, m) := m.mallocChars cap
  let m ← copyCstr m buf cstr len
  let m ← m.storeChars ⟨buf, len⟩ [some 0]
  let (ss, sharedStrings) := m.sharedStrings.alloc
    { refCount := 1, cap := cap, len := len, buf := buf }
  some (ss, { m with sharedStrings := sharedStrings })

/-- `cstr` is `none` for a null pointer. -/
def newSharedString (m : StringMem) (cstr : Option CharPtr) (len cap : Nat) :
    Option (Nat × StringMem) :=
  match cstr with
  | none => allocShared m none 0 1
  | some _ => allocShared m cstr len (if cap < len + 1 then len + 1 else cap)

def newString (m : StringMem) : Option (Nat × StringMem) := do
  let (ss, m) ← newSharedString m none 0 1
  some (m.newStringT (.shared ss))

def newStringFromCstr (m : StringMem) : Option CharPtr → Option (Nat × StringMem)
  | none => newString m
  | some cstr => do
    let cstrLen ← m.strlen cstr
    let (ss, m) ← newSharedString m (some cstr) cstrLen (cstrLen + 1)
    some (m.newStringT (.shared ss))

def newStringFromLiteral (m : StringMem) : Option CharPtr → Option (Nat × StringMem)
  | none => newString m
  | some literal => do
    let (sl, sharedLiterals) := m.sharedLiterals.alloc
      { refCount := 1, len := ← m.strlen literal, literal := literal }
    some ({ m with sharedLiterals := sharedLiterals }.newStringT (.literal sl))

/-! ## References -/

/-- What one reference to a block being given back does; `s` is what the string holds. -/
def releaseRef (m : StringMem) : StringT → Option StringMem
  | .literal sl => do
    let l ← m.sharedLiterals.load sl
    let m ← m.storeLiteral sl { l with refCount := l.refCount - 1 }
    if l.refCount - 1 = 0 then m.freeLiteral sl else some m
  | .shared ss => do
    let b ← m.sharedStrings.load ss
    let m ← m.storeShared ss { b with refCount := b.refCount - 1 }
    if b.refCount - 1 = 0 then do (← m.freeChars b.buf).freeShared ss else some m

def sReleaseShared (m : StringMem) (s : Nat) : Option StringMem := do
  releaseRef m (← m.strings.load s)

def deleteString (m : StringMem) (s : Nat) : Option StringMem := do
  (← sReleaseShared m s).freeStringT s

def sCopy (m : StringMem) (s : Nat) : Option (Nat × StringMem) := do
  match ← m.strings.load s with
  | .literal sl => do
    let l ← m.sharedLiterals.load sl
    let m ← m.storeLiteral sl { l with refCount := l.refCount + 1 }
    some (m.newStringT (.literal sl))
  | .shared ss => do
    let b ← m.sharedStrings.load ss
    let m ← m.storeShared ss { b with refCount := b.refCount + 1 }
    some (m.newStringT (.shared ss))

/-! ## Reading -/

def sLen (m : StringMem) (s : Nat) : Option Nat := do
  match ← m.strings.load s with
  | .literal sl => (m.sharedLiterals.load sl).map SharedLiteral.len
  | .shared ss => (m.sharedStrings.load ss).map SharedString.len

def sGetCstr (m : StringMem) (s : Nat) : Option CharPtr := do
  match ← m.strings.load s with
  | .literal sl => (m.sharedLiterals.load sl).map SharedLiteral.literal
  | .shared ss => (m.sharedStrings.load ss).map fun b => ⟨b.buf, 0⟩

def sGetChar (m : StringMem) (s i : Nat) : Option UInt8 := do
  let p ← sGetCstr m s
  let block ← m.chars.load p.block
  let c ← block[p.off + i]?
  c

/-! ## Modifying -/

/-- `s->ss`, for a string that is not from a literal. -/
def sharedOf (m : StringMem) (s : Nat) : Option (Nat × SharedString) := do
  match ← m.strings.load s with
  | .literal _ => none
  | .shared ss => do some (ss, ← m.sharedStrings.load ss)

/-- The string gets a buffer of its own, and `s` lets go of the one it had. -/
def sUnshare (m : StringMem) (s : Nat) (cstr : CharPtr) (len minCap : Nat) :
    Option StringMem := do
  let (ss, m) ← newSharedString m (some cstr) len minCap
  let m ← sReleaseShared m s
  m.storeStringT s (.shared ss)

def sPrepareModify (m : StringMem) (s minCap : Nat) : Option StringMem := do
  let len ← sLen m s
  let minCap := if minCap < len + 1 then len + 1 else minCap
  match ← m.strings.load s with
  | .literal sl => do sUnshare m s (← m.sharedLiterals.load sl).literal len minCap
  | .shared ss => do
    let b ← m.sharedStrings.load ss
    if 1 < b.refCount then sUnshare m s ⟨b.buf, 0⟩ len minCap
    else if minCap ≤ b.cap then some m
    else
      let newCap := if b.cap * 2 < minCap then minCap else b.cap * 2
      let (buf, m) ← m.reallocChars b.buf newCap
      m.storeShared ss { b with buf := buf, cap := newCap }

def sAppendChar (m : StringMem) (s : Nat) (c : UInt8) : Option StringMem := do
  let minCap := (← sLen m s) + 2
  let m ← sPrepareModify m s minCap
  let (ss, b) ← sharedOf m s
  let m ← m.storeChars ⟨b.buf, b.len⟩ [some c]
  let m ← m.storeChars ⟨b.buf, b.len + 1⟩ [some 0]
  m.storeShared ss { b with len := b.len + 1 }

/-- `strcpy` reads `addition` after the string was prepared. -/
def sAppendCstr (m : StringMem) (s : Nat) (addition : CharPtr) : Option StringMem := do
  let len ← sLen m s
  let addLen ← m.strlen addition
  let minCap := len + addLen + 1
  let m ← sPrepareModify m s minCap
  let (ss, b) ← sharedOf m s
  let m ← m.storeChars ⟨b.buf, len⟩ (((← m.cstr addition) ++ [0]).map some)
  m.storeShared ss { b with len := len + addLen }

def sAppendString (m : StringMem) (s addition : Nat) : Option StringMem := do
  sAppendCstr m s (← sGetCstr m addition)

def sSetChar (m : StringMem) (s i : Nat) (c : UInt8) : Option StringMem := do
  let len ← sLen m s
  let m ← sPrepareModify m s (len + 1)
  let (_, b) ← sharedOf m s
  m.storeChars ⟨b.buf, i⟩ [some c]

end Chlibs.Util

import Chlibs.Infra.Cursor
import Chlibs.Infra.Links

/-!
# Lists

`list.c`, `list.h` and `list_helpers.c`: the array list, the linked list, and the functions over
both. The cells have any type.

* A cell of an array list is told by its index, that of a linked list by the address of its node.
* Each list has its place of iteration in itself.
* A function gives `none` where the C code is undefined: a use of `NULL` or of a freed node, a
  store outside the array, a load of a cell that was never written.
-/

namespace Chlibs.Util

open Infra

variable {α : Type}

/-- `if (dest) memcpy(dest, cell, cell_size)`: what is copied. -/
def copyTo (dest : Bool) (cell : Option α) : Option (Option α) :=
  if dest then cell.map some else some none

/-! ## Array lists -/

/-- `array_list_t`. A cell that was never written is `none`. -/
structure ArrayList (α : Type) where
  cap : Nat
  len : Nat
  arr : List (Option α)
  iterInd : Nat

namespace ArrayList

/-- The source of a `memcpy`. -/
def load (al : ArrayList α) (i : Nat) : Option α := al.arr[i]?.join

/-- The destination of a `memcpy`. -/
def store (al : ArrayList α) (i : Nat) (x : α) : Option (ArrayList α) :=
  if i < al.arr.length then some { al with arr := al.arr.set i (some x) } else none

end ArrayList

/-- Nobody sets `iter_ind`. -/
def newArrayList (iterInd : Nat) : ArrayList α :=
  { cap := 1, len := 0, arr := [none], iterInd := iterInd }

def alLen (al : ArrayList α) : Nat := al.len

/-- The `i`-th cell is `i` cells behind the first. -/
def alGet (_al : ArrayList α) (i : Nat) : Nat := i

def alGetCopy (al : ArrayList α) (i : Nat) : Option α := al.load (alGet al i)

def alSet (al : ArrayList α) (i : Nat) (src : α) : Option (ArrayList α) := al.store (alGet al i) src

/-- `safe_realloc` to a capacity that is not smaller. -/
def alResize (al : ArrayList α) (newCap : Nat) : ArrayList α :=
  { al with arr := al.arr ++ List.replicate (newCap - al.arr.length) none, cap := newCap }

def alPush (al : ArrayList α) (src : α) : Option (ArrayList α) := do
  let al := if al.len = al.cap then alResize al (al.cap * 2) else al
  let al ← alSet al al.len src
  some { al with len := al.len + 1 }

/-- What is copied to `dest`, which may be `NULL`. -/
def alPop (al : ArrayList α) (dest : Bool) : Option (Option α × ArrayList α) :=
  if al.len = 0 then some (none, al)
  else do
    let out ← copyTo dest (al.load (alGet al (al.len - 1)))
    some (out, { al with len := al.len - 1 })

/-- `while (next <= end)`, for a bounded number of turns. -/
def alPollLoop (fin : Nat) : Nat → Nat → Nat → ArrayList α → Option (ArrayList α)
  | 0, _, _, _ => none
  | fuel + 1, curr, next, al =>
    if next ≤ fin then do
      let al ← al.store curr (← al.load next)
      alPollLoop fin fuel next (next + 1) al
    else some al

def alPoll (al : ArrayList α) (dest : Bool) : Option (Option α × ArrayList α) :=
  if al.len = 0 then some (none, al)
  else do
    let out ← copyTo dest (al.load 0)
    let al ← alPollLoop (alGet al (al.len - 1)) al.len (alGet al 0) (alGet al 1) al
    some (out, { al with len := al.len - 1 })

def alResetIterator (al : ArrayList α) : ArrayList α := { al with iterInd := 0 }

/-- The place of a cell, or `NULL`. -/
def alNext (al : ArrayList α) : Option Nat × ArrayList α :=
  if al.iterInd < al.len then (some (alGet al al.iterInd), { al with iterInd := al.iterInd + 1 })
  else (none, al)

/-- `NULL`, or the block of the cells that are in use. -/
def deleteAndMoveArrayList (al : ArrayList α) : Option (Option (List α)) :=
  if al.len = 0 then some none else ((al.arr.take al.len).mapM id).map some

/-! ## Linked lists -/

/-- `linked_list_t`, with its nodes. -/
structure LinkedList (α : Type) where
  len : Nat
  first : Option Nat
  last : Option Nat
  iter : Option Nat
  nodes : Heap (Node α)

namespace LinkedList

/-- The cell behind a header. -/
def load (ll : LinkedList α) (a : Nat) : Option α := (ll.nodes.load a).map Node.cell

def store (ll : LinkedList α) (a : Nat) (x : α) : Option (LinkedList α) := do
  let node ← ll.nodes.load a
  let nodes ← ll.nodes.store a { node with cell := x }
  some { ll with nodes := nodes }

def setNext (ll : LinkedList α) (a : Nat) (next : Option Nat) : Option (LinkedList α) := do
  let node ← ll.nodes.load a
  let nodes ← ll.nodes.store a { node with next := next }
  some { ll with nodes := nodes }

def setPrev (ll : LinkedList α) (a : Nat) (prev : Option Nat) : Option (LinkedList α) := do
  let node ← ll.nodes.load a
  let nodes ← ll.nodes.store a { node with prev := prev }
  some { ll with nodes := nodes }

def free (ll : LinkedList α) (a : Nat) : Option (LinkedList α) := do
  let nodes ← ll.nodes.free a
  some { ll with nodes := nodes }

end LinkedList

/-- Nobody sets `iter`. -/
def newLinkedList (iter : Option Nat) : LinkedList α :=
  { len := 0, first := none, last := none, iter := iter, nodes := .empty }

def llLen (ll : LinkedList α) : Nat := ll.len

/-- `while (node && i < cnt)`, for a bounded number of turns. -/
def llGetLoop (ll : LinkedList α) (i : Nat) : Nat → Option Nat → Nat → Option (Option Nat)
  | 0, _, _ => none
  | _ + 1, none, _ => some none
  | fuel + 1, some node, cnt =>
    if i < cnt then do llGetLoop ll i fuel (← ll.nodes.load node).next (cnt + 1)
    else some (some node)

/-- The place of a cell, or `NULL`. -/
def llGet (ll : LinkedList α) (i : Nat) : Option (Option Nat) :=
  llGetLoop ll i (ll.len + 1) ll.first 0

def llGetCopy (ll : LinkedList α) (i : Nat) : Option α := do ll.load (← ← llGet ll i)

def llSet (ll : LinkedList α) (i : Nat) (src : α) : Option (LinkedList α) := do
  ll.store (← ← llGet ll i) src

/-- The cell is written once the node is linked, nobody reads it before. -/
def llPush (ll : LinkedList α) (src : α) : Option (LinkedList α) := do
  let (node, nodes) := ll.nodes.alloc { prev := ll.last, next := none, cell := src }
  let ll := { ll with nodes := nodes }
  let ll ← match ll.last with
    | some last => ll.setNext last (some node)
    | none => some { ll with first := some node }
  some { ll with last := some node, len := ll.len + 1 }

def llPop (ll : LinkedList α) (dest : Bool) : Option (Option α × LinkedList α) :=
  if ll.len = 0 then some (none, ll)
  else do
    let last ← ll.last
    let out ← copyTo dest (ll.load last)
    let ll := { ll with last := (← ll.nodes.load last).prev }
    let ll ← match ll.last with
      | some newLast => ll.setNext newLast none
      | none => some { ll with first := none }
    let ll ← { ll with len := ll.len - 1 }.free last
    some (out, ll)

def llPoll (ll : LinkedList α) (dest : Bool) : Option (Option α × LinkedList α) :=
  if ll.len = 0 then some (none, ll)
  else do
    let first ← ll.first
    let out ← copyTo dest (ll.load first)
    let ll := { ll with first := (← ll.nodes.load first).next }
    let ll ← match ll.first with
      | some newFirst => ll.setPrev newFirst none
      | none => some { ll with last := none }
    let ll ← { ll with len := ll.len - 1 }.free first
    some (out, ll)

def llResetIterator (ll : LinkedList α) : LinkedList α := { ll with iter := ll.first }

/-- The place of a cell, or `NULL`. -/
def llNext (ll : LinkedList α) : Option (Option Nat × LinkedList α) :=
  match ll.iter with
  | none => some (none, ll)
  | some iter => do some (some iter, { ll with iter := (← ll.nodes.load iter).next })

/-- `while (curr)`, for a bounded number of turns. -/
def deleteNodesLoop : Nat → Option Nat → LinkedList α → Option (LinkedList α)
  | 0, _, _ => none
  | _ + 1, none, ll => some ll
  | fuel + 1, some curr, ll => do
    let next := (← ll.nodes.load curr).next
    deleteNodesLoop fuel next (← ll.free curr)

/-- What is left once the list is gone. -/
def deleteLinkedList (ll : LinkedList α) : Option (LinkedList α) :=
  deleteNodesLoop (ll.len + 1) ll.first ll

/-- `while (node)`: the cells go into a block with room for `room` more. -/
def copyNodesLoop (ll : LinkedList α) : Nat → Nat → Option Nat → Option (List α)
  | 0, _, _ => none
  | _ + 1, _, none => some []
  | _ + 1, 0, some _ => none
  | fuel + 1, room + 1, some node => do
    let n ← ll.nodes.load node
    let cells ← copyNodesLoop ll fuel room n.next
    some (n.cell :: cells)

/-- `NULL` or a block of the cells, and what is left of the list. -/
def deleteAndMoveLinkedList (ll : LinkedList α) : Option (Option (List α) × LinkedList α) :=
  if ll.len = 0 then do some (none, ← deleteLinkedList ll)
  else do
    let res ← copyNodesLoop ll (ll.len + 1) ll.len ll.first
    some (some res, ← deleteLinkedList ll)

/-! ## Both -/

/-- `ARRAY_LIST_IMPL`, `LINKED_LIST_IMPL` -/
inductive ListImpl where
  | arrayList
  | linkedList
  deriving DecidableEq, Repr

/-- `list_t`: the list, and by its constructor the `impl` of it. -/
inductive ListT (α : Type) where
  | array (al : ArrayList α)
  | linked (ll : LinkedList α)

def ListT.impl : ListT α → ListImpl
  | .array _ => .arrayList
  | .linked _ => .linkedList

/-- What stands where nobody has set the iterator. -/
structure Garbage where
  iterInd : Nat
  iter : Option Nat

def newList (garbage : Garbage) : ListImpl → ListT α
  | .arrayList => .array (newArrayList garbage.iterInd)
  | .linkedList => .linked (newLinkedList garbage.iter)

def lLen : ListT α → Nat
  | .array al => alLen al
  | .linked ll => llLen ll

/-- The place of a cell, or `NULL`. -/
def lGet (i : Nat) : ListT α → Option (Option Nat)
  | .array al => some (some (alGet al i))
  | .linked ll => llGet ll i

/-- What is at a place. -/
def ListT.load (p : Nat) : ListT α → Option α
  | .array al => al.load p
  | .linked ll => ll.load p

def lGetCopy (i : Nat) : ListT α → Option α
  | .array al => alGetCopy al i
  | .linked ll => llGetCopy ll i

def lSet (i : Nat) (src : α) : ListT α → Option (ListT α)
  | .array al => (alSet al i src).map .array
  | .linked ll => (llSet ll i src).map .linked

def lPush (src : α) : CallM (ListT α) Unit
  | .array al => (alPush al src).map fun al => ((), .array al)
  | .linked ll => (llPush ll src).map fun ll => ((), .linked ll)

def lPop (dest : Bool) : CallM (ListT α) (Option α)
  | .array al => (alPop al dest).map fun (out, al) => (out, .array al)
  | .linked ll => (llPop ll dest).map fun (out, ll) => (out, .linked ll)

def lPoll (dest : Bool) : CallM (ListT α) (Option α)
  | .array al => (alPoll al dest).map fun (out, al) => (out, .array al)
  | .linked ll => (llPoll ll dest).map fun (out, ll) => (out, .linked ll)

def lResetIterator : CallM (ListT α) Unit
  | .array al => some ((), .array (alResetIterator al))
  | .linked ll => some ((), .linked (llResetIterator ll))

/-- The place of a cell, or `NULL`. -/
def lNext : CallM (ListT α) (Option Nat)
  | .array al => some ((alNext al).1, .array (alNext al).2)
  | .linked ll => (llNext ll).map fun (p, ll) => (p, .linked ll)

/-- `NULL`, or a block of the cells. -/
def deleteAndMoveList : ListT α → Option (Option (List α))
  | .array al => deleteAndMoveArrayList al
  | .linked ll => (deleteAndMoveLinkedList ll).map Prod.fst

/-! ## Iteration -/

/-- A call that only reads the list. -/
def readList {β : Type} (f : ListT α → β) : CallM (ListT α) β := fun l => some (f l, l)

/-- `l_next`, and what is at the place that it returns. -/
def lNextCell : CallM (ListT α) (Option α) := do
  match ← lNext with
  | none => pure none
  | some p => fun l => (l.load p).map fun x => (some x, l)

/-- A reset, and then calls until there is no cell left. -/
def lIterate : CallM (ListT α) (List α) := do
  let len ← readList lLen
  lResetIterator
  drain lNextCell (len + 1)

section Equality

variable {σ : Type} (lists : Part σ (Heap (ListT α)))

/-- `(cell1 = l_next(l1)) && (cell2 = l_next(l2))` -/
def lNextBoth (l1 l2 : Nat) : CallM σ (Option (α × α)) := do
  match ← onBlock lists l1 lNextCell with
  | none => pure none
  | some cell1 => do
    match ← onBlock lists l2 lNextCell with
    | none => pure none
    | some cell2 => pure (some (cell1, cell2))

/-- `l_equals` on the lists at two addresses. A call of `eq` may iterate over other lists. -/
def lEquals (l1 l2 : Nat) (eq : α → α → CallM σ Bool) : CallM σ Bool := do
  let len1 ← onBlock lists l1 (readList lLen)
  let len2 ← onBlock lists l2 (readList lLen)
  if len1 ≠ len2 then pure false
  else do
    onBlock lists l1 lResetIterator
    onBlock lists l2 lResetIterator
    checkAll (lNextBoth lists l1 l2) (fun cells => eq cells.1 cells.2) (len1 + 1)

end Equality

end Chlibs.Util

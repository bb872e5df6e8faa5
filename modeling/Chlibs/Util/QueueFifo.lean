import Chlibs.Infra.Calls
import Chlibs.Util.Queue

/-!
# The ring buffer is a bounded FIFO

`queue_t` as the code has it, with nothing known of its indices, and calls that are undefined where
they leave the table or read a cell that was never written. What the calls do is what a list of at
most `cap` elements does.

* `Queue.erase` — a `Queue` without its facts.
* `qPushAt_erase`, `qPollTo_erase`, `qPeekAt_erase` — the calls keep the facts, and are defined.
* `queue_refines_fifo` — any sequence of calls on a new queue.
-/

namespace Chlibs.Util

open Infra

variable {α : Type}

/-! ## Calls -/

/-- `queue_t`. A cell that was never written is `none`. -/
structure QueueT (α : Type) where
  cap : Nat
  len : Nat
  i : Nat
  table : List (Option α)

/-- `new_queue`: `NULL` for a capacity of 0. -/
def newQueueT (cap : Nat) : Option (QueueT α) :=
  if cap = 0 then none else some ⟨cap, 0, 0, List.replicate cap none⟩

/-- `q_push`. The source may be `NULL`. -/
def qPushAt (src : Option α) : CallM (QueueT α) Nat := fun q =>
  if q.cap = q.len then some (1, q)
  else match src with
    | none => some (1, q)
    | some a =>
      let pushInd := (q.i + q.len) % q.cap
      if pushInd < q.table.length then
        some (0, { q with table := q.table.set pushInd (some a), len := q.len + 1 })
      else none

/-- `q_poll`: the status, and what is in the destination if there is one. -/
def qPollTo (dest : Bool) : CallM (QueueT α) (Nat × Option α) := fun q =>
  if q.len = 0 then some ((1, none), q)
  else do
    let copied ← if dest then q.table[q.i]?.join.map some else some none
    some ((0, copied),
      { q with i := if q.i + 1 = q.cap then 0 else q.i + 1, len := q.len - 1 })

/-- `q_peek`: what it points to, or `NULL`. -/
def qPeekAt : CallM (QueueT α) (Option α) := fun q =>
  if q.len = 0 then some (none, q)
  else do
    let a ← q.table[q.i]?.join
    some (some a, q)

inductive QueueOp (α : Type) where
  | push (src : Option α)
  | poll (dest : Bool)
  | peek

inductive QueueAnswer (α : Type) where
  | pushed (status : Nat)
  | polled (status : Nat) (dest : Option α)
  | peeked (head : Option α)

def queueCall : QueueOp α → CallM (QueueT α) (QueueAnswer α)
  | .push src => do
    let status ← qPushAt src
    pure (.pushed status)
  | .poll dest => do
    let (status, copied) ← qPollTo dest
    pure (.polled status copied)
  | .peek => do
    let head ← qPeekAt
    pure (.peeked head)

/-! ## Lists -/

/-- One operation on a list of at most `cap` elements, the oldest first. -/
def fifoStep (cap : Nat) (l : List α) : QueueOp α → QueueAnswer α × List α
  | .push none => (.pushed 1, l)
  | .push (some a) => if l.length < cap then (.pushed 0, l ++ [a]) else (.pushed 1, l)
  | .poll dest =>
    match l with
    | [] => (.polled 1 none, [])
    | a :: as => (.polled 0 (if dest then some a else none), as)
  | .peek => (.peeked l.head?, l)

/-- The list is around the table, from the index on. -/
structure QueueT.Holds (q : QueueT α) (cap : Nat) (l : List α) : Prop where
  cap_eq : q.cap = cap
  i_lt : q.i < cap
  len_le : q.len ≤ cap
  len_eq : q.len = l.length
  cells : ∀ k a, l[k]? = some a → q.table[(q.i + k) % cap]? = some (some a)

/-! ## Refinement -/

/-- The queue without what is known of it. -/
def Queue.erase (q : Queue α) : QueueT α := ⟨q.cap, q.len, q.i, q.table⟩

theorem newQueueT_eq {cap : Nat} {q : Queue α} (h : newQueue cap = some q) :
    newQueueT cap = some q.erase := by
  unfold newQueue at h
  split at h
  · cases h
  · next hcap =>
    cases h
    exact if_neg hcap

theorem qPushAt_erase (q : Queue α) (a : α) :
    qPushAt (some a) q.erase = some ((qPush q a).1, (qPush q a).2.erase) := by
  unfold qPushAt qPush
  by_cases hfull : q.cap = q.len
  · rw [if_pos (show q.erase.cap = q.erase.len from hfull),
      dif_pos (show qFull q = true from beq_iff_eq.mpr hfull)]
  · have hpush : (q.i + q.len) % q.cap < q.table.length := by
      rw [q.table_length]
      exact Nat.mod_lt _ (Nat.zero_lt_of_lt q.i_lt)
    rw [if_neg (show ¬q.erase.cap = q.erase.len from hfull),
      dif_neg (show ¬qFull q = true from fun h => hfull (beq_iff_eq.mp h))]
    exact if_pos hpush

theorem qPushAt_none (q : QueueT α) : qPushAt none q = some (1, q) := by
  unfold qPushAt
  split <;> rfl

/-- The first cell is where the index is. -/
theorem Queue.cell_zero (q : Queue α) : q.cell 0 = q.table[q.i]?.join := by
  rw [cell, Nat.add_zero, Nat.mod_eq_of_lt q.i_lt]

theorem qPollTo_erase (q : Queue α) (dest : Bool) : qPollTo dest q.erase
    = some (((qPoll q).1, if dest then (qPoll q).2.1 else none), (qPoll q).2.2.erase) := by
  unfold qPollTo qPoll
  by_cases hempty : q.len = 0
  · rw [if_pos (show q.erase.len = 0 from hempty), dif_pos hempty]
    cases dest <;> rfl
  · rw [if_neg (show ¬q.erase.len = 0 from hempty), dif_neg hempty]
    obtain ⟨a, ha⟩ := q.cell_filled (Nat.pos_of_ne_zero hempty)
    have hload : q.erase.table[q.erase.i]?.join = some a := q.cell_zero.symm.trans ha
    rw [hload, ha]
    cases dest <;> rfl

theorem qPeekAt_erase (q : Queue α) : qPeekAt q.erase = some (qPeek q, q.erase) := by
  unfold qPeekAt qPeek
  by_cases hempty : q.len = 0
  · rw [if_pos (show q.erase.len = 0 from hempty), if_pos hempty]
  · rw [if_neg (show ¬q.erase.len = 0 from hempty), if_neg hempty]
    obtain ⟨a, ha⟩ := q.cell_filled (Nat.pos_of_ne_zero hempty)
    have hload : q.erase.table[q.erase.i]?.join = some a := q.cell_zero.symm.trans ha
    rw [hload, ha]
    rfl

theorem Queue.toList_eq_cap (q : Queue α) (h : ¬q.toList.length < q.cap) :
    q.toList.length = q.cap := by
  have hle := q.len_le
  rw [q.toList_length] at h ⊢
  omega

/-- An element of the list is in its cell. -/
theorem Queue.toList_getElem? (q : Queue α) {k : Nat} (hk : k < q.len) :
    q.toList[k]? = q.cell k := by
  have hcells : ∀ n ≤ q.len, ((List.range n).filterMap q.cell).map some
      = (List.range n).map q.cell := by
    intro n hn
    induction n with
    | zero => rfl
    | succ n ih =>
      obtain ⟨a, ha⟩ := q.cell_filled (Nat.lt_of_succ_le hn)
      rw [List.range_succ, List.filterMap_append, List.map_append, List.map_append,
        ih (Nat.le_of_succ_le hn), List.filterMap_cons_some ha, List.map_singleton, ha]
      rfl
  have hk' := congrArg (fun cells => cells[k]?) (hcells q.len (Nat.le_refl _))
  rw [List.getElem?_map, List.getElem?_map, List.getElem?_range hk, Option.map_some] at hk'
  obtain ⟨a, ha, heq⟩ := Option.map_eq_some_iff.mp hk'
  rw [← heq]
  exact ha

/-- Without its facts, a queue of `cap` cells that stands for the list. -/
def StandsFor (cap : Nat) (q : QueueT α) (l : List α) : Prop :=
  ∃ q₀ : Queue α, q = q₀.erase ∧ q₀.cap = cap ∧ q₀.toList = l

namespace StandsFor

variable {cap : Nat} {q : QueueT α} {l : List α}

/-- Appended, or refused if the list is full. -/
theorem push (h : StandsFor cap q l) (a : α) :
    ∃ q', qPushAt (some a) q = some (if l.length < cap then 0 else 1, q') ∧
      StandsFor cap q' (if l.length < cap then l ++ [a] else l) := by
  obtain ⟨q₀, rfl, rfl, rfl⟩ := h
  refine ⟨(qPush q₀ a).2.erase, ?_, (qPush q₀ a).2, rfl, qPush_cap q₀ a, ?_⟩
  · rw [qPushAt_erase]
    split
    · next hroom => rw [(qPush_of_lt a hroom).1]
    · next hroom => rw [qPush_of_full a (q₀.toList_eq_cap hroom)]
  · split
    · next hroom => exact (qPush_of_lt a hroom).2
    · next hroom => rw [qPush_of_full a (q₀.toList_eq_cap hroom)]

theorem poll_nil (h : StandsFor cap q []) (dest : Bool) :
    ∃ q', qPollTo dest q = some ((1, none), q') ∧ StandsFor cap q' ([] : List α) := by
  obtain ⟨q₀, rfl, rfl, hq⟩ := h
  refine ⟨q₀.erase, ?_, q₀, rfl, rfl, hq⟩
  rw [qPollTo_erase, qPoll_of_nil hq, ite_self]

theorem poll_cons {a : α} {as : List α} (h : StandsFor cap q (a :: as)) (dest : Bool) :
    ∃ q', qPollTo dest q = some ((0, if dest then some a else none), q') ∧
      StandsFor cap q' as := by
  obtain ⟨q₀, rfl, rfl, hq⟩ := h
  obtain ⟨hstatus, hcell, hlist⟩ := qPoll_of_cons hq
  refine ⟨(qPoll q₀).2.2.erase, ?_, (qPoll q₀).2.2, rfl, qPoll_cap q₀, hlist⟩
  rw [qPollTo_erase, hstatus, hcell]

theorem peek (h : StandsFor cap q l) : qPeekAt q = some (l.head?, q) := by
  obtain ⟨q₀, rfl, rfl, rfl⟩ := h
  rw [qPeekAt_erase, qPeek_eq]

/-- Where the elements are. -/
theorem holds (h : StandsFor cap q l) : q.Holds cap l := by
  obtain ⟨q₀, rfl, rfl, rfl⟩ := h
  refine ⟨rfl, q₀.i_lt, q₀.len_le, q₀.toList_length.symm, fun k a hk => ?_⟩
  have hlt : k < q₀.len := by
    rw [← q₀.toList_length]
    exact (List.getElem?_eq_some_iff.mp hk).1
  obtain ⟨b, hb⟩ := q₀.filled k hlt
  rw [q₀.toList_getElem? hlt, Queue.cell, hb] at hk
  cases hk
  exact hb

end StandsFor

/-- **One call does what the list does.** -/
theorem queueCall_fifoStep {cap : Nat} (q : QueueT α) (l : List α) (op : QueueOp α)
    (h : StandsFor cap q l) : ∃ q', queueCall op q = some ((fifoStep cap l op).1, q') ∧
      StandsFor cap q' (fifoStep cap l op).2 := by
  cases op with
  | push src =>
    cases src with
    | none => exact ⟨q, CallM.bind_of_some (qPushAt_none q), h⟩
    | some a =>
      obtain ⟨q', hcall, h'⟩ := h.push a
      rw [fifoStep]
      by_cases hroom : l.length < cap
      · rw [if_pos hroom] at hcall h' ⊢
        exact ⟨q', CallM.bind_of_some hcall, h'⟩
      · rw [if_neg hroom] at hcall h' ⊢
        exact ⟨q', CallM.bind_of_some hcall, h'⟩
  | poll dest =>
    cases l with
    | nil =>
      obtain ⟨q', hcall, h'⟩ := h.poll_nil dest
      exact ⟨q', CallM.bind_of_some hcall, h'⟩
    | cons a as =>
      obtain ⟨q', hcall, h'⟩ := h.poll_cons dest
      exact ⟨q', CallM.bind_of_some hcall, h'⟩
  | peek => exact ⟨q, CallM.bind_of_some h.peek, h⟩

/-! ## Cells -/

/-- A push does not write where an element is. -/
theorem qPushAt_keeps {cap : Nat} {q q' : QueueT α} {l : List α} (h : q.Holds cap l)
    {src : Option α} {status : Nat} (hpush : qPushAt src q = some (status, q')) {k : Nat}
    (hk : k < q.len) : q'.table[(q.i + k) % cap]? = q.table[(q.i + k) % cap]? := by
  obtain ⟨rfl, hi, hle, -, -⟩ := h
  unfold qPushAt at hpush
  split at hpush
  · cases hpush
    rfl
  · next hfull =>
    cases src with
    | none =>
      cases hpush
      rfl
    | some a =>
      obtain ⟨-, heq⟩ := Option.ite_none_right_eq_some.mp hpush
      cases heq
      refine List.getElem?_set_ne fun hidx => ?_
      have hsame := index_injective hi (by omega) (by omega) hidx
      omega

/--
**The ring buffer refines a bounded FIFO.** Any sequence of calls on a new queue is defined and is
answered like the list; the indices stay in their bounds, and each element is in its cell. A call
that returns 1 changes nothing, and no push writes the cell of an element that is still queued.
-/
theorem queue_refines_fifo {c : Nat} (hc : 1 ≤ c) : ∃ q : QueueT α, newQueueT c = some q ∧
    ∀ ops : List (QueueOp α), ∃ q', runCalls queueCall ops q
        = some (answers (fifoStep c) [] ops, q') ∧
      q'.Holds c (stateAfter (fifoStep c) [] ops) ∧
      (∀ src, q'.len = c → qPushAt src q' = some (1, q')) ∧
      (∀ dest, q'.len = 0 → qPollTo dest q' = some ((1, none), q')) ∧
      ∀ src status q'', qPushAt src q' = some (status, q'') → ∀ k < q'.len,
        q''.table[(q'.i + k) % c]? = q'.table[(q'.i + k) % c]? := by
  obtain ⟨q₀, hq₀⟩ := newQueue_isSome (α := α) (Nat.ne_of_gt hc)
  obtain ⟨hcap, hnil⟩ := newQueue_eq_some hq₀
  refine ⟨q₀.erase, newQueueT_eq hq₀, fun ops => ?_⟩
  have hnew : StandsFor c q₀.erase ([] : List α) := ⟨q₀, rfl, hcap, hnil⟩
  obtain ⟨q', hrun, hq'⟩ :=
    runCalls_of_simulation (StandsFor c) queueCall_fifoStep ops q₀.erase [] hnew
  have hholds := hq'.holds
  refine ⟨q', hrun, hholds, fun src hfull => ?_, fun dest hempty => if_pos hempty,
    fun src status q'' hpush k hk => qPushAt_keeps hholds hpush hk⟩
  exact if_pos (hholds.cap_eq.trans hfull.symm)

/-- Two cells, and elements that wrap around the end of the table. -/
theorem queue_refines_fifo_wrap : ∃ q : QueueT Nat, newQueueT 2 = some q ∧
    ∃ q', runCalls queueCall [.push (some 7), .push (some 8), .push (some 9), .poll false,
      .push (some 9), .push none, .peek, .poll true, .poll true, .poll true] q
        = some ([.pushed 0, .pushed 0, .pushed 1, .polled 0 none, .pushed 0, .pushed 1,
          .peeked (some 8), .polled 0 (some 8), .polled 0 (some 9), .polled 1 none], q') := by
  obtain ⟨q, hnew, hrun⟩ := queue_refines_fifo (α := Nat) (show 1 ≤ 2 by decide)
  obtain ⟨q', hops, -⟩ := hrun [.push (some 7), .push (some 8), .push (some 9), .poll false,
    .push (some 9), .push none, .peek, .poll true, .poll true, .poll true]
  exact ⟨q, hnew, q', hops⟩

end Chlibs.Util

import Mathlib

/-!
# The cyclic queue

`queue_t`: a table of `cap` cells of which `len` are in use, from index `i` on and around
the end. A `Queue` carries the facts its functions rely on, and `Queue.toList` is the FIFO
list it stands for.

* `qPush` appends, or returns 1 on a full queue.
* `qPoll` removes the head, or returns 1 on an empty queue.

The table is allocated: the allocation succeeds, and `cap * cell_size` fits in a `size_t`.
-/

namespace Chlibs.Util

/-- `queue_t`. A cell that was never written is `none`. -/
structure Queue (α : Type) where
  cap : Nat
  len : Nat
  i : Nat
  table : List (Option α)
  table_length : table.length = cap
  i_lt : i < cap
  len_le : len ≤ cap
  filled : ∀ k < len, ∃ a, table[(i + k) % cap]? = some (some a)

variable {α : Type}

namespace Queue

/-- The element `k` places behind the head. -/
def cell (q : Queue α) (k : Nat) : Option α := q.table[(q.i + k) % q.cap]?.join

/-- The elements, oldest first. -/
def toList (q : Queue α) : List α := (List.range q.len).filterMap q.cell

end Queue

/-- `NULL` for a capacity of 0. -/
def newQueue (cap : Nat) : Option (Queue α) :=
  if h : cap = 0 then none
  else some
    { cap := cap, len := 0, i := 0, table := List.replicate cap none
      table_length := List.length_replicate, i_lt := Nat.pos_of_ne_zero h
      len_le := Nat.zero_le _, filled := by simp }

def qCap (q : Queue α) : Nat := q.cap

def qLen (q : Queue α) : Nat := q.len

def qFull (q : Queue α) : Bool := q.cap == q.len

/-! ## Indices -/

/-- Wrapping around without a division. -/
theorem index_eq {cap i k : Nat} (hi : i < cap) (hk : k < cap) :
    (i + k) % cap = if i + k < cap then i + k else i + k - cap := by
  split
  · next h => exact Nat.mod_eq_of_lt h
  · next h =>
    rw [Nat.mod_eq_sub_mod (by omega), Nat.mod_eq_of_lt (by omega)]

theorem index_injective {cap i k l : Nat} (hi : i < cap) (hk : k < cap) (hl : l < cap)
    (h : (i + k) % cap = (i + l) % cap) : k = l := by
  rw [index_eq hi hk, index_eq hi hl] at h
  split at h <;> split at h <;> omega

/-- The index after `i`. -/
def advanceIndex (cap i : Nat) : Nat := if i + 1 = cap then 0 else i + 1

theorem advanceIndex_lt {cap i : Nat} (hi : i < cap) : advanceIndex cap i < cap := by
  unfold advanceIndex
  split <;> omega

theorem index_advance (cap i k : Nat) :
    (advanceIndex cap i + k) % cap = (i + (k + 1)) % cap := by
  unfold advanceIndex
  split
  · next h => rw [show i + (k + 1) = k + cap by omega, Nat.add_mod_right, Nat.zero_add]
  · next h => rw [show i + 1 + k = i + (k + 1) by omega]

/-! ## Operations -/

/-- The oldest element, or `NULL`. -/
def qPeek (q : Queue α) : Option α := if q.len = 0 then none else q.cell 0

/-- 0 on success, 1 if full. -/
def qPush (q : Queue α) (src : α) : Nat × Queue α :=
  if h : qFull q then (1, q)
  else
    have hlen : q.len < q.cap := by
      have := q.len_le
      simp only [qFull, beq_iff_eq] at h
      omega
    (0, { q with
      table := q.table.set ((q.i + q.len) % q.cap) (some src)
      len := q.len + 1
      table_length := by rw [List.length_set, q.table_length]
      len_le := hlen
      filled := by
        intro k hk
        have hpush : (q.i + q.len) % q.cap < q.table.length := by
          rw [q.table_length]
          exact Nat.mod_lt _ (by omega)
        rcases Nat.lt_succ_iff_lt_or_eq.mp hk with hk | rfl
        · have hne : (q.i + q.len) % q.cap ≠ (q.i + k) % q.cap := by
            intro he
            have := index_injective q.i_lt hlen (by omega) he
            omega
          rw [List.getElem?_set_ne hne]
          exact q.filled k hk
        · exact ⟨src, List.getElem?_set_self hpush⟩ })

/-- 0 and the oldest element on success, 1 if empty. -/
def qPoll (q : Queue α) : Nat × Option α × Queue α :=
  if h : q.len = 0 then (1, none, q)
  else
    (0, q.cell 0, { q with
      i := advanceIndex q.cap q.i
      len := q.len - 1
      i_lt := advanceIndex_lt q.i_lt
      len_le := by have := q.len_le; omega
      filled := by
        intro k hk
        have := q.len_le
        rw [index_advance]
        exact q.filled (k + 1) (by omega) })

/-! ## The list a queue stands for -/

theorem Queue.cell_filled (q : Queue α) {k : Nat} (hk : k < q.len) : ∃ a, q.cell k = some a := by
  obtain ⟨a, ha⟩ := q.filled k hk
  exact ⟨a, by simp [cell, ha]⟩

@[simp] theorem Queue.toList_length (q : Queue α) : q.toList.length = q.len := by
  have h : ∀ n ≤ q.len, ((List.range n).filterMap q.cell).length = n := by
    intro n hn
    induction n with
    | zero => rfl
    | succ n ih =>
      obtain ⟨a, ha⟩ := q.cell_filled (k := n) (by omega)
      rw [List.range_succ, List.filterMap_append, List.length_append, ih (by omega)]
      simp [ha]
  exact h q.len (Nat.le_refl _)

theorem newQueue_eq_some {cap : Nat} {q : Queue α} (h : newQueue cap = some q) :
    q.cap = cap ∧ q.toList = [] := by
  unfold newQueue at h
  split at h
  · simp at h
  · cases h
    exact ⟨rfl, rfl⟩

theorem newQueue_isSome {cap : Nat} (h : cap ≠ 0) : ∃ q : Queue α, newQueue cap = some q :=
  ⟨_, dif_neg h⟩

theorem qPeek_eq (q : Queue α) : qPeek q = q.toList.head? := by
  unfold qPeek Queue.toList
  split
  · next h => simp [h]
  · next h =>
    obtain ⟨n, hn⟩ : ∃ n, q.len = n + 1 := ⟨q.len - 1, by omega⟩
    obtain ⟨a, ha⟩ := q.cell_filled (k := 0) (by omega)
    rw [hn, List.range_succ_eq_map, List.filterMap_cons_some ha, ha]
    rfl

@[simp] theorem qPush_cap (q : Queue α) (a : α) : (qPush q a).2.cap = q.cap := by
  unfold qPush
  split <;> rfl

@[simp] theorem qPoll_cap (q : Queue α) : (qPoll q).2.2.cap = q.cap := by
  unfold qPoll
  split <;> rfl

/-- **`q_push` appends while there is room.** -/
theorem qPush_of_lt {q : Queue α} (a : α) (h : q.toList.length < q.cap) :
    (qPush q a).1 = 0 ∧ (qPush q a).2.toList = q.toList ++ [a] := by
  rw [q.toList_length] at h
  have hroom : ¬qFull q = true := by
    simp only [qFull, beq_iff_eq]
    omega
  have hpush : (q.i + q.len) % q.cap < q.table.length := by
    rw [q.table_length]
    exact Nat.mod_lt _ (by omega)
  have hold : ∀ k ∈ List.range q.len, (qPush q a).2.cell k = q.cell k := by
    intro k hk
    have hk' : k < q.len := List.mem_range.mp hk
    have hne : (q.i + q.len) % q.cap ≠ (q.i + k) % q.cap := by
      intro he
      have := index_injective q.i_lt h (by omega) he
      omega
    rw [qPush, dif_neg hroom]
    simp only [Queue.cell, List.getElem?_set_ne hne]
  have hnew : (qPush q a).2.cell q.len = some a := by
    rw [qPush, dif_neg hroom]
    simp only [Queue.cell, List.getElem?_set_self hpush, Option.join_some]
  refine ⟨by rw [qPush, dif_neg hroom], ?_⟩
  have hlen : (qPush q a).2.len = q.len + 1 := by rw [qPush, dif_neg hroom]
  rw [Queue.toList, hlen, List.range_succ, List.filterMap_append, List.filterMap_congr hold]
  simp [hnew, Queue.toList]

theorem qPush_of_full {q : Queue α} (a : α) (h : q.toList.length = q.cap) :
    qPush q a = (1, q) := by
  rw [qPush, dif_pos]
  simpa [qFull] using h.symm

/-- **`q_poll` takes the oldest element.** -/
theorem qPoll_of_cons {q : Queue α} {a : α} {as : List α} (h : q.toList = a :: as) :
    (qPoll q).1 = 0 ∧ (qPoll q).2.1 = some a ∧ (qPoll q).2.2.toList = as := by
  have hlen : q.len = as.length + 1 := by rw [← q.toList_length, h, List.length_cons]
  have hne : ¬q.len = 0 := by omega
  have hcell : ∀ k, (qPoll q).2.2.cell k = q.cell (k + 1) := by
    intro k
    rw [qPoll, dif_neg hne]
    simp only [Queue.cell, index_advance]
  obtain ⟨b, hb⟩ := q.cell_filled (k := 0) (by omega)
  have hlist : q.toList = b :: (List.range as.length).filterMap (qPoll q).2.2.cell := by
    rw [Queue.toList, hlen, List.range_succ_eq_map, List.filterMap_cons_some hb,
      List.filterMap_map]
    congr 1
    exact List.filterMap_congr fun k _ => (hcell k).symm
  have hlen' : (qPoll q).2.2.len = as.length := by
    rw [qPoll, dif_neg hne]
    exact Nat.sub_eq_of_eq_add hlen
  rw [h, List.cons.injEq] at hlist
  obtain ⟨rfl, has⟩ := hlist
  refine ⟨by rw [qPoll, dif_neg hne], ?_, ?_⟩
  · rw [qPoll, dif_neg hne]
    exact hb
  · rw [Queue.toList, hlen', ← has]

theorem qPoll_of_nil {q : Queue α} (h : q.toList = []) : qPoll q = (1, none, q) := by
  have hlen : q.len = 0 := by rw [← q.toList_length, h]; rfl
  rw [qPoll, dif_pos hlen]

end Chlibs.Util

import Chlibs.Util.Heap

/-!
# Runs on a heap

A heap under any sequence of operations, compared with a bag of values.

* `BagEvent` — what happens to the bag: a value comes, one of least priority goes, or one is
  changed.
* `HeapT.exec_spec` — one operation.
* `heap_priorityQueue` — the heap is a priority queue after every run.
-/

namespace Chlibs.Util

open Infra HeapOrder

variable {α : Type}

/-! ## The bag -/

inductive BagEvent (α : Type) where
  | pushed (a : α)
  | popped (a : α)
  | changed (a b : α)

/-- What an event does to a bag of values under a priority. -/
def BagEvent.Step (pf : α → UInt32) : BagEvent α → Multiset α → Multiset α → Prop
  | .pushed a, bag, bag' => bag' = a ::ₘ bag
  | .popped a, bag, bag' => bag = a ::ₘ bag' ∧ ∀ b ∈ bag, pf a ≤ pf b
  | .changed a b, bag, bag' => ∃ rest, bag = a ::ₘ rest ∧ bag' = b ::ₘ rest

/-- Events that lead from one bag to another. -/
def History (pf : α → UInt32) : List (BagEvent α) → Multiset α → Multiset α → Prop
  | [], bag, bag' => bag' = bag
  | e :: es, bag, bag' => ∃ next, e.Step pf bag next ∧ History pf es next bag'

theorem History.append {pf : α → UInt32} : ∀ {es es' : List (BagEvent α)}
    {bag bag' bag'' : Multiset α}, History pf es bag bag' → History pf es' bag' bag'' →
    History pf (es ++ es') bag bag''
  | [], _, _, _, _, h, h' => by
    cases h
    exact h'
  | _ :: _, _, _, _, _, ⟨next, hstep, hrest⟩, h' => ⟨next, hstep, hrest.append h'⟩

/-! ## Operations -/

/-- What a caller does with the heap's values in place: go through them and change some. -/
inductive HeapAccess (α : Type) where
  | peek (change : α → α)
  | next (change : α → α)
  | resetIterator

/-- Storing through a pointer to a value. The cached priority stays. -/
def changeAt (hp : HeapT α) (i : Nat) (change : α → α) : HeapT α × List (BagEvent α) :=
  ({ hp with table := hp.table.modify i fun c => { c with value := change c.value } },
    (hp.table[i]?).toList.map fun c => .changed c.value (change c.value))

def HeapT.access (hp : HeapT α) : HeapAccess α → HeapT α × List (BagEvent α)
  | .peek change =>
    match hpPeek hp with
    | some i => changeAt hp i change
    | none => (hp, [])
  | .next change =>
    match hpNext hp with
    | (some i, hp) => changeAt hp i change
    | (none, hp) => (hp, [])
  | .resetIterator => (hpResetIterator hp, [])

def HeapT.accesses (hp : HeapT α) : List (HeapAccess α) → HeapT α × List (BagEvent α)
  | [] => (hp, [])
  | a :: as => (((hp.access a).1.accesses as).1, (hp.access a).2 ++ ((hp.access a).1.accesses as).2)

/-- A call, or changes in place with the `hp_re_heap` after them. -/
inductive HeapOp (α : Type) where
  | push (src : α)
  | pop
  | change (as : List (HeapAccess α))

/-- The heap after an operation, and the events of it. -/
def HeapT.exec (pf : α → UInt32) (hp : HeapT α) : HeapOp α → Option (HeapT α × List (BagEvent α))
  | .push src => (hpPush pf hp src).map fun hp => (hp, [.pushed src])
  | .pop => (hpPop hp).map fun (hp, dest) => (hp, dest.toList.map .popped)
  | .change as => (hpReHeap pf (hp.accesses as).1).map fun hp' => (hp', (hp.accesses as).2)

def HeapT.run (pf : α → UInt32) (hp : HeapT α) :
    List (HeapOp α) → Option (HeapT α × List (BagEvent α))
  | [] => some (hp, [])
  | op :: ops => do
    let (hp, es) ← hp.exec pf op
    let (hp, es') ← hp.run pf ops
    return (hp, es ++ es')

/-- As many `hp_pop`s as given. -/
def hpPops : Nat → HeapT α → Option (List α)
  | 0, _ => some []
  | n + 1, hp => do
    let (hp, dest) ← hpPop hp
    return dest.toList ++ (← hpPops n hp)

/-! ## Changes in place -/

/-- The parts of a heap that a change in place leaves alone. -/
structure SameShape (hp hp' : HeapT α) : Prop where
  cap : hp'.cap = hp.cap
  len : hp'.len = hp.len
  length : hp'.table.length = hp.table.length

theorem SameShape.trans {hp hp' hp'' : HeapT α} (h : SameShape hp hp') (h' : SameShape hp' hp'') :
    SameShape hp hp'' :=
  ⟨h'.cap.trans h.cap, h'.len.trans h.len, h'.length.trans h.length⟩

theorem changeAt_spec (pf : α → UInt32) (hp : HeapT α) {i : Nat} (hi : i < hp.len)
    (hwritten : hp.len ≤ hp.table.length) (change : α → α) :
    SameShape hp (changeAt hp i change).1 ∧
      History pf (changeAt hp i change).2 hp.values (changeAt hp i change).1.values := by
  have hget : hp.table[i]? = some hp.table[i] := List.getElem?_eq_getElem (by omega)
  refine ⟨⟨rfl, rfl, List.length_modify ..⟩, ?_⟩
  have hlen : i < (hp.table.take hp.len).length := by
    rw [List.length_take]
    omega
  simp only [changeAt, hget, Option.toList_some, List.map_cons, List.map_nil]
  refine ⟨_, ⟨(((hp.table.take hp.len).take i ++ (hp.table.take hp.len).drop (i + 1)).map
    HeapCell.value : Multiset α), ?_, rfl⟩, ?_⟩
  · rw [HeapT.values, HeapT.cells, Multiset.map_coe, Multiset.cons_coe, Multiset.coe_eq_coe]
    conv_lhs => rw [← List.take_append_drop i (hp.table.take hp.len), List.drop_eq_getElem_cons hlen]
    rw [List.map_append, List.map_append, List.map_cons, List.getElem_take]
    exact List.perm_middle
  · unfold History
    rw [HeapT.values, HeapT.cells, Multiset.map_coe, Multiset.cons_coe, Multiset.coe_eq_coe,
      List.take_modify, List.modify_eq_take_cons_drop hlen, List.map_append, List.map_append,
      List.map_cons, List.getElem_take]
    exact List.perm_middle

theorem HeapT.access_spec (pf : α → UInt32) {hp : HeapT α} (hwritten : hp.len ≤ hp.table.length)
    (a : HeapAccess α) :
    SameShape hp (hp.access a).1 ∧ History pf (hp.access a).2 hp.values (hp.access a).1.values := by
  cases a with
  | peek change =>
    simp only [HeapT.access, hpPeek]
    by_cases hzero : hp.len = 0
    · rw [if_pos hzero]
      exact ⟨⟨rfl, rfl, rfl⟩, rfl⟩
    · rw [if_neg hzero]
      exact changeAt_spec pf hp (by omega) hwritten change
  | next change =>
    simp only [HeapT.access, hpNext]
    cases hget : hpGetHeader hp hp.iter with
    | none => exact ⟨⟨rfl, rfl, rfl⟩, rfl⟩
    | some c =>
      obtain ⟨hshape, hhist⟩ := changeAt_spec pf { hp with iter := hp.iter + 1 }
        (hpGetHeader_lt hget) hwritten change
      exact ⟨⟨hshape.cap, hshape.len, hshape.length⟩, hhist⟩
  | resetIterator => exact ⟨⟨rfl, rfl, rfl⟩, rfl⟩

theorem HeapT.accesses_spec (pf : α → UInt32) : ∀ (as : List (HeapAccess α)) (hp : HeapT α),
    hp.len ≤ hp.table.length → SameShape hp (hp.accesses as).1 ∧
      History pf (hp.accesses as).2 hp.values (hp.accesses as).1.values
  | [], _, _ => ⟨⟨rfl, rfl, rfl⟩, rfl⟩
  | a :: as, hp, hwritten => by
    obtain ⟨hshape, hhist⟩ := hp.access_spec pf hwritten a
    obtain ⟨hshape', hhist'⟩ := accesses_spec pf as (hp.access a).1
      (by rw [hshape.len, hshape.length]; exact hwritten)
    exact ⟨hshape.trans hshape', hhist.append hhist'⟩

/-! ## Runs -/

theorem HeapT.values_cons {hp hp' : HeapT α} {c : HeapCell α} (h : hp.cells = c ::ₘ hp'.cells) :
    hp.values = c.value ::ₘ hp'.values := by
  rw [HeapT.values, h, Multiset.map_cons, HeapT.values]

/-- The least of the cached priorities is the least of the priorities. -/
theorem HeapT.Valid.least {pf : α → UInt32} {hp : HeapT α} (hv : hp.Valid pf) {root : HeapCell α}
    (hroot : root ∈ hp.cells) (hle : ∀ c ∈ hp.cells, root.priority ≤ c.priority) :
    ∀ a ∈ hp.values, pf root.value ≤ pf a := by
  intro a ha
  obtain ⟨c, hc, rfl⟩ := Multiset.mem_map.mp ha
  rw [← hv.cached root hroot, ← hv.cached c hc]
  exact hle c hc

/-- `hpPop_spec`, on the values. -/
theorem hpPop_values {pf : α → UInt32} {hp : HeapT α} (hv : hp.Valid pf) (hpos : 0 < hp.len) :
    ∃ hp' root, hpPop hp = some (hp', some root.value) ∧ hp'.Valid pf ∧
      hp.cells = root ::ₘ hp'.cells ∧ (∀ a ∈ hp.values, pf root.value ≤ pf a) ∧
      hp'.len + 1 = hp.len := by
  obtain ⟨hp', root, hrun, hv', hcells, hle, hlen⟩ := hpPop_spec hv hpos
  have hroot : root ∈ hp.cells := by
    rw [hcells]
    exact Multiset.mem_cons_self _ _
  exact ⟨hp', root, hrun, hv', hcells, hv.least hroot hle, hlen⟩

/-- **An operation never fails, keeps a heap valid, and does to the bag what its events say.** -/
theorem HeapT.exec_spec {pf : α → UInt32} {hp : HeapT α} (hv : hp.Valid pf) (op : HeapOp α) :
    ∃ hp' es, hp.exec pf op = some (hp', es) ∧ hp'.Valid pf ∧
      History pf es hp.values hp'.values := by
  cases op with
  | push src =>
    obtain ⟨hp', hrun, hv', hcells, -⟩ := hpPush_spec hv src
    exact ⟨hp', [.pushed src], by rw [HeapT.exec, hrun]; rfl, hv', _, rfl,
      HeapT.values_cons hcells⟩
  | pop =>
    rcases Nat.eq_zero_or_pos hp.len with hzero | hpos
    · exact ⟨hp, [], by rw [HeapT.exec, hpPop_empty hzero]; rfl, hv, rfl⟩
    · obtain ⟨hp', root, hrun, hv', hcells, hle, -⟩ := hpPop_values hv hpos
      exact ⟨hp', [.popped root.value], by rw [HeapT.exec, hrun]; rfl, hv', _,
        ⟨HeapT.values_cons hcells, hle⟩, rfl⟩
  | change as =>
    obtain ⟨hshape, hhist⟩ := HeapT.accesses_spec pf as hp hv.written
    obtain ⟨hp', hrun, hv', hvalues⟩ := hpReHeap_spec pf (hp.accesses as).1
      (by rw [hshape.cap]; exact hv.cap_pos)
      (by rw [hshape.len, hshape.length]; exact hv.written)
      (by rw [hshape.cap, hshape.length]; exact hv.room)
    refine ⟨hp', (hp.accesses as).2, by rw [HeapT.exec, hrun]; rfl, hv', ?_⟩
    rw [hvalues]
    exact hhist

theorem HeapT.run_spec {pf : α → UInt32} : ∀ (ops : List (HeapOp α)) {hp : HeapT α},
    hp.Valid pf → ∃ hp' es, hp.run pf ops = some (hp', es) ∧ hp'.Valid pf ∧
      History pf es hp.values hp'.values
  | [], hp, hv => ⟨hp, [], rfl, hv, rfl⟩
  | op :: ops, hp, hv => by
    obtain ⟨hp₁, es, hexec, hv₁, hhist⟩ := HeapT.exec_spec hv op
    obtain ⟨hp₂, es', hrun, hv₂, hhist'⟩ := run_spec ops hv₁
    refine ⟨hp₂, es ++ es', ?_, hv₂, hhist.append hhist'⟩
    simp only [HeapT.run, hexec, Option.bind_eq_bind, Option.bind_some, hrun]
    rfl

/-! ## The priority queue -/

/-- Every cell has the priority of its value, and none is below its parent's. -/
def HeapT.InOrder (pf : α → UInt32) (hp : HeapT α) : Prop :=
  ∀ i < hp.len, ∃ c, hpGetHeader hp i = some c ∧ c.priority = pf c.value ∧
    (0 < i → ∃ above, hpGetHeader hp (parent i) = some above ∧ above.priority ≤ c.priority)

/-- `hp_pop` gives a value of the least priority and removes its cell and no other. -/
def HeapT.PopsLeast (pf : α → UInt32) (hp : HeapT α) : Prop :=
  0 < hp.len → ∃ hp' root, hpPop hp = some (hp', some root.value) ∧
    hp.cells = root ::ₘ hp'.cells ∧ ∀ a ∈ hp.values, pf root.value ≤ pf a

/-- Popping everything gives all the values, the priorities not decreasing. -/
def HeapT.Drains (pf : α → UInt32) (hp : HeapT α) : Prop :=
  ∃ as : List α, hpPops hp.len hp = some as ∧ (as.map pf).Pairwise (· ≤ ·) ∧ as = hp.values

theorem HeapT.Valid.inOrder {pf : α → UInt32} {hp : HeapT α} (hv : hp.Valid pf) :
    hp.InOrder pf := by
  have hwritten := hv.written
  have hget : ∀ i (hi : i < hp.len),
      hpGetHeader hp i = some (hp.table.get ⟨i, by omega⟩) := by
    intro i hi
    rw [hpGetHeader_eq hi, List.getElem?_eq_getElem]
    rfl
  intro i hi
  refine ⟨_, hget i hi, hv.cached _ ?_, fun hpos => ?_⟩
  · have hcell : (hp.table.take hp.len)[i]? = some (hp.table.get ⟨i, by omega⟩) := by
      rw [List.getElem?_take_of_lt hi, ← hpGetHeader_eq hi, hget i hi]
    exact List.mem_iff_getElem?.mpr ⟨i, hcell⟩
  · have hlt : parent i < i := parent_lt hpos
    refine ⟨_, hget (parent i) (by omega), UInt32.le_iff_toNat_le.mpr ?_⟩
    have hle := hv.ordered i hpos hi
    simp only [List.getElem?_eq_getElem (show i < hp.table.length by omega),
      List.getElem?_eq_getElem (show parent i < hp.table.length by omega)] at hle
    exact hle

theorem HeapT.values_of_empty {hp : HeapT α} (hzero : hp.len = 0) : hp.values = 0 := by
  simp [HeapT.values, HeapT.cells, hzero]

theorem HeapT.Valid.popsLeast {pf : α → UInt32} {hp : HeapT α} (hv : hp.Valid pf) :
    hp.PopsLeast pf := by
  intro hpos
  obtain ⟨hp', root, hrun, -, hcells, hle, -⟩ := hpPop_values hv hpos
  exact ⟨hp', root, hrun, hcells, hle⟩

theorem HeapT.Valid.drains {pf : α → UInt32} : ∀ (n : Nat) {hp : HeapT α}, hp.len = n →
    hp.Valid pf → hp.Drains pf
  | 0, hp, hn, _ => ⟨[], by rw [hn]; rfl, List.Pairwise.nil, (HeapT.values_of_empty hn).symm⟩
  | n + 1, hp, hn, hv => by
    obtain ⟨hp', root, hrun, hv', hcells, hle, hlen⟩ := hpPop_values hv (by omega)
    obtain ⟨as, hdrain, hsorted, has⟩ := Valid.drains n (by omega) hv'
    have hvalues : hp.values = root.value ::ₘ hp'.values := HeapT.values_cons hcells
    rw [show hp'.len = n by omega] at hdrain
    refine ⟨root.value :: as, by simp [hn, hpPops, hrun, hdrain], ?_, ?_⟩
    · rw [List.map_cons, List.pairwise_cons]
      refine ⟨?_, hsorted⟩
      intro p hp
      obtain ⟨a, ha, rfl⟩ := List.mem_map.mp hp
      refine hle a ?_
      rw [hvalues, ← has]
      exact Multiset.mem_cons_of_mem (Multiset.mem_coe.mpr ha)
    · rw [hvalues, ← has, Multiset.cons_coe]

/-- **The heap is a priority queue, after every run from an empty one.** -/
theorem heap_priorityQueue (pf : α → UInt32) (ops : List (HeapOp α)) :
    ∃ hp es, (newHeap : HeapT α).run pf ops = some (hp, es) ∧ hp.InOrder pf ∧
      History pf es 0 hp.values ∧ hp.PopsLeast pf ∧ hp.Drains pf := by
  obtain ⟨hp, es, hrun, hv, hhist⟩ := HeapT.run_spec ops (newHeap_valid pf)
  rw [newHeap_values] at hhist
  exact ⟨hp, es, hrun, hv.inOrder, hhist, hv.popsLeast, HeapT.Valid.drains hp.len rfl hv⟩

end Chlibs.Util

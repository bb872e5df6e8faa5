import Chlibs.Infra.HeapOrder

/-!
# The heap

`heap_t`: values in an array, under the priorities that `priority_func` gives them. The least
priority is at the root. The functions move cells into a hole and write the cell that was held
aside at the end; `none` stands for a cell that is not there.

* `hpBubbleUp_spec`, `hpSink_spec` — the hole ends where the cell held aside fits.
* `hpPush_spec`, `hpPop_spec`, `hpReHeap_spec` — each operation keeps `HeapT.Valid`.
-/

namespace Chlibs.Util

open Infra HeapOrder Function

variable {α : Type}

/-- `heap_val_header_t` with the value behind it. -/
structure HeapCell (α : Type) where
  priority : UInt32
  value : α

/--
`heap_t`. Of the `cap` cells of the block, `table` holds those that were written so far, and the
first `len` are in use.
-/
structure HeapT (α : Type) where
  cap : Nat
  len : Nat
  table : List (HeapCell α)
  iter : Nat

def newHeap : HeapT α := { cap := 1, len := 0, table := [], iter := 0 }

def hpGetHeader (hp : HeapT α) (i : Nat) : Option (HeapCell α) :=
  if i ≥ hp.len then none else hp.table[i]?

/-- A table with one cell written. -/
def writeCell (t : List (HeapCell α)) (i : Nat) (c : HeapCell α) : List (HeapCell α) :=
  t.take i ++ c :: t.drop (i + 1)

/-- Copy a cell to the header at an index, which must not be `NULL`. -/
def hpCopyTo (hp : HeapT α) (i : Nat) (c : HeapCell α) : Option (HeapT α) :=
  if i < hp.len then some { hp with table := writeCell hp.table i c } else none

/-- The place of the first value. -/
def hpPeek (hp : HeapT α) : Option Nat := if hp.len = 0 then none else some 0

/-- Where a cell of priority `p` belongs; the cells on the way have moved down. -/
def hpBubbleUp (hp : HeapT α) (i : Nat) (p : UInt32) : Option (HeapT α × Nat) :=
  if _h : 0 < i then
    match hpGetHeader hp (if i % 2 = 0 then i / 2 - 1 else i / 2) with
    | none => none
    | some parentHdr =>
      if parentHdr.priority ≤ p then some (hp, i)
      else
        match hpCopyTo hp i parentHdr with
        | none => none
        | some hp => hpBubbleUp hp (if i % 2 = 0 then i / 2 - 1 else i / 2) p
  else some (hp, i)
termination_by i
decreasing_by split <;> omega

/-- The child that moves up over priority `p`: `next_i` and `swap_hdr`. -/
def swapChild (hp : HeapT α) (i : Nat) (p : UInt32) : Option (Nat × HeapCell α) :=
  let swap := match hpGetHeader hp (i * 2 + 1) with
    | some left => if left.priority < p then some (i * 2 + 1, left) else none
    | none => none
  match hpGetHeader hp (i * 2 + 2) with
  | some right =>
    if right.priority < p then
      match swap with
      | none => some (i * 2 + 2, right)
      | some (_, hdr) => if right.priority < hdr.priority then some (i * 2 + 2, right) else swap
    else swap
  | none => swap

theorem swapChild_some {hp : HeapT α} {i c : Nat} {p : UInt32} {hdr : HeapCell α}
    (h : swapChild hp i p = some (c, hdr)) :
    (c = i * 2 + 1 ∨ c = i * 2 + 2) ∧ hpGetHeader hp c = some hdr ∧ hdr.priority < p := by
  unfold swapChild at h
  grind

theorem hpGetHeader_lt {hp : HeapT α} {i : Nat} {c : HeapCell α}
    (h : hpGetHeader hp i = some c) : i < hp.len := by
  unfold hpGetHeader at h
  split at h
  · cases h
  · omega

theorem hpCopyTo_len {hp hp' : HeapT α} {i : Nat} {c : HeapCell α}
    (h : hpCopyTo hp i c = some hp') : hp'.len = hp.len := by
  unfold hpCopyTo at h
  split at h
  · cases h
    rfl
  · cases h

/-- The loop of `hp_pop`: the cell at index `last`, of priority `p`, goes to `i` or below. -/
def hpSink (hp : HeapT α) (last : Nat) (p : UInt32) (i : Nat) : Option (HeapT α) :=
  match _hchild : swapChild hp i p with
  | none => (hp.table[last]?).bind (hpCopyTo hp i)
  | some (next, hdr) =>
    match _hcopy : hpCopyTo hp i hdr with
    | none => none
    | some hp' => hpSink hp' last p next
termination_by hp.len - i
decreasing_by
  obtain ⟨hnext, hget, -⟩ := swapChild_some _hchild
  have hlt : next < hp.len := hpGetHeader_lt hget
  have hlen : hp'.len = hp.len := hpCopyTo_len _hcopy
  omega

/-- The value, or `none` for an answer of `false`. -/
def hpPop (hp : HeapT α) : Option (HeapT α × Option α) :=
  if hp.len = 0 then some (hp, none)
  else do
    let root ← hpGetHeader hp 0
    if hp.len = 1 then return ({ hp with len := hp.len - 1 }, some root.value)
    else do
      let last ← hpGetHeader hp (hp.len - 1)
      let hp' ← hpSink { hp with len := hp.len - 1 } (hp.len - 1) last.priority 0
      return (hp', some root.value)

def hpPush (priorityFunc : α → UInt32) (hp : HeapT α) (src : α) : Option (HeapT α) := do
  let hp := if hp.len = hp.cap then { hp with cap := hp.cap * 2 } else hp
  let hp := { hp with len := hp.len + 1 }
  let (hp, i) ← hpBubbleUp hp (hp.len - 1) (priorityFunc src)
  hpCopyTo hp i ⟨priorityFunc src, src⟩

def hpResetIterator (hp : HeapT α) : HeapT α := { hp with iter := 0 }

/-- The place of the next value, if there is one. -/
def hpNext (hp : HeapT α) : Option Nat × HeapT α :=
  match hpGetHeader hp hp.iter with
  | some _ => (some hp.iter, { hp with iter := hp.iter + 1 })
  | none => (none, hp)

/-- The first loop of `hp_re_heap`. -/
def recomputePriorities (priorityFunc : α → UInt32) (hp : HeapT α) : HeapT α :=
  { hp with table := hp.table.mapIdx fun i c =>
      if i < hp.len then { c with priority := priorityFunc c.value } else c }

/-- One turn of the second loop of `hp_re_heap`. -/
def reHeapEnd (hp : HeapT α) (e : Nat) : Option (HeapT α) := do
  let endHdr ← hpGetHeader hp e
  let (hp, i) ← hpBubbleUp hp e endHdr.priority
  -- The bubbling stopped at once: the cell is still there.
  if i ≠ e then hpCopyTo hp i endHdr else return hp

def hpReHeap (priorityFunc : α → UInt32) (hp : HeapT α) : Option (HeapT α) :=
  (List.range' 1 (hp.len - 1)).foldlM reHeapEnd (recomputePriorities priorityFunc hp)

/-! ## Validity -/

/-- The priority of a cell, as a number. -/
def cellKey : Option (HeapCell α) → Nat
  | some c => c.priority.toNat
  | none => 0

/-- The cells in use. -/
def HeapT.cells (hp : HeapT α) : Multiset (HeapCell α) := hp.table.take hp.len

def HeapT.values (hp : HeapT α) : Multiset α := hp.cells.map HeapCell.value

/-- The table has the cells in use, with the priorities of their values, in heap order. -/
structure HeapT.Valid (priorityFunc : α → UInt32) (hp : HeapT α) : Prop where
  cap_pos : 0 < hp.cap
  written : hp.len ≤ hp.table.length
  room : hp.table.length ≤ hp.cap
  cached : ∀ c ∈ hp.cells, c.priority = priorityFunc c.value
  ordered : Ordered cellKey (hp.table[·]?) hp.len

/-! ## Cells -/

theorem hpGetHeader_eq {hp : HeapT α} {i : Nat} (hi : i < hp.len) :
    hpGetHeader hp i = hp.table[i]? :=
  if_neg (by omega)

theorem hpCopyTo_eq {hp : HeapT α} {i : Nat} (hi : i < hp.len) (c : HeapCell α) :
    hpCopyTo hp i c = some { hp with table := writeCell hp.table i c } :=
  if_pos hi

theorem writeCell_length {t : List (HeapCell α)} {i : Nat} (hi : i ≤ t.length) (c : HeapCell α) :
    (writeCell t i c).length = max t.length (i + 1) := by
  simp only [writeCell, List.length_append, List.length_take, List.length_cons, List.length_drop]
  omega

theorem getElem?_writeCell {t : List (HeapCell α)} {i : Nat} (hi : i ≤ t.length)
    (c : HeapCell α) : ((writeCell t i c)[·]?) = update (t[·]?) i (some c) := by
  funext j
  have htake : (t.take i).length = i := List.length_take_of_le hi
  simp only [writeCell]
  rcases Nat.lt_trichotomy j i with hlt | heq | hgt
  · rw [update_of_ne (by omega), List.getElem?_append_left (by omega),
      List.getElem?_take_of_lt hlt]
  · rw [heq, update_self, List.getElem?_append_right (by omega), htake, Nat.sub_self]
    rfl
  · obtain ⟨k, rfl⟩ : ∃ k, j = i + 1 + k := ⟨j - (i + 1), by omega⟩
    rw [update_of_ne (by omega), List.getElem?_append_right (by omega), htake,
      show i + 1 + k - i = k + 1 by omega, List.getElem?_cons_succ, List.getElem?_drop]

theorem getElem?_writeCell_of_ne {t : List (HeapCell α)} {i j : Nat} (hi : i ≤ t.length)
    (c : HeapCell α) (hj : j ≠ i) : (writeCell t i c)[j]? = t[j]? := by
  rw [show (writeCell t i c)[j]? = update (t[·]?) i (some c) j from
    congrFun (getElem?_writeCell hi c) j, update_of_ne hj]

/-- The cells in use, as the places of the table have them. -/
theorem bag_table {t : List (HeapCell α)} : ∀ {n : Nat}, n ≤ t.length →
    bag (t[·]?) n = (t.take n : Multiset (HeapCell α)).map some
  | 0, _ => by simp [bag]
  | n + 1, hn => by
    have hget : t[n]? = some t[n] := List.getElem?_eq_getElem (by omega)
    rw [bag_succ, bag_table (by omega), hget, List.take_succ_eq_append_getElem (by omega),
      ← Multiset.coe_add, Multiset.map_add, add_comm]
    rfl

theorem HeapT.Valid.bag_eq {pf : α → UInt32} {hp : HeapT α} (hv : hp.Valid pf) :
    bag (hp.table[·]?) hp.len = hp.cells.map some :=
  bag_table hv.written

/-- The index computed for the parent. -/
theorem parentIndex_eq {i : Nat} (hi : 0 < i) :
    (if i % 2 = 0 then i / 2 - 1 else i / 2) = parent i := by
  unfold parent
  split <;> omega

/-! ## Bubbling up -/

/-- What a table becomes when a cell is put in at index `i` or above, by moving cells down. -/
structure Bubbled (t t' : List (HeapCell α)) (i e : Nat) (c : HeapCell α) : Prop where
  ordered : Ordered cellKey (t'[·]?) (e + 1)
  bag_eq : ∀ n, i < n → bag (t'[·]?) n = bag (update (t[·]?) i (some c)) n
  length_eq : t'.length = max t.length (i + 1)
  behind : ∀ j, i < j → t'[j]? = t[j]?

/-- **The cell held aside fits where the bubbling stops.** -/
theorem hpBubbleUp_spec (p : UInt32) (e : Nat) : ∀ (i : Nat) (hp : HeapT α),
    Hole cellKey (hp.table[·]?) (e + 1) i → e < hp.len → i ≤ hp.table.length →
    (∀ j, 0 < j → j < e + 1 → parent j = i → p.toNat ≤ cellKey hp.table[j]?) →
    ∃ t' i', hpBubbleUp hp i p = some ({ hp with table := t' }, i') ∧ i' ≤ i ∧
      (i' = i → t' = hp.table) ∧
      ∀ c : HeapCell α, c.priority = p → Bubbled hp.table (writeCell t' i' c) i e c := by
  intro i
  induction i using Nat.strong_induction_on with
  | _ i ih =>
    intro hp hole he hi hbelow
    have hin : i < e + 1 := hole.lt
    -- The hole stays where it is: `c` is not below the cell above.
    have hstay : (0 < i → cellKey hp.table[parent i]? ≤ p.toNat) →
        ∀ c : HeapCell α, c.priority = p → Bubbled hp.table (writeCell hp.table i c) i e c := by
      intro habove c hc
      refine ⟨?_, ?_, writeCell_length hi c, ?_⟩
      · rw [getElem?_writeCell hi]
        refine hole.fill (x := some c) ?_ ?_
        · intro hpos
          exact (habove hpos).trans_eq (by rw [← hc]; rfl)
        · intro j hpos hj hp'
          exact Eq.trans_le (by rw [← hc]; rfl) (hbelow j hpos hj hp')
      · intro n hn
        rw [getElem?_writeCell hi]
      · intro j hj
        exact getElem?_writeCell_of_ne hi c (by omega)
    unfold hpBubbleUp
    rcases Nat.eq_zero_or_pos i with rfl | hpos
    · exact ⟨hp.table, 0, by simp, le_refl _, fun _ => rfl, hstay (by omega)⟩
    · have hup : parent i < i := parent_lt hpos
      have hget : hp.table[parent i]? = some hp.table[parent i] :=
        List.getElem?_eq_getElem (by omega)
      rw [dif_pos hpos, parentIndex_eq hpos, hpGetHeader_eq (by omega), hget]
      by_cases hle : hp.table[parent i].priority ≤ p
      · refine ⟨hp.table, i, by simp [hle], le_refl _, fun _ => rfl, hstay fun _ => ?_⟩
        rw [hget]
        exact UInt32.le_iff_toNat_le.mp hle
      · -- The cell above comes down, and the hole goes up.
        have hlt : p.toNat ≤ cellKey hp.table[parent i]? := by
          rw [hget]
          exact Nat.le_of_lt (Nat.lt_of_not_le fun h => hle (UInt32.le_iff_toNat_le.mpr h))
        simp only [hle, if_false, hpCopyTo_eq (show i < hp.len by omega)]
        have hlen := writeCell_length hi hp.table[parent i]
        have hcells := getElem?_writeCell hi hp.table[parent i]
        rw [← hget] at hcells
        obtain ⟨t', i', hrun, hle', -, hbub⟩ := ih (parent i) hup
          { hp with table := writeCell hp.table i hp.table[parent i] }
          (by simp only [hcells]; exact hole.rise hpos) he (by simp only [hlen]; omega)
          (by
            intro j hjpos hj hjp
            rw [show (writeCell hp.table i hp.table[parent i])[j]? = _ from congrFun hcells j]
            exact hole.rise_below (k := p.toNat) hlt hjpos hj hjp hpos)
        refine ⟨t', i', hrun, by omega, by omega, fun c hc => ?_⟩
        obtain ⟨hord, hbag, hlen', hbehind⟩ := hbub c hc
        refine ⟨hord, ?_, ?_, ?_⟩
        · intro n hn
          rw [hbag n (by omega)]
          simp only [hcells]
          exact bag_move hn (by omega) (by omega)
        · simp only [hlen', hlen]
          omega
        · intro j hj
          rw [hbehind j (by omega), getElem?_writeCell_of_ne hi _ (by omega)]

/-! ## Sinking -/

theorem swapChild_least {hp : HeapT α} {i c : Nat} {p : UInt32} {hdr : HeapCell α}
    (h : swapChild hp i p = some (c, hdr)) {j : Nat} {other : HeapCell α}
    (hj : j = i * 2 + 1 ∨ j = i * 2 + 2) (hget : hpGetHeader hp j = some other) :
    hdr.priority ≤ other.priority := by
  unfold swapChild at h
  grind

theorem swapChild_none {hp : HeapT α} {i : Nat} {p : UInt32} (h : swapChild hp i p = none)
    {j : Nat} {other : HeapCell α} (hj : j = i * 2 + 1 ∨ j = i * 2 + 2)
    (hget : hpGetHeader hp j = some other) : p ≤ other.priority := by
  unfold swapChild at h
  grind

/-- **The last cell fits where the sinking stops.** -/
theorem hpSink_spec (last : Nat) (c : HeapCell α) : ∀ (k : Nat) (hp : HeapT α) (i : Nat),
    hp.len - i = k → Hole cellKey (hp.table[·]?) hp.len i → hp.len ≤ hp.table.length →
    hp.len ≤ last → hp.table[last]? = some c →
    (0 < i → cellKey hp.table[parent i]? ≤ c.priority.toNat) →
    ∃ t', hpSink hp last c.priority i = some { hp with table := t' } ∧
      Ordered cellKey (t'[·]?) hp.len ∧
      bag (t'[·]?) hp.len = bag (update (hp.table[·]?) i (some c)) hp.len ∧
      t'.length = hp.table.length := by
  intro k
  induction k using Nat.strong_induction_on with
  | _ k ih =>
    intro hp i hk hole hwritten hlast hc habove
    have hin : i < hp.len := hole.lt
    have hi : i ≤ hp.table.length := by omega
    have hlen : ∀ x : HeapCell α, (writeCell hp.table i x).length = hp.table.length := by
      intro x
      rw [writeCell_length hi]
      omega
    -- A cell below is in the table, with the key of its header.
    have hchild : ∀ j, 0 < j → j < hp.len → parent j = i →
        ∃ x, (j = i * 2 + 1 ∨ j = i * 2 + 2) ∧ hpGetHeader hp j = some x ∧
          hp.table[j]? = some x := by
      intro j hpos hj hp'
      have hget : hp.table[j]? = some hp.table[j] := List.getElem?_eq_getElem (by omega)
      exact ⟨hp.table[j], (eq_parent_iff hpos).mp hp', (hpGetHeader_eq hj).trans hget, hget⟩
    unfold hpSink
    split
    · next hnone =>
      refine ⟨writeCell hp.table i c, by simp [hc, hpCopyTo_eq hin], ?_, ?_, hlen c⟩
      · rw [getElem?_writeCell hi]
        refine hole.fill (x := some c) habove ?_
        intro j hpos hj hp'
        obtain ⟨x, hj2, hget, htab⟩ := hchild j hpos hj hp'
        rw [htab]
        exact UInt32.le_iff_toNat_le.mp (swapChild_none hnone hj2 hget)
      · rw [getElem?_writeCell hi]
    · next next hdr hsome =>
      obtain ⟨hnext, hget, hlt⟩ := swapChild_some hsome
      have hnlen : next < hp.len := hpGetHeader_lt hget
      have htab : hp.table[next]? = some hdr := (hpGetHeader_eq hnlen).symm.trans hget
      have hpar : parent next = i := (eq_parent_iff (by omega)).mpr hnext
      have hcells := getElem?_writeCell hi hdr
      rw [← htab] at hcells
      have hsink := hole.sink (c := next) (by omega) hnlen hpar (by
        intro j hpos hj hp'
        obtain ⟨x, hj2, hjget, hjtab⟩ := hchild j hpos hj hp'
        rw [htab, hjtab]
        exact UInt32.le_iff_toNat_le.mp (swapChild_least hsome hj2 hjget))
      obtain ⟨t', hrun, hord, hbag, hlen'⟩ := ih (hp.len - next) (by omega)
        { hp with table := writeCell hp.table i hdr } next rfl
        (by simp only [hcells]; exact hsink) (by simp only [hlen]; omega) hlast
        (by rw [getElem?_writeCell_of_ne hi _ (by omega), hc])
        (by
          intro _
          rw [hpar, show (writeCell hp.table i hdr)[i]? = _ from congrFun hcells i, update_self,
            htab]
          exact Nat.le_of_lt (UInt32.lt_iff_toNat_lt.mp hlt))
      refine ⟨t', ?_, hord, ?_, hlen'.trans (hlen hdr)⟩
      · split
        · next hcopy =>
          rw [hpCopyTo_eq hin] at hcopy
          cases hcopy
        · next hp' hcopy =>
          rw [hpCopyTo_eq hin] at hcopy
          cases hcopy
          exact hrun
      · rw [hbag]
        simp only [hcells]
        exact bag_move hin hnlen (by omega)

/-! ## The operations -/

theorem newHeap_valid (pf : α → UInt32) : (newHeap : HeapT α).Valid pf where
  cap_pos := Nat.one_pos
  written := le_refl _
  room := Nat.zero_le _
  cached c hc := by simp [newHeap, HeapT.cells] at hc
  ordered i hpos hi := by simp [newHeap] at hi

@[simp] theorem newHeap_values : (newHeap : HeapT α).values = 0 := by
  simp [newHeap, HeapT.values, HeapT.cells]

/-- The cells of a heap whose places hold a known bag. -/
theorem cells_eq {t : List (HeapCell α)} {n : Nat} {s : Multiset (HeapCell α)} (hn : n ≤ t.length)
    (h : bag (t[·]?) n = s.map some) : (t.take n : Multiset (HeapCell α)) = s := by
  rw [bag_table hn] at h
  exact Multiset.map_injective (Option.some_injective _) h

/-- **Pushing keeps a heap valid and adds one cell.** -/
theorem hpPush_spec {pf : α → UInt32} {hp : HeapT α} (hv : hp.Valid pf) (src : α) :
    ∃ hp', hpPush pf hp src = some hp' ∧ hp'.Valid pf ∧ hp'.cells = ⟨pf src, src⟩ ::ₘ hp.cells ∧
      hp'.len = hp.len + 1 := by
  obtain ⟨cap', hcap, hroom, hgrow⟩ : ∃ cap',
      (if hp.len = hp.cap then { hp with cap := hp.cap * 2 } else hp) = { hp with cap := cap' } ∧
      hp.cap ≤ cap' ∧ hp.len + 1 ≤ cap' := by
    have hpos := hv.cap_pos
    have hle : hp.len ≤ hp.cap := hv.written.trans hv.room
    by_cases hfull : hp.len = hp.cap
    · exact ⟨hp.cap * 2, by rw [if_pos hfull], by omega, by omega⟩
    · exact ⟨hp.cap, by rw [if_neg hfull], by omega, by omega⟩
  obtain ⟨t', i', hrun, hle, -, hbub⟩ := hpBubbleUp_spec (pf src) hp.len hp.len
    { hp with cap := cap', len := hp.len + 1 } hv.ordered.hole_end (Nat.lt_succ_self _) hv.written
    (by
      intro j hpos hj hp'
      have hlt : parent j < j := parent_lt hpos
      omega)
  obtain ⟨hord, hbag, hlen, -⟩ := hbub ⟨pf src, src⟩ rfl
  have hwritten : hp.len + 1 ≤ (writeCell t' i' ⟨pf src, src⟩).length := by
    simp only [hlen]
    omega
  -- The new cell is in the hole, wherever that has come to.
  have hcells : ((writeCell t' i' ⟨pf src, src⟩).take (hp.len + 1) : Multiset (HeapCell α))
      = ⟨pf src, src⟩ ::ₘ hp.cells := by
    refine cells_eq hwritten ?_
    rw [hbag _ (Nat.lt_succ_self _), bag_succ, update_self, Multiset.map_cons, ← hv.bag_eq]
    congr 1
    exact bag_congr fun i hi => update_of_ne (by omega) _ _
  refine ⟨⟨cap', hp.len + 1, writeCell t' i' ⟨pf src, src⟩, hp.iter⟩, ?_, ⟨?_, hwritten, ?_, ?_, hord⟩,
    hcells, rfl⟩
  · simp only [hpPush, hcap, Nat.add_sub_cancel, hrun, Option.bind_eq_bind, Option.bind_some]
    exact hpCopyTo_eq (by simp only; omega) _
  · simp only
    omega
  · have hroom' := hv.room
    simp only [hlen]
    omega
  · intro c hc
    rw [HeapT.cells, hcells, Multiset.mem_cons] at hc
    rcases hc with rfl | hc
    · rfl
    · exact hv.cached c hc

/-- The root has the least priority. -/
theorem HeapT.Valid.root_le {pf : α → UInt32} {hp : HeapT α} (hv : hp.Valid pf)
    {root : HeapCell α} (hroot : hp.table[0]? = some root) : ∀ c ∈ hp.cells,
    root.priority ≤ c.priority := by
  intro c hc
  have hmem : some c ∈ bag (hp.table[·]?) hp.len := by
    rw [hv.bag_eq]
    exact Multiset.mem_map_of_mem _ hc
  obtain ⟨i, hi, hget⟩ := mem_bag.mp hmem
  have hle := hv.ordered.root_le hi
  simp only [hroot, hget] at hle
  exact UInt32.le_iff_toNat_le.mpr hle

theorem hpPop_empty {hp : HeapT α} (h : hp.len = 0) : hpPop hp = some (hp, none) := if_pos h

/-- **Popping keeps a heap valid and takes one cell of the least priority.** -/
theorem hpPop_spec {pf : α → UInt32} {hp : HeapT α} (hv : hp.Valid pf) (hpos : 0 < hp.len) :
    ∃ hp' root, hpPop hp = some (hp', some root.value) ∧ hp'.Valid pf ∧
      hp.cells = root ::ₘ hp'.cells ∧ (∀ c ∈ hp.cells, root.priority ≤ c.priority) ∧
      hp'.len + 1 = hp.len := by
  obtain ⟨n, hn⟩ : ∃ n, hp.len = n + 1 := ⟨hp.len - 1, by omega⟩
  have hwritten := hv.written
  have hroot : hp.table[0]? = some hp.table[0] := List.getElem?_eq_getElem (by omega)
  have hlast : hp.table[n]? = some hp.table[n] := List.getElem?_eq_getElem (by omega)
  have hbag := hv.bag_eq
  rw [hn, bag_succ, hlast] at hbag
  have hget0 : hpGetHeader hp 0 = some hp.table[0] := (hpGetHeader_eq hpos).trans hroot
  have hgetn : hpGetHeader hp n = some hp.table[n] := (hpGetHeader_eq (by omega)).trans hlast
  -- What is left is in order and is what was there before, without the root.
  obtain ⟨t', hpop, hord, hrest, hlen⟩ : ∃ t',
      hpPop hp = some ({ hp with len := n, table := t' }, some hp.table[0].value) ∧
      Ordered cellKey (t'[·]?) n ∧
      some hp.table[n] ::ₘ bag (hp.table[·]?) n = some hp.table[0] ::ₘ bag (t'[·]?) n ∧
      t'.length = hp.table.length := by
    rcases Nat.eq_zero_or_pos n with rfl | hnpos
    · refine ⟨hp.table, ?_, hv.ordered.mono (by omega), rfl, rfl⟩
      simp [hpPop, hn, hget0]
    · have hhole : Hole cellKey (hp.table[·]?) n 0 := (hv.ordered.mono (by omega)).hole hnpos
      obtain ⟨t', hrun, hord, hbag', hlen⟩ := hpSink_spec n hp.table[n] n
        { hp with len := n } 0 (Nat.sub_zero n) hhole (by simp only; omega) (le_refl n) hlast
        (by omega)
      refine ⟨t', ?_, hord, ?_, hlen⟩
      · simp [hpPop, hn, hget0, hgetn, hnpos.ne']
        rw [hrun]
        rfl
      · rw [hbag', bag_update hnpos, bag_eq_cons hnpos, hroot, Multiset.cons_swap]
  have hwritten' : n ≤ t'.length := by omega
  rw [hrest, bag_table hwritten', ← Multiset.map_cons] at hbag
  have hcells : hp.cells = hp.table[0] ::ₘ (t'.take n : Multiset (HeapCell α)) :=
    (Multiset.map_injective (Option.some_injective _) hbag).symm
  refine ⟨_, hp.table[0], hpop, ⟨hv.cap_pos, hwritten', ?_, ?_, hord⟩, hcells,
    hv.root_le hroot, hn.symm⟩
  · exact hlen.trans_le hv.room
  · intro c hc
    refine hv.cached c ?_
    rw [hcells]
    exact Multiset.mem_cons_of_mem hc

/-! ## Reheaping -/

theorem recomputePriorities_take (pf : α → UInt32) (hp : HeapT α) :
    (recomputePriorities pf hp).table.take hp.len
      = (hp.table.take hp.len).map fun c => { c with priority := pf c.value } := by
  refine List.ext_getElem? fun i => ?_
  simp only [recomputePriorities, List.getElem?_take, List.getElem?_map, List.getElem?_mapIdx]
  by_cases hi : i < hp.len
  · simp [hi]
  · simp [hi]

/-- **One turn takes one more cell into the part that is in order.** -/
theorem reHeapEnd_spec {hp : HeapT α} {e : Nat} (he : e < hp.len)
    (hwritten : hp.len ≤ hp.table.length) (hord : Ordered cellKey (hp.table[·]?) e) :
    ∃ t', reHeapEnd hp e = some { hp with table := t' } ∧ Ordered cellKey (t'[·]?) (e + 1) ∧
      bag (t'[·]?) hp.len = bag (hp.table[·]?) hp.len ∧ t'.length = hp.table.length := by
  have hget : hp.table[e]? = some hp.table[e] := List.getElem?_eq_getElem (by omega)
  have hself : writeCell hp.table e hp.table[e] = hp.table := by
    refine List.ext_getElem? fun j => ?_
    rw [show (writeCell hp.table e hp.table[e])[j]? = _ from
      congrFun (getElem?_writeCell (by omega) hp.table[e]) j, ← hget]
    exact congrFun (update_eq_self e (hp.table[·]?)) j
  obtain ⟨t', i', hrun, hle, hstay, hbub⟩ := hpBubbleUp_spec hp.table[e].priority e e hp
    hord.hole_end he (by omega) (by
      intro j hjpos hj hp'
      have hlt : parent j < j := parent_lt hjpos
      omega)
  obtain ⟨hord', hbag, hlen, -⟩ := hbub hp.table[e] rfl
  refine ⟨writeCell t' i' hp.table[e], ?_, hord', ?_, by rw [hlen]; omega⟩
  · simp only [reHeapEnd, hpGetHeader_eq he, hget, hrun, Option.bind_eq_bind, Option.bind_some]
    by_cases hi : i' = e
    · rw [if_neg (by simpa using hi), hstay hi, hi, hself]
      rfl
    · rw [if_pos hi]
      exact hpCopyTo_eq (by simp only; omega) _
  · rw [hbag _ he, ← hget]
    exact congrArg (bag · hp.len) (update_eq_self e (hp.table[·]?))

theorem reHeap_loop : ∀ (k e : Nat) (hp : HeapT α), e + k = hp.len →
    hp.len ≤ hp.table.length → Ordered cellKey (hp.table[·]?) e →
    ∃ t', (List.range' e k).foldlM reHeapEnd hp = some { hp with table := t' } ∧
      Ordered cellKey (t'[·]?) hp.len ∧ bag (t'[·]?) hp.len = bag (hp.table[·]?) hp.len ∧
      t'.length = hp.table.length
  | 0, e, hp, hk, _, hord => ⟨hp.table, rfl, by rwa [← hk], rfl, rfl⟩
  | k + 1, e, hp, hk, hwritten, hord => by
    obtain ⟨t', hrun, hord', hbag, hlen⟩ := reHeapEnd_spec (by omega) hwritten hord
    obtain ⟨t'', hrun', hord'', hbag', hlen'⟩ := reHeap_loop k (e + 1) { hp with table := t' }
      (by simp only; omega) (by simp only [hlen]; omega) hord'
    refine ⟨t'', ?_, hord'', hbag'.trans hbag, hlen'.trans hlen⟩
    rw [List.range'_succ, List.foldlM_cons, hrun]
    exact hrun'

/--
**Reheaping makes any heap valid.** The values stay, each with its own priority.
-/
theorem hpReHeap_spec (pf : α → UInt32) (hp : HeapT α) (hcap : 0 < hp.cap)
    (hwritten : hp.len ≤ hp.table.length) (hroom : hp.table.length ≤ hp.cap) :
    ∃ hp', hpReHeap pf hp = some hp' ∧ hp'.Valid pf ∧ hp'.values = hp.values := by
  have hlen1 : (recomputePriorities pf hp).table.length = hp.table.length := by
    simp [recomputePriorities]
  obtain ⟨t', hrun, hord, hbag, hlen⟩ : ∃ t',
      hpReHeap pf hp = some { hp with table := t' } ∧ Ordered cellKey (t'[·]?) hp.len ∧
      bag (t'[·]?) hp.len = bag ((recomputePriorities pf hp).table[·]?) hp.len ∧
      t'.length = hp.table.length := by
    rcases Nat.eq_zero_or_pos hp.len with hzero | hpos
    · refine ⟨(recomputePriorities pf hp).table, by simp [hpReHeap, hzero, recomputePriorities], ?_,
        rfl, hlen1⟩
      · intro i _ hi
        omega
    · obtain ⟨t', hrun, hord, hbag, hlen⟩ := reHeap_loop (hp.len - 1) 1 (recomputePriorities pf hp)
        (by simp only [recomputePriorities]; omega)
        (by rw [hlen1]; exact hwritten) (by intro i _ hi; omega)
      exact ⟨t', hrun, hord, hbag, hlen.trans hlen1⟩
  have hwritten' : hp.len ≤ t'.length := by omega
  have hcells : (t'.take hp.len : Multiset (HeapCell α))
      = hp.cells.map fun c => { c with priority := pf c.value } := by
    refine cells_eq hwritten' ?_
    rw [hbag, bag_table (by omega), recomputePriorities_take]
    rfl
  refine ⟨_, hrun, ⟨hcap, hwritten', hlen.trans_le hroom, ?_, hord⟩, ?_⟩
  · intro c hc
    rw [HeapT.cells, hcells, Multiset.mem_map] at hc
    obtain ⟨d, -, rfl⟩ := hc
    rfl
  · rw [HeapT.values, HeapT.cells, hcells, Multiset.map_map]
    rfl

end Chlibs.Util

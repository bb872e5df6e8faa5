import Mathlib

/-!
# Heap order

Cells numbered level by level as in a complete binary tree, with a key on each cell.

* `Ordered` — no cell has a smaller key than its parent, so the root has the least one.
* `Hole` — all but one place are in order, and that place can rise, sink and be filled.
* `bag` — the cells of an initial stretch, with their multiplicities.
-/

namespace Chlibs.Infra.HeapOrder

open Function

/-- The place above. -/
def parent (i : Nat) : Nat := (i - 1) / 2

theorem parent_lt {i : Nat} (h : 0 < i) : parent i < i := by
  unfold parent
  omega

/-- The two places below. -/
theorem eq_parent_iff {i j : Nat} (hj : 0 < j) : parent j = i ↔ j = i * 2 + 1 ∨ j = i * 2 + 2 := by
  unfold parent
  omega

section Order

variable {β κ : Type*} [LinearOrder κ] (key : β → κ)

def Ordered (f : Nat → β) (n : Nat) : Prop :=
  ∀ i, 0 < i → i < n → key (f (parent i)) ≤ key (f i)

/-- The cells of the first `n` places but `h` are in order, also across `h`. -/
structure Hole (f : Nat → β) (n h : Nat) : Prop where
  lt : h < n
  ordered : ∀ i, 0 < i → i < n → i ≠ h → parent i ≠ h → key (f (parent i)) ≤ key (f i)
  across : ∀ i, 0 < i → i < n → parent i = h → 0 < h → key (f (parent h)) ≤ key (f i)

variable {key} {f : Nat → β} {n h : Nat}

theorem Ordered.root_le (hf : Ordered key f n) {i : Nat} (hi : i < n) :
    key (f 0) ≤ key (f i) := by
  induction i using Nat.strong_induction_on with
  | _ i ih =>
    rcases Nat.eq_zero_or_pos i with rfl | hpos
    · exact le_refl _
    · have hlt : parent i < i := parent_lt hpos
      exact (ih (parent i) hlt (by omega)).trans (hf i hpos hi)

theorem Ordered.mono (hf : Ordered key f n) {m : Nat} (hm : m ≤ n) : Ordered key f m :=
  fun i hpos hi => hf i hpos (by omega)

/-! ## Holes -/

/-- Taking the cell at a place away. -/
theorem Ordered.hole (hf : Ordered key f n) (hh : h < n) : Hole key f n h where
  lt := hh
  ordered i hpos hi _ _ := hf i hpos hi
  across i hpos hi hp hpos' := (hf h hpos' hh).trans (hp ▸ hf i hpos hi)

/-- A new place at the end has nothing below it. -/
theorem Ordered.hole_end (hf : Ordered key f n) : Hole key f (n + 1) n where
  lt := Nat.lt_succ_self n
  ordered i hpos hi hne _ := hf i hpos (by omega)
  across i hpos hi hp _ := by
    have hlt : parent i < i := parent_lt hpos
    omega

/-- **A cell fits into a hole that is not below the cell above and not above those below.** -/
theorem Hole.fill (hole : Hole key f n h) {x : β} (habove : 0 < h → key (f (parent h)) ≤ key x)
    (hbelow : ∀ i, 0 < i → i < n → parent i = h → key x ≤ key (f i)) :
    Ordered key (update f h x) n := by
  intro i hpos hi
  have hlt : parent i < i := parent_lt hpos
  by_cases hih : i = h
  · subst hih
    rw [update_self, update_of_ne (by omega)]
    exact habove hpos
  · rw [update_of_ne hih]
    by_cases hp : parent i = h
    · rw [hp, update_self]
      exact hbelow i hpos hi hp
    · rw [update_of_ne hp]
      exact hole.ordered i hpos hi hih hp

/-- The cell above moves down. -/
theorem Hole.rise (hole : Hole key f n h) (hh : 0 < h) :
    Hole key (update f h (f (parent h))) n (parent h) := by
  have hup : parent h < h := parent_lt hh
  have hn : h < n := hole.lt
  refine ⟨by omega, ?_, ?_⟩
  · intro i hpos hi _ hp
    have hih : i ≠ h := by
      rintro rfl
      exact hp rfl
    rw [update_of_ne hih]
    by_cases hpi : parent i = h
    · rw [hpi, update_self]
      exact hole.across i hpos hi hpi hh
    · rw [update_of_ne hpi]
      exact hole.ordered i hpos hi hih hpi
  · intro i hpos hi hp hpos'
    have hupup : parent (parent h) < parent h := parent_lt hpos'
    have hroot : key (f (parent (parent h))) ≤ key (f (parent h)) :=
      hole.ordered (parent h) hpos' (by omega) (by omega) (by omega)
    rw [update_of_ne (by omega)]
    by_cases hih : i = h
    · rw [hih, update_self]
      exact hroot
    · rw [update_of_ne hih]
      refine hroot.trans ?_
      rw [← hp]
      exact hole.ordered i hpos hi hih (by omega)

/-- A key that was too small for the cell above is not above the cells below the risen hole. -/
theorem Hole.rise_below (hole : Hole key f n h) {k : κ} (hk : k ≤ key (f (parent h)))
    {i : Nat} (hpos : 0 < i) (hi : i < n) (hp : parent i = parent h) (hh : 0 < h) :
    k ≤ key (update f h (f (parent h)) i) := by
  by_cases hih : i = h
  · rwa [hih, update_self]
  · have hup : parent h < h := parent_lt hh
    rw [update_of_ne hih]
    refine hk.trans ?_
    rw [← hp]
    exact hole.ordered i hpos hi hih (by omega)

/-- The least cell below moves up. -/
theorem Hole.sink (hole : Hole key f n h) {c : Nat} (hc : 0 < c) (hcn : c < n) (hch : parent c = h)
    (hleast : ∀ i, 0 < i → i < n → parent i = h → key (f c) ≤ key (f i)) :
    Hole key (update f h (f c)) n c := by
  have hdown : parent c < c := parent_lt hc
  refine ⟨hcn, ?_, ?_⟩
  · intro i hpos hi _ _
    have hlt : parent i < i := parent_lt hpos
    by_cases hih : i = h
    · subst hih
      rw [update_self, update_of_ne (by omega)]
      exact hole.across c hc hcn hch hpos
    · rw [update_of_ne hih]
      by_cases hp : parent i = h
      · rw [hp, update_self]
        exact hleast i hpos hi hp
      · rw [update_of_ne hp]
        exact hole.ordered i hpos hi hih hp
  · intro i hpos hi hp _
    have hlt : parent i < i := parent_lt hpos
    rw [hch, update_self, update_of_ne (by omega), ← hp]
    exact hole.ordered i hpos hi (by omega) (by omega)

end Order

/-! ## The cells as a bag -/

section Bag

variable {β : Type*} {f g : Nat → β} {n h j : Nat} {x : β}

def bag (f : Nat → β) (n : Nat) : Multiset β := (Multiset.range n).map f

theorem bag_succ (f : Nat → β) (n : Nat) : bag f (n + 1) = f n ::ₘ bag f n := by
  rw [bag, Multiset.range_succ, Multiset.map_cons, bag]

theorem mem_bag : x ∈ bag f n ↔ ∃ i < n, f i = x := by
  simp [bag]

theorem bag_congr (hfg : ∀ i < n, f i = g i) : bag f n = bag g n :=
  Multiset.map_congr rfl fun i hi => hfg i (Multiset.mem_range.mp hi)

/-- The cell at a place, and the others. -/
theorem bag_update (hh : h < n) : bag (update f h x) n = x ::ₘ ((Multiset.range n).erase h).map f := by
  have hrange : Multiset.range n = h ::ₘ (Multiset.range n).erase h :=
    (Multiset.cons_erase (Multiset.mem_range.mpr hh)).symm
  rw [bag, hrange, Multiset.map_cons, update_self, ← hrange]
  congr 1
  refine Multiset.map_congr rfl fun i hi => ?_
  rw [update_of_ne]
  rintro rfl
  exact (Multiset.nodup_range n).notMem_erase hi

theorem bag_eq_cons (hh : h < n) : bag f n = f h ::ₘ ((Multiset.range n).erase h).map f := by
  rw [← bag_update hh, update_eq_self]

/-- **A hole that moves takes nothing with it.** -/
theorem bag_move (hh : h < n) (hj : j < n) (hjh : j ≠ h) :
    bag (update (update f h (f j)) j x) n = bag (update f h x) n := by
  have hmem : h ∈ (Multiset.range n).erase j :=
    (Multiset.mem_erase_of_ne hjh.symm).mpr (Multiset.mem_range.mpr hh)
  have hmem' : j ∈ (Multiset.range n).erase h :=
    (Multiset.mem_erase_of_ne hjh).mpr (Multiset.mem_range.mpr hj)
  have hnd : ((Multiset.range n).erase j).Nodup := (Multiset.nodup_range n).erase j
  rw [bag_update hj, bag_update hh, ← Multiset.cons_erase hmem, ← Multiset.cons_erase hmem',
    Multiset.map_cons, Multiset.map_cons, update_self, Multiset.erase_comm]
  congr 2
  refine Multiset.map_congr rfl fun i hi => ?_
  rw [update_of_ne]
  rintro rfl
  rw [Multiset.erase_comm] at hi
  exact hnd.notMem_erase hi

end Bag

end Chlibs.Infra.HeapOrder

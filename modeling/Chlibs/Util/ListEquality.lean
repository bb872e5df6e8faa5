import Chlibs.Util.ListSequence

/-!
# Comparing lists

`l_equals` moves the iterators that are inside of the lists. The lists are in a heap, so that both
arguments may be one list: then it is one iterator that is moved twice in each turn.

* `adjacent` — the pairs that are compared where both arguments are one list.
* `lEquals_spec_of_ne`, `lEquals_spec_self` — the comparison of two lists, and of one with itself.
-/

namespace Chlibs.Util

open Infra

variable {α γ : Type} {xs ys : List α} {i : Nat}

/-- The first with the second element, the third with the fourth, and so on. -/
def adjacent : List α → List (α × α)
  | x :: y :: rest => (x, y) :: adjacent rest
  | _ => []

theorem adjacent_map (f : γ → α) : ∀ cs : List γ,
    adjacent (cs.map f) = (adjacent cs).map (Prod.map f f)
  | [] => rfl
  | [_] => rfl
  | _ :: _ :: cs => congrArg (List.cons _) (adjacent_map f cs)

theorem length_adjacent : ∀ xs : List α, (adjacent xs).length = xs.length / 2
  | [] => by simp [adjacent]
  | [_] => by simp [adjacent]
  | _ :: _ :: xs => by
    rw [adjacent, List.length_cons, length_adjacent xs, List.length_cons, List.length_cons]
    omega

/-- The pairs begin at the even positions. -/
theorem mem_adjacent : ∀ {xs : List α} {x y : α}, (x, y) ∈ adjacent xs ↔
    ∃ k, xs[2 * k]? = some x ∧ xs[2 * k + 1]? = some y
  | [], x, y => by simp [adjacent]
  | [z], x, y => by simp [adjacent]
  | z :: w :: xs, x, y => by
    rw [adjacent, List.mem_cons, mem_adjacent, Prod.mk.injEq]
    constructor
    · rintro (⟨rfl, rfl⟩ | ⟨k, hx, hy⟩)
      · exact ⟨0, rfl, rfl⟩
      · exact ⟨k + 1, hx, hy⟩
    · rintro ⟨k, hx, hy⟩
      cases k with
      | zero => exact Or.inl ⟨(Option.some.inj hx).symm, (Option.some.inj hy).symm⟩
      | succ k => exact Or.inr ⟨k, hx, hy⟩

theorem adjacent_sublist : ∀ {xs : List α} {x y : α}, (x, y) ∈ adjacent xs → [x, y].Sublist xs
  | [], _, _, h => by simp [adjacent] at h
  | [_], _, _, h => by simp [adjacent] at h
  | z :: w :: xs, x, y, h => by
    rw [adjacent, List.mem_cons, Prod.mk.injEq] at h
    rcases h with ⟨rfl, rfl⟩ | h
    · exact ((List.nil_sublist xs).cons_cons y).cons_cons x
    · exact ((adjacent_sublist h).cons w).cons z

/-! ## Iterating in a heap -/

section Frame

variable {σ : Type} {lists : Part σ (Heap (ListT α))} {s : σ} {a l1 l2 : Nat} {L L1 L2 : ListT α}

theorem onBlock_readList {β : Type} (h : (lists.get s).load a = some L) (f : ListT α → β) :
    onBlock lists a (readList f) s = some (f L, s) := by
  rw [onBlock_of_some h rfl, Part.put_self h]

/-- What is known of the state, whatever the iterator of a list. -/
def Ignores (lists : Part σ (Heap (ListT α))) (Frame : σ → Prop) (a : Nat) : Prop :=
  ∀ s L L', (lists.get s).load a = some L → (∀ xs, L.Holds xs → L'.Holds xs) → Frame s →
    Frame (lists.put s a L')

variable {Frame : σ → Prop}

theorem Ignores.iterAt (h : Ignores lists Frame a) {L' : ListT α} {j : Nat}
    (hload : (lists.get s).load a = some L) (hL : L.Holds xs) (hL' : L'.IterAt xs j)
    (hs : Frame s) : Frame (lists.put s a L') :=
  h s L L' hload (fun zs hzs => by rw [hzs.unique hL]; exact hL'.holds) hs

/-- A reset of the iterator. -/
theorem onBlock_lResetIterator (h : Ignores lists Frame a) (hload : (lists.get s).load a = some L)
    (hL : L.Holds xs) (hs : Frame s) : ∃ L', onBlock lists a lResetIterator s
      = some ((), lists.put s a L') ∧ L'.IterAt xs 0 ∧ Frame (lists.put s a L') := by
  obtain ⟨L', hrun, -, hL'⟩ := lResetIterator_spec hL
  exact ⟨L', onBlock_of_some hload hrun, hL', h.iterAt hload hL hL' hs⟩

/-- A step of the iterator. -/
theorem onBlock_lNextCell_of_lt (h : Ignores lists Frame a)
    (hload : (lists.get s).load a = some L) (hL : L.IterAt xs i) (hi : i < xs.length)
    (hs : Frame s) : ∃ L', onBlock lists a lNextCell s
      = some (some xs[i], lists.put s a L') ∧ L'.IterAt xs (i + 1) ∧
        Frame (lists.put s a L') := by
  obtain ⟨L', hrun, -, hL'⟩ := lNextCell_of_lt hL hi
  exact ⟨L', onBlock_of_some hload hrun, hL', h.iterAt hload hL.holds hL' hs⟩

theorem onBlock_lNextCell_of_le (hload : (lists.get s).load a = some L) (hL : L.IterAt xs i)
    (hi : xs.length ≤ i) : onBlock lists a lNextCell s = some (none, s) := by
  rw [onBlock_of_some hload (lNextCell_of_le hL hi), Part.put_self hload]

/-- **Two lists**: the iterators move side by side. -/
theorem lNextBoth_walks_of_ne (hne : l1 ≠ l2) (hlen : xs.length = ys.length)
    (h1 : Ignores lists Frame l1) (h2 : Ignores lists Frame l2) :
    Walks (lNextBoth lists l1 l2) fun rest s => (∃ i,
      (∃ L1, (lists.get s).load l1 = some L1 ∧ L1.IterAt xs i) ∧
      (∃ L2, (lists.get s).load l2 = some L2 ∧ L2.IterAt ys i) ∧
      rest = (xs.zip ys).drop i) ∧ Frame s where
  more := by
    rintro ⟨x, y⟩ rest s ⟨⟨i, ⟨L1, hl1, hL1⟩, ⟨L2, hl2, hL2⟩, hrest⟩, hs⟩
    have hi : i < (xs.zip ys).length := by
      have hlength := congrArg List.length hrest
      rw [List.length_cons, List.length_drop] at hlength
      omega
    rw [List.drop_eq_getElem_cons hi, List.getElem_zip, List.cons.injEq, Prod.mk.injEq] at hrest
    obtain ⟨⟨rfl, rfl⟩, rfl⟩ := hrest
    rw [List.length_zip] at hi
    obtain ⟨L1', hrun1, hL1', hs1⟩ := onBlock_lNextCell_of_lt h1 hl1 hL1 (by omega) hs
    have hl2' := (Part.load_put_of_ne lists s hne.symm L1').trans hl2
    obtain ⟨L2', hrun2, hL2', hs2⟩ := onBlock_lNextCell_of_lt h2 hl2' hL2 (by omega) hs1
    refine ⟨_, ?_, ⟨i + 1, ⟨L1', ?_, hL1'⟩, ⟨L2', Part.load_put_self hl2' L2', hL2'⟩, rfl⟩, hs2⟩
    · rw [lNextBoth, CallM.bind_of_some hrun1]
      exact (CallM.bind_of_some hrun2).trans rfl
    · rw [Part.load_put_of_ne lists _ hne, Part.load_put_self hl1]
  done := by
    rintro s ⟨⟨i, ⟨L1, hl1, hL1⟩, hl2, hrest⟩, hs⟩
    have hi : xs.length ≤ i := by
      have hle := List.drop_eq_nil_iff.mp hrest.symm
      rw [List.length_zip] at hle
      omega
    refine ⟨s, ?_, ⟨i, ⟨L1, hl1, hL1⟩, hl2, hrest⟩, hs⟩
    rw [lNextBoth, CallM.bind_of_some (onBlock_lNextCell_of_le hl1 hL1 hi)]
    rfl

/-- **One list**: its iterator moves on from the first cell of a turn to the second. -/
theorem lNextBoth_walks_self (h : Ignores lists Frame a) :
    Walks (lNextBoth lists a a) fun rest s => (∃ i L, (lists.get s).load a = some L ∧
      L.IterAt xs i ∧ rest = adjacent (xs.drop i)) ∧ Frame s where
  more := by
    rintro ⟨x, y⟩ rest s ⟨⟨i, L, hl, hL, hrest⟩, hs⟩
    have hi : i + 1 < xs.length := by
      have hlength := congrArg List.length hrest
      rw [List.length_cons, length_adjacent, List.length_drop] at hlength
      omega
    rw [List.drop_eq_getElem_cons (show i < xs.length by omega), List.drop_eq_getElem_cons hi,
      adjacent, List.cons.injEq, Prod.mk.injEq] at hrest
    obtain ⟨⟨rfl, rfl⟩, rfl⟩ := hrest
    obtain ⟨L', hrun, hL', hs'⟩ := onBlock_lNextCell_of_lt h hl hL (by omega) hs
    have hl' := Part.load_put_self hl L'
    obtain ⟨L'', hrun', hL'', hs''⟩ := onBlock_lNextCell_of_lt h hl' hL' hi hs'
    refine ⟨_, ?_, ⟨i + 1 + 1, L'', Part.load_put_self hl' L'', hL'', rfl⟩, hs''⟩
    rw [lNextBoth, CallM.bind_of_some hrun]
    exact (CallM.bind_of_some hrun').trans rfl
  done := by
    rintro s ⟨⟨i, L, hl, hL, hrest⟩, hs⟩
    have hi : xs.length ≤ i + 1 := by
      have hlength := congrArg List.length hrest
      rw [List.length_nil, length_adjacent, List.length_drop] at hlength
      omega
    by_cases hlast : i < xs.length
    · -- The last cell of a list of odd length is read, and nothing is left to compare it with.
      obtain ⟨L', hrun, hL', hs'⟩ := onBlock_lNextCell_of_lt h hl hL hlast hs
      have hl' := Part.load_put_self hl L'
      refine ⟨_, ?_, ⟨i + 1, L', hl', hL', ?_⟩, hs'⟩
      · rw [lNextBoth, CallM.bind_of_some hrun]
        exact (CallM.bind_of_some (onBlock_lNextCell_of_le hl' hL' hi)).trans rfl
      · rw [List.drop_eq_nil_of_le hi]
        rfl
    · refine ⟨s, ?_, ⟨i, L, hl, hL, hrest⟩, hs⟩
      rw [lNextBoth, CallM.bind_of_some (onBlock_lNextCell_of_le hl hL (by omega))]
      rfl

/-! ## Comparing -/

/--
**Two lists are compared position by position.** What a comparison of two cells finds may depend
on more than the cells: on the `c` that they are of. It keeps both iterators.
-/
theorem lEquals_spec_of_ne (f1 f2 : γ → α) (cs1 cs2 : List γ) (holds : γ → γ → Bool)
    (eq : α → α → CallM σ Bool) (hne : l1 ≠ l2) (hframe1 : Ignores lists Frame l1)
    (hframe2 : Ignores lists Frame l2)
    (htest : ∀ c ∈ cs1.zip cs2, ∀ s, Frame s → ∃ s', eq (f1 c.1) (f2 c.2) s
      = some (holds c.1 c.2, s') ∧ Frame s' ∧ (lists.get s').load l1 = (lists.get s).load l1 ∧
        (lists.get s').load l2 = (lists.get s).load l2)
    (h1 : (lists.get s).load l1 = some L1) (hL1 : L1.Holds (cs1.map f1))
    (h2 : (lists.get s).load l2 = some L2) (hL2 : L2.Holds (cs2.map f2)) (hs : Frame s) :
    ∃ s', lEquals lists l1 l2 eq s = some (cs1.length == cs2.length &&
      (cs1.zip cs2).all fun c => holds c.1 c.2, s') ∧ Frame s' := by
  have hlen1 := (lLen_eq hL1).trans (List.length_map _)
  have hlen2 := (lLen_eq hL2).trans (List.length_map _)
  rw [lEquals, CallM.bind_of_some (onBlock_readList h1 lLen),
    CallM.bind_of_some (onBlock_readList h2 lLen), hlen1, hlen2]
  by_cases hlen : cs1.length ≠ cs2.length
  · rw [if_pos hlen, beq_eq_false_iff_ne.mpr hlen]
    exact ⟨s, rfl, hs⟩
  rw [if_neg hlen, beq_iff_eq.mpr (not_not.mp hlen), Bool.true_and]
  obtain ⟨L1', hreset1, hL1', hs1⟩ := onBlock_lResetIterator hframe1 h1 hL1 hs
  have h2' := (Part.load_put_of_ne lists s hne.symm L1').trans h2
  obtain ⟨L2', hreset2, hL2', hs2⟩ := onBlock_lResetIterator hframe2 h2' hL2 hs1
  rw [CallM.bind_of_some hreset1, CallM.bind_of_some hreset2]
  have hl1 := (Part.load_put_of_ne lists _ hne L2').trans (Part.load_put_self h1 L1')
  obtain ⟨rest, s', hrun, -, hs'⟩ := (lNextBoth_walks_of_ne hne
    (by simpa using not_not.mp hlen) hframe1 hframe2).checkAll (fun cells => eq cells.1 cells.2)
    (Prod.map f1 f2) (fun c => holds c.1 c.2) (cs1.zip cs2) (cs1.length + 1)
    (by rw [List.length_zip]; omega)
    ⟨⟨0, ⟨L1', hl1, hL1'⟩, ⟨L2', Part.load_put_self h2' L2', hL2'⟩, List.zip_map.symm⟩, hs2⟩
    fun c hc rest s hat => by
      obtain ⟨⟨i, ⟨L, hl, hL⟩, ⟨L', hl', hL'⟩, hrest⟩, hs⟩ := hat
      obtain ⟨s', hrun, hs', hsame1, hsame2⟩ := htest c hc s hs
      exact ⟨s', hrun, ⟨i, ⟨L, hsame1.trans hl, hL⟩, ⟨L', hsame2.trans hl', hL'⟩, hrest⟩, hs'⟩
  exact ⟨s', hrun, hs'⟩

/-- **One list is compared with itself** at neighbouring positions instead. -/
theorem lEquals_spec_self (f : γ → α) (cs : List γ) (holds : γ → γ → Bool)
    (eq : α → α → CallM σ Bool) (hframe : Ignores lists Frame a)
    (htest : ∀ c ∈ adjacent cs, ∀ s, Frame s → ∃ s', eq (f c.1) (f c.2) s
      = some (holds c.1 c.2, s') ∧ Frame s' ∧ (lists.get s').load a = (lists.get s).load a)
    (h : (lists.get s).load a = some L) (hL : L.Holds (cs.map f)) (hs : Frame s) :
    ∃ s', lEquals lists a a eq s = some ((adjacent cs).all fun c => holds c.1 c.2, s') ∧
      Frame s' := by
  have hlen := (lLen_eq hL).trans (List.length_map _)
  rw [lEquals, CallM.bind_of_some (onBlock_readList h lLen),
    CallM.bind_of_some (onBlock_readList h lLen), hlen, if_neg (not_not.mpr rfl)]
  obtain ⟨L', hreset, hL', hs₁⟩ := onBlock_lResetIterator hframe h hL hs
  have hl' := Part.load_put_self h L'
  obtain ⟨L'', hreset', hL'', hs₂⟩ := onBlock_lResetIterator hframe hl' hL'.holds hs₁
  rw [CallM.bind_of_some hreset, CallM.bind_of_some hreset']
  obtain ⟨rest, s', hrun, -, hs'⟩ := (lNextBoth_walks_self hframe).checkAll
    (fun cells => eq cells.1 cells.2) (Prod.map f f) (fun c => holds c.1 c.2) (adjacent cs)
    (cs.length + 1) (by rw [length_adjacent]; omega)
    ⟨⟨0, L'', Part.load_put_self hl' L'', hL'', (adjacent_map f cs).symm⟩, hs₂⟩
    fun c hc rest s hat => by
      obtain ⟨⟨i, L, hl, hL, hrest⟩, hs⟩ := hat
      obtain ⟨s', hrun, hs', hsame⟩ := htest c hc s hs
      exact ⟨s', hrun, ⟨i, L, hsame.trans hl, hL, hrest⟩, hs'⟩
  exact ⟨s', hrun, hs'⟩

end Frame

/-! ## Lists and pure comparisons -/

/-- Both have the same length, and `eq` holds at every position. -/
def SameCells (eq : α → α → Bool) (xs ys : List α) : Prop :=
  xs.length = ys.length ∧ ∀ (i : Nat) (x y : α), xs[i]? = some x → ys[i]? = some y → eq x y = true

theorem sameCells_iff (eq : α → α → Bool) : (xs.length == ys.length &&
    (xs.zip ys).all fun c => eq c.1 c.2) = true ↔ SameCells eq xs ys := by
  rw [Bool.and_eq_true, beq_iff_eq, List.all_eq_true, SameCells]
  refine and_congr_right fun _ => ⟨fun h i x y hx hy => ?_, fun h c hc => ?_⟩
  · exact h (x, y) (List.mem_of_getElem? (List.getElem?_zip_eq_some.mpr ⟨hx, hy⟩))
  · obtain ⟨i, hi⟩ := List.getElem?_of_mem hc
    obtain ⟨hx, hy⟩ := List.getElem?_zip_eq_some.mp hi
    exact h i c.1 c.2 hx hy

theorem SameCells.refl {eq : α → α → Bool} (h : ∀ x, eq x x = true) (xs : List α) :
    SameCells eq xs xs :=
  ⟨rfl, fun _ x y hx hy => by rw [Option.some.inj (hx.symm.trans hy)]; exact h y⟩

/-- `eq` holds for the cells at each even position and the one behind it. -/
def AdjacentCells (eq : α → α → Bool) (xs : List α) : Prop :=
  ∀ (k : Nat) (x y : α), xs[2 * k]? = some x → xs[2 * k + 1]? = some y → eq x y = true

theorem adjacentCells_iff (eq : α → α → Bool) :
    ((adjacent xs).all fun c => eq c.1 c.2) = true ↔ AdjacentCells eq xs := by
  rw [List.all_eq_true]
  constructor
  · intro h k x y hx hy
    exact h (x, y) (mem_adjacent.mpr ⟨k, hx, hy⟩)
  · rintro h ⟨x, y⟩ hc
    obtain ⟨k, hx, hy⟩ := mem_adjacent.mp hc
    exact h k x y hx hy

/--
**When `l_equals` compares contents**: always where the two lists are two objects. One object and
itself are compared at neighbouring positions, which must be equal.
-/
theorem lEquals_iff {eq : α → α → Bool} (hrefl : ∀ x, eq x x = true) {mem : Heap (ListT α)}
    {l1 l2 : Nat} {L1 L2 : ListT α} (h1 : mem.load l1 = some L1) (hL1 : L1.Holds xs)
    (h2 : mem.load l2 = some L2) (hL2 : L2.Holds ys) :
    ∃ b mem', lEquals .whole l1 l2 (fun x y => pure (eq x y)) mem = some (b, mem') ∧
      ((b = true ↔ SameCells eq xs ys) ↔ l1 ≠ l2 ∨ AdjacentCells eq xs) := by
  have hframe : ∀ a, Ignores (α := α) .whole (fun _ : Heap (ListT α) => True) a :=
    fun _ _ _ _ _ _ _ => trivial
  by_cases hne : l1 = l2
  · subst hne
    obtain rfl := Option.some.inj (h1.symm.trans h2)
    obtain rfl := hL1.unique hL2
    obtain ⟨mem', hrun, -⟩ := lEquals_spec_self id xs eq (fun x y => pure (eq x y)) (hframe l1)
      (fun c _ s _ => ⟨s, rfl, trivial, rfl⟩) h1 (by rwa [List.map_id]) trivial
    refine ⟨_, mem', hrun, ?_⟩
    rw [adjacentCells_iff]
    simp [SameCells.refl hrefl]
  · obtain ⟨mem', hrun, -⟩ := lEquals_spec_of_ne id id xs ys eq (fun x y => pure (eq x y)) hne
      (hframe l1) (hframe l2) (fun c _ s _ => ⟨s, rfl, trivial, rfl, rfl⟩) h1
      (by rwa [List.map_id]) h2 (by rwa [List.map_id]) trivial
    exact ⟨_, mem', hrun, iff_of_true (sameCells_iff eq) (Or.inl hne)⟩

end Chlibs.Util

import Chlibs.Util.ListSequence

/-!
# Indexed access

`l_get`, `l_get_copy` and `l_set` on both lists. The walk of `ll_get` goes on while `i < cnt`, which
does not hold at its start: it never takes a step, and every index is that of the first cell.

* `alSet_spec`, `llGet_eq`, `llSet_spec` — what is read and written.
* `accessesAt_iff` — when that is the cell with the index.
-/

namespace Chlibs.Util

open Infra

variable {α : Type} {xs : List α} {i : Nat} {x : α}

/--
The access at an index is to that cell of the sequence: it is read, and once it is written an
iteration finds the sequence with another value there.
-/
structure AccessesAt (l : ListT α) (xs : List α) (i : Nat) (x : α) : Prop where
  get : ∃ p, lGet i l = some (some p) ∧ l.load p = xs[i]?
  getCopy : lGetCopy i l = xs[i]?
  set : ∃ l' l'', lSet i x l = some l' ∧ lIterate l' = some (xs.set i x, l'')

/-! ## Array lists -/

section ArrayList

variable {al : ArrayList α}

theorem alSet_spec (h : al.Holds xs) (hi : i < xs.length) (x : α) :
    ∃ al', alSet al i x = some al' ∧ al'.Holds (xs.set i x) := by
  obtain ⟨rest, hrest⟩ := h.cells
  have hroom : i < al.arr.length := by
    rw [← hrest, List.length_append, List.length_map]
    omega
  refine ⟨{ al with arr := al.arr.set i (some x) }, ?_, ?_⟩
  · rw [alSet, alGet, ArrayList.store, if_pos hroom]
  · refine ⟨h.len_eq.trans (List.length_set ..).symm, (List.length_set ..).trans h.cap_eq,
      h.cap_pos, ?_⟩
    rw [← hrest, List.set_append_left _ _ (by simpa using hi), ← List.map_set]
    exact List.prefix_append _ _

theorem ArrayList.Holds.accessesAt (h : al.Holds xs) (hi : i < xs.length) (x : α) :
    AccessesAt (.array al) xs i x := by
  have hload : al.load i = xs[i]? := by rw [h.load hi, List.getElem?_eq_getElem hi]
  refine ⟨⟨i, rfl, hload⟩, hload, ?_⟩
  obtain ⟨al', hset, h'⟩ := alSet_spec h hi x
  obtain ⟨l'', hrun, -⟩ := lIterate_spec (l := .array al') h'
  exact ⟨.array al', l'', by rw [lSet, hset]; rfl, hrun⟩

end ArrayList

/-! ## Linked lists -/

section LinkedList

variable {ll : LinkedList α}

/-- **The walk ends where it starts.** -/
theorem llGet_eq (ll : LinkedList α) (i : Nat) : llGet ll i = some ll.first := by
  unfold llGet llGetLoop
  cases ll.first with
  | none => rfl
  | some node => exact if_neg (Nat.not_lt_zero i)

/-- The first node of a list. -/
theorem LinkedList.Holds.cons {as : List Nat} {ys : List α} {y : α}
    (h : ll.Holds as (y :: ys)) : ∃ a bs, as = a :: bs := by
  cases as with
  | nil => simpa using h.length
  | cons a bs => exact ⟨a, bs, rfl⟩

theorem llGet_spec {as : List Nat} (h : ll.Holds as xs) (hne : xs ≠ []) (i : Nat) :
    ∃ p, llGet ll i = some (some p) ∧ ll.load p = xs[0]? := by
  obtain ⟨y, ys, rfl⟩ := List.exists_cons_of_ne_nil hne
  obtain ⟨a, bs, rfl⟩ := h.cons
  exact ⟨a, by rw [llGet_eq, h.first_eq]; rfl, by rw [LinkedList.load, h.links.1]; rfl⟩

/-- **Every index is written to the first cell.** -/
theorem llSet_spec {as : List Nat} (h : ll.Holds as xs) (hne : xs ≠ []) (i : Nat) (x : α) :
    ∃ ll', llSet ll i x = some ll' ∧ ll'.Holds as (xs.set 0 x) := by
  obtain ⟨y, ys, rfl⟩ := List.exists_cons_of_ne_nil hne
  obtain ⟨a, bs, rfl⟩ := h.cons
  obtain ⟨hload, htail⟩ := h.links
  have ha : a ∉ bs := (List.nodup_cons.mp h.nodup).1
  refine ⟨{ ll with nodes := ll.nodes.put a (some ⟨none, bs.head?.or none, x⟩) }, ?_, h.nodup, ?_,
    h.first_eq, h.last_eq, h.len_eq, ?_⟩
  · have hfirst : ll.first = some a := h.first_eq
    simp only [llSet, llGet_eq, hfirst, LinkedList.store, hload, Heap.store_eq hload,
      Option.bind_eq_bind, Option.bind_some]
  · exact ⟨Heap.load_put_self hload _, htail.put ha _⟩
  · intro b n hb
    by_cases hba : b = a
    · simp [hba]
    · rw [Heap.load_put_of_ne _ hba] at hb
      exact h.live b n hb

/-- Writing at the front is writing at another index, if both values are there already. -/
theorem set_zero_eq_set_iff (hi : i < xs.length) :
    xs.set 0 x = xs.set i x ↔ i = 0 ∨ (xs[0]? = some x ∧ xs[i]? = some x) := by
  constructor
  · intro heq
    rcases Nat.eq_zero_or_pos i with h0 | hpos
    · exact Or.inl h0
    · have hfront := congrArg (·[0]?) heq
      have hback := congrArg (·[i]?) heq
      simp only [List.getElem?_set_self (show 0 < xs.length by omega),
        List.getElem?_set_ne (show i ≠ 0 by omega)] at hfront
      simp only [List.getElem?_set_self hi, List.getElem?_set_ne (show 0 ≠ i by omega)] at hback
      exact Or.inr ⟨hfront.symm, hback⟩
  · rintro (rfl | ⟨hfront, hback⟩)
    · rfl
    · obtain ⟨hlt, rfl⟩ := List.getElem?_eq_some_iff.mp hfront
      rw [List.set_getElem_self, ← (List.getElem?_eq_some_iff.mp hback).2, List.set_getElem_self]

theorem LinkedList.Holds.accessesAt_iff {as : List Nat} (h : ll.Holds as xs) (hi : i < xs.length)
    (x : α) : AccessesAt (.linked ll) xs i x ↔
      i = 0 ∨ (xs[0]? = some x ∧ xs[i]? = some x) := by
  have hne : xs ≠ [] := by
    rintro rfl
    simp at hi
  obtain ⟨p, hget, hload⟩ := llGet_spec h hne i
  obtain ⟨ll', hset, h'⟩ := llSet_spec h hne i x
  obtain ⟨l'', hrun, -⟩ := lIterate_spec (l := .linked ll') ⟨as, h'⟩
  have hlset : lSet i x (.linked ll) = some (.linked ll') := by rw [lSet, hset]; rfl
  rw [← set_zero_eq_set_iff hi]
  constructor
  · rintro ⟨-, -, l₁, l₂, hset₁, hrun₁⟩
    obtain rfl := Option.some.inj (hlset.symm.trans hset₁)
    exact congrArg Prod.fst (Option.some.inj (hrun.symm.trans hrun₁))
  · intro heq
    have hfirst : xs[0]? = xs[i]? := by
      rcases (set_zero_eq_set_iff hi).mp heq with rfl | ⟨hfront, hback⟩
      · rfl
      · rw [hfront, hback]
    refine ⟨⟨p, hget, hload.trans hfirst⟩, ?_, .linked ll', l'', hlset, heq ▸ hrun⟩
    rw [lGetCopy, llGetCopy, hget, ← hfirst]
    exact hload

end LinkedList

/--
**When an index means what it says**: always for an array list. For a linked list at the front, or
where neither reading nor writing the first cell instead makes a difference.
-/
theorem lists_access_iff (garbage : Garbage) (impl : ListImpl) (ops : List (ListOp α)) (i : Nat)
    (x : α) (hi : i < (stateAfter seqStep [] ops).length) :
    ∃ l : ListT α, runCalls lCall ops (newList garbage impl) = some (answers seqStep [] ops, l) ∧
      (AccessesAt l (stateAfter seqStep [] ops) i x ↔ impl = .arrayList ∨ i = 0 ∨
        ((stateAfter seqStep [] ops)[0]? = some x ∧ (stateAfter seqStep [] ops)[i]? = some x)) := by
  obtain ⟨l, hrun, rfl, hholds⟩ := runCalls_newList garbage impl ops
  refine ⟨l, hrun, ?_⟩
  cases l with
  | array al => exact iff_of_true (ArrayList.Holds.accessesAt hholds hi x) (Or.inl rfl)
  | linked ll =>
    obtain ⟨as, h⟩ := hholds
    rw [h.accessesAt_iff hi x]
    simp [ListT.impl]

/-- In an array list the second cell is the second cell. -/
theorem lists_access_iff_array :
    ∃ l : ListT Nat, runCalls lCall [.push 1, .push 2] (newList ⟨5, none⟩ .arrayList)
        = some ([.done, .done], l) ∧ AccessesAt l [1, 2] 1 7 := by
  obtain ⟨l, hrun, hiff⟩ := lists_access_iff ⟨5, none⟩ .arrayList [.push 1, .push 2] 1 7 (by decide)
  exact ⟨l, hrun, hiff.mpr (Or.inl rfl)⟩

/-- In a linked list it is the first one. -/
theorem linkedList_access_first :
    ∃ l l' l'' : ListT Nat, runCalls lCall [.push 1, .push 2] (newList ⟨5, none⟩ .linkedList)
        = some ([.done, .done], l) ∧
      lGetCopy 1 l = some 1 ∧ lSet 1 7 l = some l' ∧ lIterate l' = some ([7, 2], l'') ∧
      ¬ AccessesAt l [1, 2] 1 7 := by
  obtain ⟨l, hrun, himpl, hholds⟩ := runCalls_newList (⟨5, none⟩ : Garbage) .linkedList
    ([.push 1, .push 2] : List (ListOp Nat))
  cases l with
  | array al => cases himpl
  | linked ll =>
    obtain ⟨as, h⟩ := hholds
    obtain ⟨p, hget, hload⟩ := llGet_spec h (by decide) 1
    obtain ⟨ll', hset, h'⟩ := llSet_spec h (by decide) 1 7
    obtain ⟨l'', hrun', -⟩ := lIterate_spec (l := .linked ll') ⟨as, h'⟩
    refine ⟨.linked ll, .linked ll', l'', hrun, ?_, ?_, hrun', ?_⟩
    · rw [lGetCopy, llGetCopy, hget]
      exact hload
    · rw [lSet, hset]
      rfl
    · exact fun hat => absurd ((h.accessesAt_iff (by decide) 7).mp hat) (by decide)

end Chlibs.Util

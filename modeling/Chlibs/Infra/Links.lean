import Chlibs.Infra.Heap

/-!
# Doubly linked chains

Nodes in a heap, each with the addresses of the one before it and of the one behind it.

* `Links` — a chain from one address to another, with what it holds.
* `links_append` — two chains in a row are one chain.
* `Links.setNext`, `Links.setPrev` — an end of a chain is linked to another address.
-/

namespace Chlibs.Infra

structure Node (α : Type*) where
  prev : Option Nat
  next : Option Nat
  cell : α

variable {α : Type*} {h h' : Heap (Node α)} {as bs : List Nat} {xs ys : List α} {a : Nat} {x : α}
  {prev prev' next next' : Option Nat}

/--
The nodes at these addresses hold these values. They are linked both ways, the first one back to
`prev` and the last one on to `next`.
-/
def Links (h : Heap (Node α)) : Option Nat → List Nat → List α → Option Nat → Prop
  | _, [], [], _ => True
  | prev, a :: as, x :: xs, next =>
    h.load a = some ⟨prev, as.head?.or next, x⟩ ∧ Links h (some a) as xs next
  | _, _, _, _ => False

@[simp] theorem links_nil : Links h prev [] xs next ↔ xs = [] := by
  cases xs <;> simp [Links]

@[simp] theorem links_cons : Links h prev (a :: as) (x :: xs) next ↔
    h.load a = some ⟨prev, as.head?.or next, x⟩ ∧ Links h (some a) as xs next := Iff.rfl

theorem Links.length : ∀ {as : List Nat} {xs : List α} {prev : Option Nat},
    Links h prev as xs next → as.length = xs.length
  | [], [], _, _ => rfl
  | _ :: _, _ :: _, _, hl => congrArg Nat.succ (Links.length hl.2)

theorem Links.exists_load : ∀ {as : List Nat} {xs : List α} {prev : Option Nat},
    Links h prev as xs next → ∀ {a : Nat}, a ∈ as → ∃ node, h.load a = some node
  | _ :: _, _ :: _, _, hl, _, ha => by
    rcases List.mem_cons.mp ha with rfl | ha
    · exact ⟨_, hl.1⟩
    · exact Links.exists_load hl.2 ha

/-- A node inside a chain is linked on to the one behind it. -/
theorem Links.load_getElem? : ∀ {as : List Nat} {xs : List α} {prev : Option Nat},
    Links h prev as xs next → ∀ {i a : Nat}, as[i]? = some a →
      ∃ prev' x, h.load a = some ⟨prev', as[i + 1]?.or next, x⟩ ∧ xs[i]? = some x
  | _ :: as, _ :: _, _, hl, 0, _, rfl => ⟨_, _, by rw [hl.1, List.head?_eq_getElem?]; rfl, rfl⟩
  | _ :: _, _ :: _, _, hl, _ + 1, _, ha => Links.load_getElem? hl.2 ha

/-- A chain is not changed by what happens elsewhere. -/
theorem Links.congr : ∀ {as : List Nat} {xs : List α} {prev : Option Nat},
    Links h prev as xs next → (∀ a ∈ as, h'.load a = h.load a) → Links h' prev as xs next
  | [], [], _, _, _ => trivial
  | _ :: _, _ :: _, _, hl, heq => by
    obtain ⟨hhead, htail⟩ := List.forall_mem_cons.mp heq
    exact ⟨hhead.trans hl.1, Links.congr hl.2 htail⟩

theorem Links.put (hl : Links h prev as xs next) (ha : a ∉ as) (c : Option (Node α)) :
    Links (h.put a c) prev as xs next :=
  hl.congr fun _ hb => Heap.load_put_of_ne h (ne_of_mem_of_not_mem hb ha) c

/-- **Two chains in a row.** -/
theorem links_append : ∀ {as : List Nat} {xs : List α} {prev : Option Nat},
    as.length = xs.length → (Links h prev (as ++ bs) (xs ++ ys) next ↔
      Links h prev as xs (bs.head?.or next) ∧ Links h (as.getLast?.or prev) bs ys next)
  | [], [], _, _ => by simp
  | a :: as, x :: xs, prev, hlen => by
    have ih := @links_append as xs (some a) (Nat.succ.inj hlen)
    have hhead : (as ++ bs).head?.or next = as.head?.or (bs.head?.or next) := by
      cases as <;> rfl
    have hlast : (a :: as).getLast?.or prev = as.getLast?.or (some a) := by
      cases as with
      | nil => rfl
      | cons b as =>
        rw [List.getLast?_cons_cons]
        obtain ⟨c, hc⟩ := Option.ne_none_iff_exists'.mp
          (List.getLast?_eq_none_iff.not.mpr (List.cons_ne_nil b as))
        rw [hc]
        rfl
    rw [List.cons_append, List.cons_append, links_cons, links_cons, ih, hhead, hlast, and_assoc]

/-- A chain that is not empty ends with a node. -/
theorem links_concat (hlen : as.length = xs.length) :
    Links h prev (as ++ [a]) (xs ++ [x]) next ↔
      Links h prev as xs (some a) ∧ h.load a = some ⟨as.getLast?.or prev, next, x⟩ := by
  rw [links_append hlen, links_cons, links_nil]
  simp

/-- **The last node is linked on to another address.** -/
theorem Links.setNext (hl : Links h prev (as ++ [a]) (xs ++ [x]) next) (hlen : as.length = xs.length)
    (ha : a ∉ as) (next' : Option Nat) :
    h.load a = some ⟨as.getLast?.or prev, next, x⟩ ∧
      Links (h.put a (some ⟨as.getLast?.or prev, next', x⟩)) prev (as ++ [a]) (xs ++ [x]) next' := by
  obtain ⟨hfront, hload⟩ := (links_concat hlen).mp hl
  exact ⟨hload, (links_concat hlen).mpr ⟨hfront.put ha _, Heap.load_put_self hload _⟩⟩

/-- **The first node is linked back to another address.** -/
theorem Links.setPrev (hl : Links h prev (a :: as) (x :: xs) next) (ha : a ∉ as)
    (prev' : Option Nat) :
    h.load a = some ⟨prev, as.head?.or next, x⟩ ∧
      Links (h.put a (some ⟨prev', as.head?.or next, x⟩)) prev' (a :: as) (x :: xs) next :=
  ⟨hl.1, Heap.load_put_self hl.1 _, hl.2.put ha _⟩

end Chlibs.Infra

import Mathlib

/-!
# Heaps

* `Heap` — blocks of one type by address. An address that was freed is not used again, and a
  load, a store or a free of one is undefined: it gives `none`.
* `Chars` — blocks of characters, not all of them initialised, with the text at a place in them.
* `Heap.count` — how many blocks have a property, and how each operation changes that.
-/

namespace Chlibs.Infra

/-- The block of each address, `none` once it is freed. -/
structure Heap (α : Type*) where
  cells : List (Option α)

namespace Heap

variable {α : Type*}

def empty : Heap α := ⟨[]⟩

def load (h : Heap α) (a : Nat) : Option α := h.cells[a]?.join

/-- The new address, and the heap with it. -/
def alloc (h : Heap α) (x : α) : Nat × Heap α := (h.cells.length, ⟨h.cells ++ [some x]⟩)

/-- What an address holds from now on. -/
def put (h : Heap α) (a : Nat) (c : Option α) : Heap α := ⟨h.cells.set a c⟩

def store (h : Heap α) (a : Nat) (x : α) : Option (Heap α) :=
  if (h.load a).isSome then some (h.put a (some x)) else none

def free (h : Heap α) (a : Nat) : Option (Heap α) :=
  if (h.load a).isSome then some (h.put a none) else none

/-- How many blocks have the property. -/
def count (h : Heap α) (p : α → Bool) : Nat := h.cells.countP fun c => c.any p

/-! ## Loads -/

@[simp] theorem load_empty (a : Nat) : (empty : Heap α).load a = none := rfl

theorem load_alloc (h : Heap α) (x : α) (a : Nat) :
    (h.alloc x).2.load a = if a = (h.alloc x).1 then some x else h.load a := by
  unfold load alloc
  rcases Nat.lt_trichotomy a h.cells.length with hlt | heq | hgt
  · rw [if_neg (by simp; omega), List.getElem?_append_left hlt]
  · simp [heq]
  · rw [if_neg (by simp; omega), List.getElem?_eq_none (by simp; omega),
      List.getElem?_eq_none (by omega)]

/-- A new address was not in use. -/
@[simp] theorem load_alloc_fst (h : Heap α) (x : α) : h.load (h.alloc x).1 = none := by
  simp [load, alloc]

/-- An address in use is not the new one. -/
theorem ne_alloc_fst {h : Heap α} {a : Nat} {y : α} (ha : h.load a = some y) (x : α) :
    a ≠ (h.alloc x).1 := by
  rintro rfl
  simp at ha

theorem load_alloc_of_some {h : Heap α} {a : Nat} {y : α} (ha : h.load a = some y) (x : α) :
    (h.alloc x).2.load a = some y := by
  rw [load_alloc, if_neg (ne_alloc_fst ha x), ha]

theorem lt_length_of_load {h : Heap α} {a : Nat} {y : α} (ha : h.load a = some y) :
    ∃ hlt : a < h.cells.length, h.cells[a] = some y := by
  unfold load at ha
  cases hc : h.cells[a]? with
  | none => simp [hc] at ha
  | some c =>
    obtain ⟨hlt, hget⟩ := List.getElem?_eq_some_iff.mp hc
    rw [hc, Option.join_some] at ha
    exact ⟨hlt, by rw [hget, ha]⟩

theorem load_put {h : Heap α} {a : Nat} {y : α} (ha : h.load a = some y) (c : Option α) (b : Nat) :
    (h.put a c).load b = if b = a then c else h.load b := by
  obtain ⟨hlt, -⟩ := lt_length_of_load ha
  unfold load put
  by_cases hb : b = a
  · rw [if_pos hb, hb, List.getElem?_set_self hlt, Option.join_some]
  · rw [if_neg hb, List.getElem?_set_ne (Ne.symm hb)]

theorem load_put_self {h : Heap α} {a : Nat} {y : α} (ha : h.load a = some y) (c : Option α) :
    (h.put a c).load a = c := by
  rw [load_put ha, if_pos rfl]

theorem load_put_of_ne (h : Heap α) {a b : Nat} (hb : b ≠ a) (c : Option α) :
    (h.put a c).load b = h.load b := by
  rw [load, put, List.getElem?_set_ne (Ne.symm hb), load]

/-- Only the last content of an address matters. -/
@[simp] theorem put_put (h : Heap α) (a : Nat) (c d : Option α) :
    (h.put a c).put a d = h.put a d := by
  simp [put]

theorem put_self {h : Heap α} {a : Nat} {y : α} (ha : h.load a = some y) :
    h.put a (some y) = h := by
  obtain ⟨hlt, hget⟩ := lt_length_of_load ha
  rw [put, ← hget, List.set_getElem_self]

theorem store_eq {h : Heap α} {a : Nat} {y : α} (ha : h.load a = some y) (x : α) :
    h.store a x = some (h.put a (some x)) := by
  simp [store, ha]

theorem free_eq {h : Heap α} {a : Nat} {y : α} (ha : h.load a = some y) :
    h.free a = some (h.put a none) := by
  simp [free, ha]

/-! ## Counts -/

@[simp] theorem count_empty (p : α → Bool) : (empty : Heap α).count p = 0 := rfl

theorem count_alloc (h : Heap α) (x : α) (p : α → Bool) :
    (h.alloc x).2.count p = h.count p + (if p x then 1 else 0) := by
  simp [count, alloc, List.countP_singleton]

/-- A count loses the old content of a block and gains the new one. -/
theorem count_put {h : Heap α} {a : Nat} {y : α} (ha : h.load a = some y) (c : Option α)
    (p : α → Bool) :
    (h.put a c).count p + (if p y then 1 else 0) = h.count p + (if c.any p then 1 else 0) := by
  obtain ⟨hlt, hget⟩ := lt_length_of_load ha
  unfold count put
  rw [List.countP_set hlt, hget]
  simp only [Option.any_some]
  by_cases hp : p y
  · have hpos : 0 < h.cells.countP fun c => c.any p :=
      List.countP_pos_iff.mpr ⟨some y, hget ▸ List.getElem_mem hlt, hp⟩
    rw [if_pos hp]
    omega
  · rw [if_neg hp]
    omega

/-- A block with the property is counted. -/
theorem count_pos {h : Heap α} {a : Nat} {y : α} (ha : h.load a = some y) {p : α → Bool}
    (hp : p y) : 0 < h.count p := by
  obtain ⟨hlt, hget⟩ := lt_length_of_load ha
  exact List.countP_pos_iff.mpr ⟨some y, hget ▸ List.getElem_mem hlt, hp⟩

/-- Two blocks with the property are counted twice. -/
theorem two_le_count {h : Heap α} {a b : Nat} (hab : a ≠ b) {y z : α} (ha : h.load a = some y)
    (hb : h.load b = some z) {p : α → Bool} (hy : p y) (hz : p z) : 2 ≤ h.count p := by
  have hput := count_put ha none p
  have hb' : (h.put a none).load b = some z := by rw [load_put_of_ne h (Ne.symm hab), hb]
  have hpos := count_pos hb' hz
  rw [if_pos hy] at hput
  simp only [Option.any_none, Bool.false_eq_true, if_false] at hput
  omega

end Heap

/-! ## Characters -/

/-- A block of characters; `none` is one that was never written. -/
abbrev Chars := List (Option UInt8)

namespace Chars

/-- The C string at the start of a block. Undefined where no NUL ends it. -/
def cstr : Chars → Option (List UInt8)
  | [] => none
  | none :: _ => none
  | some b :: cs => if b = 0 then some [] else (cstr cs).map (b :: ·)

/-- Write `new` from position `i` on. -/
def splice (block : Chars) (i : Nat) (new : Chars) : Chars :=
  block.take i ++ new ++ block.drop (i + new.length)

/-- The text that a NUL ends is read back up to its first NUL. -/
theorem cstr_append (w : List UInt8) (rest : Chars) :
    cstr ((w ++ [0]).map some ++ rest) = some (w.takeWhile (· ≠ 0)) := by
  induction w with
  | nil => rfl
  | cons b w ih =>
    simp only [List.cons_append, List.map_cons, cstr, ih]
    by_cases hb : b = 0
    · simp [hb]
    · simp [hb]

theorem cstr_ne_zero {block : Chars} {w : List UInt8} (h : cstr block = some w) : 0 ∉ w := by
  induction block generalizing w with
  | nil => simp [cstr] at h
  | cons c cs ih =>
    cases c with
    | none => simp [cstr] at h
    | some b =>
      rw [cstr] at h
      split at h
      · cases h
        simp
      · next hb =>
        obtain ⟨w', hw', rfl⟩ := Option.map_eq_some_iff.mp h
        simp only [List.mem_cons, not_or]
        exact ⟨fun h0 => hb h0.symm, ih hw'⟩

/-- A C string and its NUL are at the start of the block. -/
theorem eq_of_cstr {block : Chars} {w : List UInt8} (h : cstr block = some w) :
    ∃ rest, block = (w ++ [0]).map some ++ rest := by
  induction block generalizing w with
  | nil => simp [cstr] at h
  | cons c cs ih =>
    cases c with
    | none => simp [cstr] at h
    | some b =>
      rw [cstr] at h
      split at h
      · next hb =>
        cases h
        exact ⟨cs, by rw [hb]; rfl⟩
      · obtain ⟨w', hw', rfl⟩ := Option.map_eq_some_iff.mp h
        obtain ⟨rest, hrest⟩ := ih hw'
        exact ⟨rest, by rw [hrest]; rfl⟩

/-- Writing over the middle of a block. -/
theorem splice_append {a old new b : Chars} {i : Nat} (hi : a.length = i)
    (hlen : old.length = new.length) : splice (a ++ old ++ b) i new = a ++ new ++ b := by
  subst hi
  have htake : (a ++ old ++ b).take a.length = a := by rw [List.append_assoc, List.take_left]
  have hdrop : (a ++ old ++ b).drop (a.length + new.length) = b := by
    rw [← hlen, ← List.length_append, List.drop_left]
  rw [splice, htake, hdrop]

end Chars

end Chlibs.Infra

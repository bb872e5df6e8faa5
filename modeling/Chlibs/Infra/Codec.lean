import Chlibs.Infra.Bytes

/-!
# Codecs

A codec carries its two laws: reading undoes writing in front of any rest, and
whatever is read is the writing of an admissible value. Combinators build codecs for
fixed blocks, counted sequences and records out of codecs for their parts, so a format
described by combinators needs no further proof to be uniquely readable.

A format read this way is prefix free (`Codec.write_append_inj`), and no proper prefix of
an encoding is accepted (`Codec.read_eq_none`).
-/

namespace Chlibs.Infra

/-- A writer, a reader, and the values they agree on. -/
structure Codec (α : Type) where
  write : α → Bytes
  dom : α → Prop
  read : Bytes → Option (α × Bytes)
  read_write : ∀ {a : α}, dom a → ∀ rest, read (write a ++ rest) = some (a, rest)
  write_read : ∀ {b : Bytes} {a : α} {rest : Bytes}, read b = some (a, rest) →
    dom a ∧ b = write a ++ rest

namespace Codec

variable {α β : Type}

/-! ## Consequences of the laws -/

section Laws

variable (c : Codec α)

theorem read_append {b : Bytes} {a : α} {rest : Bytes} (h : c.read b = some (a, rest))
    (s : Bytes) : c.read (b ++ s) = some (a, rest ++ s) := by
  obtain ⟨hd, rfl⟩ := c.write_read h
  rw [List.append_assoc, c.read_write hd]

/-- Two encodings that start the same bytes are the same encoding. -/
theorem write_append_inj {a a' : α} {r r' : Bytes} (h : c.dom a) (h' : c.dom a')
    (he : c.write a ++ r = c.write a' ++ r') : a = a' ∧ r = r' := by
  have h1 := c.read_write h r
  rw [he, c.read_write h' r'] at h1
  simp only [Option.some.injEq, Prod.mk.injEq] at h1
  exact ⟨h1.1.symm, h1.2.symm⟩

theorem write_inj {a a' : α} (h : c.dom a) (h' : c.dom a') (he : c.write a = c.write a') : a = a' :=
  (c.write_append_inj h h' (congrArg (· ++ []) he)).1

/-- **A proper prefix of an encoding is not accepted.** -/
theorem read_eq_none {a : α} {p q : Bytes} (h : c.dom a) (he : c.write a = p ++ q)
    (hq : q ≠ []) : c.read p = none := by
  cases hr : c.read p with
  | none => rfl
  | some x =>
    obtain ⟨a', rest⟩ := x
    have h1 := c.read_append hr q
    have h2 := c.read_write h []
    rw [List.append_nil, he, h1] at h2
    simp only [Option.some.injEq, Prod.mk.injEq, List.append_eq_nil_iff] at h2
    exact absurd h2.2.2 hq

theorem read_length {b : Bytes} {a : α} {rest : Bytes} (h : c.read b = some (a, rest)) :
    b.length = (c.write a).length + rest.length := by
  rw [(c.write_read h).2, List.length_append]

/-- The rest is what follows the encoding. -/
theorem read_rest {b : Bytes} {a : α} {rest : Bytes} (h : c.read b = some (a, rest)) :
    rest = b.drop (c.write a).length := by
  rw [(c.write_read h).2, List.drop_left]

end Laws

/-! ## Blocks -/

/-- Exactly `n` bytes. -/
def fixed (n : Nat) : Codec Bytes where
  write bs := bs
  dom bs := bs.length = n
  read b := if n ≤ b.length then some (b.take n, b.drop n) else none
  read_write := by
    intro a h rest
    subst h
    rw [if_pos (by simp), List.take_left, List.drop_left]
  write_read := by
    intro b a rest h
    split at h
    · next hn =>
      simp only [Option.some.injEq, Prod.mk.injEq] at h
      obtain ⟨rfl, rfl⟩ := h
      exact ⟨by simpa using hn, (List.take_append_drop n b).symm⟩
    · simp at h

/-- A little-endian 32-bit length. -/
def len32 : Codec Nat where
  write n := le32 n
  dom n := n < 2 ^ 32
  read b := if 4 ≤ b.length then some (leNat (b.take 4), b.drop 4) else none
  read_write := by
    intro a h rest
    rw [if_pos (by simp), List.take_left' (le32_length a), List.drop_left' (le32_length a),
      leNat_le32 h]
  write_read := by
    intro b a rest h
    split at h
    · next hn =>
      have hlen : (b.take 4).length = 4 := by simpa using hn
      simp only [Option.some.injEq, Prod.mk.injEq] at h
      obtain ⟨rfl, rfl⟩ := h
      exact ⟨leNat_lt_of_length_four hlen, by rw [le32_leNat hlen, List.take_append_drop]⟩
    · simp at h

/-! ## Sequencing -/

/-- One value, then another whose codec depends on it. -/
def dep (c : Codec α) (d : α → Codec β) : Codec (α × β) where
  write x := c.write x.1 ++ (d x.1).write x.2
  dom x := c.dom x.1 ∧ (d x.1).dom x.2
  read b :=
    match c.read b with
    | none => none
    | some (a, rest) =>
      match (d a).read rest with
      | none => none
      | some (y, rest') => some ((a, y), rest')
  read_write := by
    rintro ⟨a, y⟩ ⟨ha, hy⟩ rest
    simp only [List.append_assoc, c.read_write ha, (d a).read_write hy]
  write_read := by
    intro b x rest h
    split at h
    · simp at h
    · next a rest₁ h₁ =>
      split at h
      · simp at h
      · next y rest₂ h₂ =>
        simp only [Option.some.injEq, Prod.mk.injEq] at h
        obtain ⟨rfl, rfl⟩ := h
        obtain ⟨ha, rfl⟩ := c.write_read h₁
        obtain ⟨hy, rfl⟩ := (d a).write_read h₂
        exact ⟨⟨ha, hy⟩, by rw [List.append_assoc]⟩

/-- The empty sequence. -/
def nil : Codec (List α) where
  write _ := []
  dom l := l = []
  read b := some ([], b)
  read_write := by rintro _ rfl rest; rfl
  write_read := by
    intro b a rest h
    simp only [Option.some.injEq, Prod.mk.injEq] at h
    exact ⟨h.1.symm, h.2⟩

/-- A first element and the elements after it. -/
def cons (c : Codec α) (cs : Codec (List α)) : Codec (List α) where
  write
    | [] => []
    | a :: as => c.write a ++ cs.write as
  dom
    | [] => False
    | a :: as => c.dom a ∧ cs.dom as
  read b :=
    match c.read b with
    | none => none
    | some (a, rest) =>
      match cs.read rest with
      | none => none
      | some (as, rest') => some (a :: as, rest')
  read_write := by
    intro l h rest
    match l, h with
    | a :: as, ⟨ha, has⟩ =>
      simp only [List.append_assoc, c.read_write ha, cs.read_write has]
  write_read := by
    intro b l rest h
    split at h
    · simp at h
    · next a rest₁ h₁ =>
      split at h
      · simp at h
      · next as rest₂ h₂ =>
        simp only [Option.some.injEq, Prod.mk.injEq] at h
        obtain ⟨rfl, rfl⟩ := h
        obtain ⟨ha, rfl⟩ := c.write_read h₁
        obtain ⟨has, rfl⟩ := cs.write_read h₂
        exact ⟨⟨ha, has⟩, by rw [List.append_assoc]⟩

/-- `k` elements of one codec. -/
def rep (c : Codec α) : Nat → Codec (List α)
  | 0 => nil
  | k + 1 => cons c (rep c k)

/-- `k` elements: a list of length `k` whose members are all admissible. -/
theorem rep_dom (c : Codec α) (k : Nat) (l : List α) :
    (rep c k).dom l ↔ l.length = k ∧ ∀ a ∈ l, c.dom a := by
  induction k generalizing l with
  | zero => cases l <;> simp [rep, nil]
  | succ k ih =>
    cases l with
    | nil => simp [rep, cons]
    | cons a as =>
      simp only [rep, cons, ih as, List.length_cons, List.forall_mem_cons]
      constructor
      · rintro ⟨ha, hl, has⟩; exact ⟨by omega, ha, has⟩
      · rintro ⟨hl, ha, has⟩; exact ⟨ha, by omega, has⟩

theorem rep_write (c : Codec α) (l : List α) :
    (rep c l.length).write l = l.flatMap c.write := by
  induction l with
  | nil => rfl
  | cons a as ih => simp only [List.length_cons, rep, cons, ih, List.flatMap_cons]

/-! ## Change of representation -/

/--
Read and write a value of `β` through a value of `α`. `unpack` is partial: values of `β`
outside the image of `pack` are not in the domain.
-/
def embed (c : Codec α) (pack : α → β) (unpack : β → Option α)
    (unpack_pack : ∀ a, c.dom a → unpack (pack a) = some a)
    (pack_unpack : ∀ b a, unpack b = some a → pack a = b) : Codec β where
  write b := ((unpack b).map c.write).getD []
  dom b := ∃ a, unpack b = some a ∧ c.dom a
  read bs := (c.read bs).map fun x => (pack x.1, x.2)
  read_write := by
    rintro b ⟨a, hb, ha⟩ rest
    simp [hb, c.read_write ha, pack_unpack b a hb]
  write_read := by
    intro bs b rest h
    obtain ⟨⟨a, rest'⟩, hr, he⟩ := Option.map_eq_some_iff.mp h
    simp only [Prod.mk.injEq] at he
    obtain ⟨rfl, rfl⟩ := he
    obtain ⟨ha, rfl⟩ := c.write_read hr
    exact ⟨⟨a, unpack_pack a ha, ha⟩, by simp [unpack_pack a ha]⟩

/-! ## Length prefixes -/

/-- A block behind its length. -/
def block : Codec Bytes :=
  (len32.dep fixed).embed Prod.snd (fun bs => some (bs.length, bs))
    (by
      rintro ⟨n, bs⟩ ⟨-, h⟩
      have hn : bs.length = n := h
      rw [hn])
    (by rintro bs _ h; cases h; rfl)

/-- A list behind its length. -/
def counted (c : Codec α) : Codec (List α) :=
  (len32.dep (rep c)).embed Prod.snd (fun l => some (l.length, l))
    (by
      rintro ⟨n, l⟩ ⟨-, h⟩
      have hn : l.length = n := ((rep_dom c n l).mp h).1
      rw [hn])
    (by rintro l _ h; cases h; rfl)

@[simp] theorem block_dom (bs : Bytes) : block.dom bs ↔ bs.length < 2 ^ 32 := by
  simp [block, embed, dep, len32, fixed]

@[simp] theorem block_write (bs : Bytes) : block.write bs = le32 bs.length ++ bs := rfl

theorem block_read (b : Bytes) :
    block.read b = ((len32.dep fixed).read b).map fun x => (x.1.2, x.2) := rfl

@[simp] theorem counted_dom (c : Codec α) (l : List α) :
    (counted c).dom l ↔ l.length < 2 ^ 32 ∧ ∀ a ∈ l, c.dom a := by
  simp [counted, embed, dep, len32, rep_dom]

@[simp] theorem counted_write (c : Codec α) (l : List α) :
    (counted c).write l = le32 l.length ++ l.flatMap c.write := by
  simp [counted, embed, dep, len32, rep_write]

/-- Reading a length and then as many bytes as it calls for. -/
theorem len32_dep_fixed_read (f : Nat → Nat) (b : Bytes) :
    (len32.dep fun n => fixed (f n)).read b =
      if 4 ≤ b.length ∧ f (leNat (b.take 4)) ≤ (b.drop 4).length then
        some ((leNat (b.take 4), (b.drop 4).take (f (leNat (b.take 4)))),
          (b.drop 4).drop (f (leNat (b.take 4))))
      else none := by
  by_cases h4 : 4 ≤ b.length
  · by_cases hn : f (leNat (b.take 4)) ≤ (b.drop 4).length
    · simp only [dep, len32, fixed, if_pos h4, if_pos hn, if_pos (And.intro h4 hn)]
    · simp only [dep, len32, fixed, if_pos h4, if_neg hn,
        if_neg (not_and_of_not_right _ hn)]
  · simp only [dep, len32, fixed, if_neg h4, if_neg (not_and_of_not_left _ h4)]

/-- Reading a counted list is reading the count and then the elements. -/
theorem counted_read (c : Codec α) (b : Bytes) :
    (counted c).read b =
      match len32.read b with
      | none => none
      | some (n, rest) => (rep c n).read rest := by
  simp only [counted, embed, dep]
  cases len32.read b with
  | none => rfl
  | some x =>
    cases h : (rep c x.1).read x.2 <;> simp [h]

end Codec

end Chlibs.Infra

import Mathlib

/-!
# Byte strings

What C code does with raw memory, on lists of bytes: little-endian numbers,
NUL-terminated text, and copying a block over part of another one.

A heap block is the list of its bytes. `malloc(0)` is `NULL` here, so the empty
list is the null pointer.
-/

namespace Chlibs.Infra

abbrev Bytes := List UInt8

/-! ## Little-endian numbers -/

/-- The `k` low bytes of `n`, least significant first. -/
def leBytes : Nat → Nat → Bytes
  | 0, _ => []
  | k + 1, n => UInt8.ofNat n :: leBytes k (n / 256)

/-- The number a little-endian byte string stands for. -/
def leNat : Bytes → Nat
  | [] => 0
  | b :: bs => b.toNat + 256 * leNat bs

@[simp] theorem leBytes_length (k n : Nat) : (leBytes k n).length = k := by
  induction k generalizing n with
  | zero => rfl
  | succ k ih => simp [leBytes, ih]

theorem leNat_lt (bs : Bytes) : leNat bs < 256 ^ bs.length := by
  induction bs with
  | nil => simp [leNat]
  | cons b bs ih =>
    have hb : b.toNat < 256 := UInt8.toNat_lt_size b
    simp only [leNat, List.length_cons, Nat.pow_succ]
    omega

theorem leNat_leBytes {k n : Nat} (h : n < 256 ^ k) : leNat (leBytes k n) = n := by
  induction k generalizing n with
  | zero => simp [leBytes, leNat] at h ⊢; omega
  | succ k ih =>
    have hdiv : n / 256 < 256 ^ k := Nat.div_lt_of_lt_mul (by rw [Nat.pow_succ] at h; omega)
    have hlow : (UInt8.ofNat n).toNat = n % 256 := by simp
    rw [leBytes, leNat, ih hdiv, hlow]
    omega

theorem leBytes_leNat (bs : Bytes) : leBytes bs.length (leNat bs) = bs := by
  induction bs with
  | nil => rfl
  | cons b bs ih =>
    have hb : b.toNat < 256 := UInt8.toNat_lt_size b
    have hlow : UInt8.ofNat (b.toNat + 256 * leNat bs) = b := by
      apply UInt8.toNat_inj.mp
      simp
    have hdiv : (b.toNat + 256 * leNat bs) / 256 = leNat bs := by omega
    simp only [List.length_cons, leNat, leBytes, hlow, hdiv, ih]

/-- A little-endian 32-bit length. -/
def le32 (n : Nat) : Bytes := leBytes 4 n

@[simp] theorem le32_length (n : Nat) : (le32 n).length = 4 := leBytes_length 4 n

theorem leNat_le32 {n : Nat} (h : n < 2 ^ 32) : leNat (le32 n) = n :=
  leNat_leBytes (by omega)

/-- Four bytes are the encoding of the number they stand for. -/
theorem le32_leNat {bs : Bytes} (h : bs.length = 4) : le32 (leNat bs) = bs := by
  rw [le32, ← h, leBytes_leNat]

theorem leNat_lt_of_length_four {bs : Bytes} (h : bs.length = 4) : leNat bs < 2 ^ 32 := by
  have := leNat_lt bs
  rw [h] at this
  omega

/-! ## NUL-terminated text -/

/-- The bytes before the first NUL. -/
def cString (block : Bytes) : Bytes := block.takeWhile (· ≠ 0)

/-- `strlen`. Undefined on a block that holds no NUL (the null pointer among them). -/
def strlen (block : Bytes) : Option Nat :=
  if (0 : UInt8) ∈ block then some (cString block).length else none

/-- A block that holds exactly one NUL, its last byte. -/
def TerminatedOnce (block : Bytes) : Prop := ∃ s : Bytes, (0 : UInt8) ∉ s ∧ block = s ++ [0]

theorem cString_cons (c : UInt8) (s : Bytes) :
    cString (c :: s) = if c = 0 then [] else c :: cString s := by
  unfold cString
  rw [List.takeWhile_cons]
  by_cases hc : c = 0 <;> simp [hc]

theorem cString_append_zero {s : Bytes} (h : (0 : UInt8) ∉ s) (rest : Bytes) :
    cString (s ++ 0 :: rest) = s := by
  unfold cString
  rw [List.takeWhile_append_of_pos (by
    intro x hx
    have hne : x ≠ 0 := fun he => h (he ▸ hx)
    simpa using hne)]
  simp

theorem zero_notMem_cString (block : Bytes) : (0 : UInt8) ∉ cString block := by
  intro h
  simpa using List.mem_takeWhile_imp h

theorem cString_of_notMem {s : Bytes} (h : (0 : UInt8) ∉ s) : cString s = s := by
  unfold cString
  rw [List.takeWhile_eq_self_iff]
  intro x hx
  have hne : x ≠ 0 := fun he => h (he ▸ hx)
  simpa using hne

theorem TerminatedOnce.mem {b : Bytes} (h : TerminatedOnce b) : (0 : UInt8) ∈ b := by
  obtain ⟨s, -, rfl⟩ := h
  simp

theorem TerminatedOnce.ne_nil {b : Bytes} (h : TerminatedOnce b) : b ≠ [] :=
  List.ne_nil_of_mem h.mem

/-- On such a block `strlen` counts all bytes but the last. -/
theorem TerminatedOnce.strlen {b : Bytes} (h : TerminatedOnce b) :
    strlen b = some (b.length - 1) := by
  unfold Infra.strlen
  rw [if_pos h.mem]
  obtain ⟨s, hs, rfl⟩ := h
  rw [cString_append_zero hs]
  simp

/-! ## Cutting -/

/-- Where `p` ends in two byte strings that follow each other: inside the first, or behind it. -/
theorem append_cut {a b p q : Bytes} (h : a ++ b = p ++ q) :
    (∃ r, r ≠ [] ∧ a = p ++ r) ∨ ∃ r, p = a ++ r ∧ b = r ++ q := by
  rcases List.append_eq_append_iff.mp h with ⟨r, hp, hb⟩ | ⟨r, ha, hq⟩
  · exact .inr ⟨r, hp, hb⟩
  · by_cases hr : r = []
    · subst hr
      rw [List.append_nil] at ha
      exact .inr ⟨[], by rw [ha, List.append_nil], by rw [hq]; rfl⟩
    · exact .inl ⟨r, hr, ha⟩

/-! ## Copying over part of a block -/

/-- `memcpy(mem + p, bs, |bs|)`. -/
def overwrite (mem : Bytes) (p : Nat) (bs : Bytes) : Bytes :=
  mem.take p ++ bs ++ mem.drop (p + bs.length)

@[simp] theorem overwrite_nil (mem : Bytes) (p : Nat) : overwrite mem p [] = mem := by
  simp [overwrite]

theorem overwrite_zero (mem bs : Bytes) : overwrite mem 0 bs = bs ++ mem.drop bs.length := by
  simp [overwrite]

/-- What is at the front after a block was copied there. -/
@[simp] theorem take_overwrite_zero (mem bs : Bytes) : (overwrite mem 0 bs).take bs.length = bs := by
  rw [overwrite_zero, List.take_left]

theorem overwrite_length {mem : Bytes} {p : Nat} {bs : Bytes} (h : p + bs.length ≤ mem.length) :
    (overwrite mem p bs).length = mem.length := by
  simp [overwrite]
  omega

theorem take_overwrite {mem : Bytes} {p : Nat} {bs : Bytes} (h : p + bs.length ≤ mem.length) :
    (overwrite mem p bs).take p = mem.take p := by
  unfold overwrite
  rw [List.append_assoc, List.take_append_of_le_length (by simp; omega)]
  simp

theorem drop_overwrite {mem : Bytes} {p q : Nat} {bs : Bytes} (h : p + bs.length ≤ mem.length)
    (hq : p + bs.length ≤ q) : (overwrite mem p bs).drop q = mem.drop q := by
  unfold overwrite
  rw [List.drop_append, List.drop_eq_nil_of_le (by simp; omega), List.nil_append, List.drop_drop]
  congr 1
  simp
  omega

/-- What was written can be read at its place. -/
theorem read_overwrite {mem : Bytes} {p : Nat} {bs : Bytes} (h : p + bs.length ≤ mem.length) :
    ((overwrite mem p bs).drop p).take bs.length = bs := by
  unfold overwrite
  rw [List.append_assoc, List.drop_append, List.drop_eq_nil_of_le (by simp), List.nil_append]
  simp [Nat.min_eq_left (show p ≤ mem.length by omega)]

/-- Writing `a` and then `b` right after it writes `a ++ b`. -/
theorem overwrite_overwrite {mem : Bytes} {p : Nat} {a b : Bytes}
    (h : p + a.length ≤ mem.length) :
    overwrite (overwrite mem p a) (p + a.length) b = overwrite mem p (a ++ b) := by
  have htake : (overwrite mem p a).take (p + a.length) = mem.take p ++ a := by
    unfold overwrite
    rw [List.take_append_of_le_length (by simp; omega)]
    exact List.take_of_length_le (by simp)
  have hdrop : (overwrite mem p a).drop (p + a.length + b.length)
      = mem.drop (p + (a ++ b).length) := by
    rw [drop_overwrite h (by omega), List.length_append, Nat.add_assoc]
  rw [overwrite, htake, hdrop]
  simp [overwrite]

/-- Filling a gap left in front of what was written already. -/
theorem overwrite_before {mem : Bytes} {p : Nat} {a b : Bytes}
    (h : p + a.length + b.length ≤ mem.length) :
    overwrite (overwrite mem (p + a.length) b) p a = overwrite mem p (a ++ b) := by
  have htake : (overwrite mem (p + a.length) b).take p = mem.take p := by
    have h1 : (overwrite mem (p + a.length) b).take (p + a.length) = mem.take (p + a.length) :=
      take_overwrite h
    have h2 := congrArg (List.take p) h1
    simpa [List.take_take] using h2
  have hdrop : (overwrite mem (p + a.length) b).drop (p + a.length)
      = b ++ mem.drop (p + a.length + b.length) := by
    unfold overwrite
    rw [List.append_assoc, List.drop_append, List.drop_eq_nil_of_le (by simp),
      List.nil_append]
    simp [Nat.min_eq_left (show p + a.length ≤ mem.length by omega)]
  rw [overwrite, htake, hdrop]
  simp [overwrite, Nat.add_assoc]

end Chlibs.Infra

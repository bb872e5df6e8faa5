import Chlibs.Infra.Cursor
import Chlibs.Util.Stream

/-!
# Decoding UTF-8

`unicode_from_utf8` tells from the first bits of a byte how many bytes a code point has, and puts
the other bits together. A lead byte of one length is none of another, so the codes of a text cannot
be taken for anything but what was written.

* `unicodeFromUtf8_utf8Of` — a code point is read back, and what is behind it is left.
* `nextUnicode_walks` — the calls on a text that was written code point by code point.
-/

namespace Chlibs.Util

open Infra

/-! ## The decoder -/

/-- `TRY_STREAM_CALL(is_next_char(is, &byte))` -/
def tryNextChar : EStateM StreamState InStream UInt8 := fun is =>
  match isNextChar is with
  | .ok (c, is') => .ok c is'
  | .error st => .error st is

/-- A space stands for what is no UTF-8. -/
def unicodeFromUtf8 : EStateM StreamState InStream Unicode := do
  let byte0 ← tryNextChar
  if (byte0 >>> 7) ^^^ 0x0 = 0 then pure byte0.toUInt16
  else if (byte0 >>> 5) ^^^ 0x6 = 0 then do
    let byte1 ← tryNextChar
    if (byte1 >>> 6) ^^^ 0x2 ≠ 0 then pure 0x20
    else pure ((byte1 &&& 0x3F).toUInt16 ||| ((byte0 &&& 0x1F).toUInt16 <<< 6))
  else if (byte0 >>> 4) ^^^ 0xE = 0 then do
    let byte1 ← tryNextChar
    let byte2 ← tryNextChar
    if (byte1 >>> 6) ^^^ 0x2 ≠ 0 ∨ (byte2 >>> 6) ^^^ 0x2 ≠ 0 then pure 0x20
    else pure ((byte2 &&& 0x3F).toUInt16 ||| ((byte1 &&& 0x3F).toUInt16 <<< 6) |||
      ((byte0 &&& 0xF).toUInt16 <<< 12))
  else pure 0x20

/-! ## Bytes -/

/-- A byte of its own. -/
theorem singleByte : ∀ n < 128, (UInt8.ofNat n >>> 7) ^^^ 0x0 = 0 := by decide +kernel

/-- The first byte of two. -/
theorem leadByte_two : ∀ i < 32, ¬(UInt8.ofNat (0xC0 + i) >>> 7) ^^^ 0x0 = 0 ∧
    (UInt8.ofNat (0xC0 + i) >>> 5) ^^^ 0x6 = 0 ∧
    (UInt8.ofNat (0xC0 + i) &&& 0x1F).toUInt16.toNat = i := by
  decide +kernel

/-- The first byte of three. -/
theorem leadByte_three : ∀ i < 16, ¬(UInt8.ofNat (0xE0 + i) >>> 7) ^^^ 0x0 = 0 ∧
    ¬(UInt8.ofNat (0xE0 + i) >>> 5) ^^^ 0x6 = 0 ∧ (UInt8.ofNat (0xE0 + i) >>> 4) ^^^ 0xE = 0 ∧
    (UInt8.ofNat (0xE0 + i) &&& 0xF).toUInt16.toNat = i := by
  decide +kernel

/-- The other bytes. -/
theorem tailByte : ∀ j < 64, ¬(UInt8.ofNat (0x80 + j) >>> 6) ^^^ 0x2 ≠ 0 ∧
    (UInt8.ofNat (0x80 + j) &&& 0x3F).toUInt16.toNat = j := by
  decide +kernel

/-- Some low bits and what is above them. -/
theorem toNat_or_shiftLeft {low high k : UInt16} (hk : k.toNat < 16)
    (hlow : low.toNat < 2 ^ k.toNat) (hhigh : high.toNat * 2 ^ k.toNat < 65536) :
    (low ||| (high <<< k)).toNat = high.toNat * 2 ^ k.toNat + low.toNat := by
  rw [UInt16.toNat_or, UInt16.toNat_shiftLeft, Nat.mod_eq_of_lt hk, Nat.shiftLeft_eq,
    Nat.mod_eq_of_lt hhigh, Nat.or_comm, Nat.mul_comm]
  exact (Nat.two_pow_add_eq_or_of_lt hlow _).symm

/-! ## One code point -/

section Lengths

variable {byte0 byte1 byte2 : UInt8} {rest : Bytes}

theorem unicodeFromUtf8_one (h7 : (byte0 >>> 7) ^^^ 0x0 = 0) :
    unicodeFromUtf8 (byte0 :: rest) = .ok byte0.toUInt16 rest := by
  show (if _ then _ else _ : EStateM StreamState InStream Unicode) rest = _
  rw [if_pos h7]
  rfl

theorem unicodeFromUtf8_two (h7 : ¬(byte0 >>> 7) ^^^ 0x0 = 0) (h5 : (byte0 >>> 5) ^^^ 0x6 = 0)
    (h6 : ¬(byte1 >>> 6) ^^^ 0x2 ≠ 0) : unicodeFromUtf8 (byte0 :: byte1 :: rest)
      = .ok ((byte1 &&& 0x3F).toUInt16 ||| ((byte0 &&& 0x1F).toUInt16 <<< 6)) rest := by
  show (if _ then _ else _ : EStateM StreamState InStream Unicode) (byte1 :: rest) = _
  rw [if_neg h7, if_pos h5]
  show (if _ then _ else _ : EStateM StreamState InStream Unicode) rest = _
  rw [if_neg h6]
  rfl

theorem unicodeFromUtf8_three (h7 : ¬(byte0 >>> 7) ^^^ 0x0 = 0) (h5 : ¬(byte0 >>> 5) ^^^ 0x6 = 0)
    (h4 : (byte0 >>> 4) ^^^ 0xE = 0) (h6 : ¬(byte1 >>> 6) ^^^ 0x2 ≠ 0)
    (h6' : ¬(byte2 >>> 6) ^^^ 0x2 ≠ 0) : unicodeFromUtf8 (byte0 :: byte1 :: byte2 :: rest)
      = .ok ((byte2 &&& 0x3F).toUInt16 ||| ((byte1 &&& 0x3F).toUInt16 <<< 6) |||
        ((byte0 &&& 0xF).toUInt16 <<< 12)) rest := by
  show (if _ then _ else _ : EStateM StreamState InStream Unicode) (byte1 :: byte2 :: rest) = _
  rw [if_neg h7, if_neg h5, if_pos h4]
  show (if _ then _ else _ : EStateM StreamState InStream Unicode) rest = _
  rw [if_neg (not_or.mpr ⟨h6, h6'⟩)]
  rfl

end Lengths

/-- **A code point is read back**, and what is behind its bytes is left in the stream. -/
theorem unicodeFromUtf8_utf8Of (uc : Unicode) (rest : Bytes) :
    unicodeFromUtf8 (utf8Of uc.toNat ++ rest) = .ok uc rest := by
  have hlt : uc.toNat < 65536 := uc.toNat_lt
  -- the bytes lead to one branch each, and there the value is put together
  unfold utf8Of
  split
  · next hone =>
    refine (unicodeFromUtf8_one (singleByte uc.toNat hone)).trans ?_
    congr 1
    rw [← UInt16.toNat_inj, UInt8.toNat_toUInt16,
      UInt8.toNat_ofNat_of_lt' (Nat.lt_trans hone (by decide))]
  · split
    · next hone htwo =>
      obtain ⟨h7, h5, hhigh⟩ := leadByte_two (uc.toNat / 64) (by omega)
      obtain ⟨h6, hlow⟩ := tailByte (uc.toNat % 64) (Nat.mod_lt _ (by decide))
      refine (unicodeFromUtf8_two h7 h5 h6).trans ?_
      congr 1
      rw [← UInt16.toNat_inj, toNat_or_shiftLeft (by decide), hhigh, hlow]
      · show uc.toNat / 64 * 64 + uc.toNat % 64 = uc.toNat
        omega
      · rw [hlow]
        exact Nat.mod_lt _ (by decide)
      · rw [hhigh]
        show uc.toNat / 64 * 64 < 65536
        omega
    · next hone htwo =>
      obtain ⟨h7, h5, h4, hhigh⟩ := leadByte_three (uc.toNat / 4096) (by omega)
      obtain ⟨h6, hmid⟩ := tailByte (uc.toNat / 64 % 64) (Nat.mod_lt _ (by decide))
      obtain ⟨h6', hlow⟩ := tailByte (uc.toNat % 64) (Nat.mod_lt _ (by decide))
      refine (unicodeFromUtf8_three h7 h5 h4 h6 h6').trans ?_
      congr 1
      have hbits : ((UInt8.ofNat (0x80 + uc.toNat % 64) &&& 0x3F).toUInt16 |||
          ((UInt8.ofNat (0x80 + uc.toNat / 64 % 64) &&& 0x3F).toUInt16 <<< 6)).toNat
            = uc.toNat % 4096 := by
        rw [toNat_or_shiftLeft (by decide), hmid, hlow]
        · show uc.toNat / 64 % 64 * 64 + uc.toNat % 64 = uc.toNat % 4096
          omega
        · rw [hlow]
          exact Nat.mod_lt _ (by decide)
        · rw [hmid]
          show uc.toNat / 64 % 64 * 64 < 65536
          omega
      rw [← UInt16.toNat_inj, toNat_or_shiftLeft (by decide), hhigh, hbits]
      · show uc.toNat / 4096 * 4096 + uc.toNat % 4096 = uc.toNat
        omega
      · rw [hbits]
        exact Nat.mod_lt _ (by decide)
      · rw [hhigh]
        show uc.toNat / 4096 * 4096 < 65536
        omega

/-! ## Texts -/

/-- What `unicode_to_utf8` appends to a string. -/
def writtenFor (uc : Unicode) : Bytes :=
  match unicodeToUtf8 stringOutStream uc [] with
  | .ok _ s => s
  | .error _ s => s

theorem writtenFor_eq (uc : Unicode) : writtenFor uc = utf8Of uc.toNat := by
  rw [writtenFor, unicodeToUtf8_string]
  rfl

/--
A turn of a loop that runs `unicode_from_utf8` until the stream is empty: the code point and what
the call has consumed.
-/
def nextUnicode : CallM InStream (Option (Unicode × Bytes)) := fun is =>
  match isPeekChar is with
  | .error _ => some (none, is)
  | .ok _ =>
    match unicodeFromUtf8 is with
    | .ok uc is' => some (some (uc, is.take (is.length - is'.length)), is')
    | .error _ _ => none

theorem utf8Of_ne_nil (n : Nat) : utf8Of n ≠ [] := by
  unfold utf8Of
  split
  · exact List.cons_ne_nil _ _
  · split <;> exact List.cons_ne_nil _ _

theorem nextUnicode_writtenFor (uc : Unicode) (rest : Bytes) :
    nextUnicode (writtenFor uc ++ rest) = some (some (uc, writtenFor uc), rest) := by
  obtain ⟨c, is, hcons⟩ := List.exists_cons_of_ne_nil (utf8Of_ne_nil uc.toNat)
  have hpeek : isPeekChar (writtenFor uc ++ rest) = .ok c := by
    rw [writtenFor_eq, hcons]
    rfl
  have hrun : unicodeFromUtf8 (writtenFor uc ++ rest) = .ok uc rest := by
    rw [writtenFor_eq]
    exact unicodeFromUtf8_utf8Of uc rest
  rw [nextUnicode, hpeek]
  dsimp only
  rw [hrun]
  dsimp only
  rw [List.length_append, Nat.add_sub_cancel, List.take_left]

/-- **The calls return the code points that a text was written from**, each with its own bytes. -/
theorem nextUnicode_walks : Walks nextUnicode fun items is =>
    ∃ ucs : List Unicode, items = ucs.map (fun uc => (uc, writtenFor uc)) ∧
      is = ucs.flatMap writtenFor where
  more := by
    rintro item items is ⟨_ | ⟨uc, ucs⟩, hitems, rfl⟩
    · cases hitems
    · cases hitems
      exact ⟨_, nextUnicode_writtenFor uc _, ucs, rfl, rfl⟩
  done := by
    rintro is ⟨_ | ⟨uc, ucs⟩, hitems, rfl⟩
    · exact ⟨[], rfl, [], rfl, rfl⟩
    · cases hitems

/-- A text has a byte at least for each code point. -/
theorem length_le_flatMap_writtenFor : ∀ ucs : List Unicode,
    ucs.length ≤ (ucs.flatMap writtenFor).length
  | [] => le_refl _
  | uc :: ucs => by
    have ih := length_le_flatMap_writtenFor ucs
    have hpos := List.length_pos_of_ne_nil (utf8Of_ne_nil uc.toNat)
    rw [← writtenFor_eq] at hpos
    rw [List.flatMap_cons, List.length_cons, List.length_append]
    omega

/-- **A text is decoded to the code points that it was written from.** -/
theorem drain_nextUnicode (ucs : List Unicode) :
    drain nextUnicode ((ucs.flatMap writtenFor).length + 1) (ucs.flatMap writtenFor)
      = some (ucs.map fun uc => (uc, writtenFor uc), []) := by
  have hfuel := Nat.lt_succ_of_le (length_le_flatMap_writtenFor ucs)
  obtain ⟨is, hrun, ucs', hnil, rfl⟩ := nextUnicode_walks.drain
    (ucs.map fun uc => (uc, writtenFor uc)) _ (by rwa [List.length_map]) ⟨ucs, rfl, rfl⟩
  rw [List.map_eq_nil_iff.mp hnil.symm] at hrun
  exact hrun

end Chlibs.Util

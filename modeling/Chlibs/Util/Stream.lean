import Chlibs.Infra.Bytes
import Chlibs.Infra.Stateful

/-!
# Streams and UTF-8

`stream.c` and `utf8.c`. An input stream is what is left of it; the streams that the code has
never give an error. An output stream is any `putc`.
-/

namespace Chlibs.Util

open Infra

/-- `stream_state_t` -/
inductive StreamState where
  | success
  | empty
  | error
  deriving DecidableEq, Repr

/-- The value of a `char`, which is signed. -/
def charVal (c : UInt8) : Int := if c.toNat < 128 then c.toNat else c.toNat - 256

/-! ## Input -/

/-- An input stream: what is left of the string or the file. -/
abbrev InStream := Bytes

def isPeekChar : InStream → Except StreamState UInt8
  | [] => .error .empty
  | c :: _ => .ok c

/-- The character, and the stream after it. -/
def isNextChar : InStream → Except StreamState (UInt8 × InStream)
  | [] => .error .empty
  | c :: is => .ok (c, is)

/-! ## Output -/

/-- `out_stream_impl_t`, less the destructor. -/
structure OutStream (σ : Type) where
  putc : σ → UInt8 → StreamState × σ

/-- A function that writes: any state but `success` ends it (`TRY_STREAM_CALL`). -/
abbrev OutM (σ : Type) := EStateM StreamState σ

section Output

variable {σ : Type} (os : OutStream σ)

def osPutc (c : UInt8) : OutM σ Unit := fun s =>
  match os.putc s c with
  | (.success, s') => .ok () s'
  | (st, s') => .error st s'

/-- `s` is up to its first NUL. -/
def osPuts : Bytes → OutM σ Unit
  | [] => pure ()
  | c :: cs =>
    if c = 0 then pure ()
    else do
      osPutc os c
      osPuts cs

/-- A call whose state is not looked at. -/
def ignoreState (p : OutM σ Unit) : OutM σ Unit := fun s =>
  match p s with
  | .ok _ s' => .ok () s'
  | .error _ s' => .ok () s'

end Output

/-- `new_out_stream_to_string`: the string is appended to. -/
def stringOutStream : OutStream Bytes where
  putc builder c := (.success, builder ++ [c])

/-! ## UTF-8 -/

/-- `unicode_t` -/
abbrev Unicode := UInt16

/-- The value of a hexadecimal digit, 0 for any other character. -/
def hexDec (c : UInt8) : UInt8 :=
  if 0x30 ≤ charVal c ∧ charVal c ≤ 0x39 then c - 0x30
  else if 0x61 ≤ charVal c ∧ charVal c ≤ 0x66 then c - 0x61 + 10
  else if 0x41 ≤ charVal c ∧ charVal c ≤ 0x46 then c - 0x41 + 10
  else 0

/-- The four characters are a loop's. -/
def unicodeFromCstr (cstr : Bytes) : Unicode :=
  (cstr.take 4).foldl (fun res c => (res <<< 4) ||| (hexDec c).toUInt16) 0

def unicodeToUtf8 {σ : Type} (os : OutStream σ) (uc : Unicode) : OutM σ Unit :=
  let part0 := (0x000F &&& uc).toUInt8
  let part1 := ((0x00F0 &&& uc) >>> 4).toUInt8
  let part2 := ((0x0F00 &&& uc) >>> 8).toUInt8
  let part3 := ((0xF000 &&& uc) >>> 12).toUInt8
  if uc < 0x0080 then osPutc os ((part1 <<< 4) ||| part0)
  else if uc < 0x0800 then do
    osPutc os ((0xC0 : UInt8) ||| (part2 <<< 2) ||| (part1 >>> 2))
    osPutc os ((0x80 : UInt8) ||| ((0x3 &&& part1) <<< 4) ||| part0)
  else do
    osPutc os ((0xE0 : UInt8) ||| part3)
    osPutc os ((0x80 : UInt8) ||| (part2 <<< 2) ||| (part1 >>> 2))
    osPutc os ((0x80 : UInt8) ||| ((0x3 &&& part1) <<< 4) ||| part0)

/-! ### What the bytes are -/

/-- UTF-8 of a code point below 2^16. -/
def utf8Of (n : Nat) : Bytes :=
  if n < 0x80 then [UInt8.ofNat n]
  else if n < 0x800 then [UInt8.ofNat (0xC0 + n / 64), UInt8.ofNat (0x80 + n % 64)]
  else [UInt8.ofNat (0xE0 + n / 4096), UInt8.ofNat (0x80 + n / 64 % 64), UInt8.ofNat (0x80 + n % 64)]

/-- The value of hexadecimal digits, the first one the highest. -/
def hexValue (digits : Bytes) : Nat := digits.foldl (fun n c => n * 16 + (hexDec c).toNat) 0

/-- Four of the bits, as a number. -/
theorem mask_shiftRight (n k : Nat) : (0xF <<< k &&& n) >>> k = n / 2 ^ k % 16 := by
  rw [Nat.shiftRight_and_distrib, Nat.shiftLeft_shiftRight, Nat.and_comm,
    ← Nat.shiftRight_eq_div_pow]
  exact Nat.and_two_pow_sub_one_eq_mod _ 4

/-- The four parts of a code point. -/
theorem toNat_parts (uc : Unicode) :
    (0x000F &&& uc).toUInt8.toNat = uc.toNat % 16
      ∧ ((0x00F0 &&& uc) >>> 4).toUInt8.toNat = uc.toNat / 16 % 16
      ∧ ((0x0F00 &&& uc) >>> 8).toUInt8.toNat = uc.toNat / 256 % 16
      ∧ ((0xF000 &&& uc) >>> 12).toUInt8.toNat = uc.toNat / 4096 % 16 := by
  have h0 := mask_shiftRight uc.toNat 0
  have h4 := mask_shiftRight uc.toNat 4
  have h8 := mask_shiftRight uc.toNat 8
  have h12 := mask_shiftRight uc.toNat 12
  simp only [UInt16.toNat_toUInt8, UInt16.toNat_shiftRight, UInt16.toNat_and]
  refine ⟨?_, ?_, ?_, ?_⟩
  · show (15 &&& uc.toNat) % 256 = uc.toNat % 16
    have h : 15 &&& uc.toNat = uc.toNat % 16 := by simpa using h0
    omega
  · show (240 &&& uc.toNat) >>> 4 % 256 = uc.toNat / 16 % 16
    have h : (240 &&& uc.toNat) >>> 4 = uc.toNat / 16 % 16 := h4
    omega
  · show (3840 &&& uc.toNat) >>> 8 % 256 = uc.toNat / 256 % 16
    have h : (3840 &&& uc.toNat) >>> 8 = uc.toNat / 256 % 16 := h8
    omega
  · show (61440 &&& uc.toNat) >>> 12 % 256 = uc.toNat / 4096 % 16
    have h : (61440 &&& uc.toNat) >>> 12 = uc.toNat / 4096 % 16 := h12
    omega

/-- The bytes that two four-bit parts go into. -/
theorem ofNat_parts : ∀ i < 16, ∀ j < 16,
    (UInt8.ofNat i <<< 4) ||| UInt8.ofNat j = UInt8.ofNat (i * 16 + j)
      ∧ (i < 8 → (0xC0 : UInt8) ||| (UInt8.ofNat i <<< 2) ||| (UInt8.ofNat j >>> 2)
        = UInt8.ofNat (0xC0 + (i * 4 + j / 4)))
      ∧ (0x80 : UInt8) ||| (UInt8.ofNat i <<< 2) ||| (UInt8.ofNat j >>> 2)
        = UInt8.ofNat (0x80 + (i * 4 + j / 4))
      ∧ (0x80 : UInt8) ||| ((0x3 &&& UInt8.ofNat i) <<< 4) ||| UInt8.ofNat j
        = UInt8.ofNat (0x80 + (i % 4 * 16 + j))
      ∧ (0xE0 : UInt8) ||| UInt8.ofNat i = UInt8.ofNat (0xE0 + i) := by
  decide +kernel

/-- **The bytes of a code point.** -/
theorem unicodeToUtf8_string (uc : Unicode) (builder : Bytes) :
    unicodeToUtf8 stringOutStream uc builder = .ok () (builder ++ utf8Of uc.toNat) := by
  obtain ⟨h0, h1, h2, h3⟩ := toNat_parts uc
  have hlt : uc.toNat < 65536 := uc.toNat_lt
  have ofNat_eq {p : UInt8} {n : Nat} (h : p.toNat = n) : p = UInt8.ofNat n := by
    rw [← h, UInt8.ofNat_toNat]
  obtain ⟨h10, -, -, h10', -⟩ := ofNat_parts (uc.toNat / 16 % 16) (by omega) (uc.toNat % 16) (by omega)
  obtain ⟨-, h21, h21', -, -⟩ :=
    ofNat_parts (uc.toNat / 256 % 16) (by omega) (uc.toNat / 16 % 16) (by omega)
  obtain ⟨-, -, -, -, h33⟩ := ofNat_parts (uc.toNat / 4096 % 16) (by omega) 0 (by omega)
  rw [unicodeToUtf8, utf8Of]
  simp only [UInt16.lt_iff_toNat_lt, show (0x0080 : Unicode).toNat = 0x80 from rfl,
    show (0x0800 : Unicode).toNat = 0x800 from rfl, ofNat_eq h0, ofNat_eq h1, ofNat_eq h2,
    ofNat_eq h3, h10, h10', h21', h33]
  by_cases hone : uc.toNat < 128
  · rw [if_pos hone, if_pos hone, show uc.toNat / 16 % 16 * 16 + uc.toNat % 16 = uc.toNat by omega]
    rfl
  · rw [if_neg hone, if_neg hone,
      show uc.toNat / 16 % 16 % 4 * 16 + uc.toNat % 16 = uc.toNat % 64 by omega]
    by_cases htwo : uc.toNat < 2048
    · rw [if_pos htwo, if_pos htwo, h21 (by omega),
        show uc.toNat / 256 % 16 * 4 + uc.toNat / 16 % 16 / 4 = uc.toNat / 64 by omega]
      show EStateM.Result.ok () (builder ++ _ ++ _) = _
      rw [List.append_assoc]
      rfl
    · rw [if_neg htwo, if_neg htwo,
        show uc.toNat / 256 % 16 * 4 + uc.toNat / 16 % 16 / 4 = uc.toNat / 64 % 64 by omega,
        show uc.toNat / 4096 % 16 = uc.toNat / 4096 by omega]
      show EStateM.Result.ok () (builder ++ _ ++ _ ++ _) = _
      rw [List.append_assoc, List.append_assoc]
      rfl

/-! ### What the digits are -/

theorem hexDec_lt (c : UInt8) : (hexDec c).toNat < 16 := by
  have h : ∀ n < 256, (hexDec (UInt8.ofNat n)).toNat < 16 := by decide +kernel
  have hc := h c.toNat c.toNat_lt
  rwa [UInt8.ofNat_toNat] at hc

/-- One digit more. -/
theorem toNat_pushDigit {res : Unicode} (h : res.toNat < 4096) (c : UInt8) :
    ((res <<< 4) ||| (hexDec c).toUInt16).toNat = res.toNat * 16 + (hexDec c).toNat := by
  have hc := hexDec_lt c
  rw [UInt16.toNat_or, UInt16.toNat_shiftLeft, UInt8.toNat_toUInt16]
  show res.toNat <<< 4 % 65536 ||| (hexDec c).toNat = _
  rw [Nat.shiftLeft_eq, Nat.mod_eq_of_lt (by omega), Nat.mul_comm]
  exact (Nat.two_pow_add_eq_or_of_lt hc _).symm

/-- **The code point of four digits.** -/
theorem toNat_unicodeFromCstr : ∀ {digits : Bytes}, digits.length = 4 →
    (unicodeFromCstr digits).toNat = hexValue digits
  | [a, b, c, d], _ => by
    have ha := hexDec_lt a
    have hb := hexDec_lt b
    have hc := hexDec_lt c
    have h1 := toNat_pushDigit (show (0 : Unicode).toNat < 4096 by decide) a
    have h2 := toNat_pushDigit (by rw [h1]; show 0 * 16 + _ < _; omega) b
    have h3 := toNat_pushDigit (by rw [h2, h1]; show (0 * 16 + _) * 16 + _ < _; omega) c
    have h4 := toNat_pushDigit
      (by rw [h3, h2, h1]; show ((0 * 16 + _) * 16 + _) * 16 + _ < _; omega) d
    show ((((((0 : Unicode) <<< 4 ||| (hexDec a).toUInt16) <<< 4 ||| (hexDec b).toUInt16) <<< 4
      ||| (hexDec c).toUInt16) <<< 4) ||| (hexDec d).toUInt16).toNat = _
    rw [h4, h3, h2, h1]
    rfl

end Chlibs.Util

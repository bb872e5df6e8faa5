import Chlibs.Json.Exact

/-!
# Escapes of NUL

A string that the parser makes has a NUL only from the escape with four zeros: a raw NUL is a syntax
error, and no other code point has a NUL in its UTF-8. Whether a document has that escape can be
seen without parsing it.

* `escapesNul` — the scanner.
* `NoNul` — no string of a text has a NUL.
* `IsDocument.scans` — the two agree on every document.
-/

namespace Chlibs.Chjson

open Infra Util

variable {Num τ : Type}

/-! ## The scanner -/

/-- There is an escape with four zeros. A backslash takes the character behind it along. -/
def escapesNul : Bytes → Bool
  | [] => false
  | [_] => false
  | c :: letter :: s =>
    if c = 0x5C then (letter == 0x75 && s.take 4 == [0x30, 0x30, 0x30, 0x30]) || escapesNul s
    else escapesNul (letter :: s)

theorem escapesNul_cons_ne {c : UInt8} (h : c ≠ 0x5C) (s : Bytes) :
    escapesNul (c :: s) = escapesNul s := by
  cases s with
  | nil => rfl
  | cons letter s => rw [escapesNul, if_neg h]

/-- The scanner goes from `s` to `rest`, and finds no escape of a NUL if and only if `P` holds. -/
def Scans (P : Prop) (s rest : Bytes) : Prop :=
  ∃ doc, s = doc ++ rest ∧
    ∀ tail, escapesNul (doc ++ tail) = false ↔ P ∧ escapesNul tail = false

namespace Scans

variable {P Q : Prop} {s mid rest : Bytes}

theorem trans (h : Scans P s mid) (h' : Scans Q mid rest) : Scans (P ∧ Q) s rest := by
  obtain ⟨doc, rfl, hdoc⟩ := h
  obtain ⟨doc', rfl, hdoc'⟩ := h'
  refine ⟨doc ++ doc', (List.append_assoc ..).symm, fun tail => ?_⟩
  rw [List.append_assoc, hdoc, hdoc', and_assoc]

theorem congr (h : Scans P s rest) (hPQ : P ↔ Q) : Scans Q s rest := by
  rwa [← propext hPQ]

theorem chars {w : Bytes} (h : ∀ c ∈ w, c ≠ 0x5C) (s : Bytes) : Scans True (w ++ s) s := by
  refine ⟨w, rfl, fun tail => ?_⟩
  rw [true_and]
  induction w with
  | nil => rfl
  | cons c w ih =>
    rw [List.cons_append, escapesNul_cons_ne (h c List.mem_cons_self)]
    exact ih fun c' hc' => h c' (List.mem_cons_of_mem _ hc')

theorem char {c : UInt8} (h : c ≠ 0x5C) (s : Bytes) : Scans True (c :: s) s :=
  chars (w := [c]) (List.forall_mem_singleton.mpr h) s

theorem escape {letter : UInt8} (h : letter ≠ 0x75) (s : Bytes) :
    Scans True (0x5C :: letter :: s) s := by
  refine ⟨[0x5C, letter], rfl, fun tail => ?_⟩
  rw [List.cons_append, List.cons_append, List.nil_append, escapesNul, if_pos rfl,
    beq_eq_false_iff_ne.mpr h, Bool.false_and, Bool.false_or, true_and]

theorem unicode {digits : Bytes} (hlen : digits.length = 4)
    (hslash : ∀ c ∈ digits, c ≠ 0x5C) (s : Bytes) :
    Scans (digits ≠ [0x30, 0x30, 0x30, 0x30]) (0x5C :: 0x75 :: (digits ++ s)) s := by
  refine ⟨0x5C :: 0x75 :: digits, rfl, fun tail => ?_⟩
  obtain ⟨doc, hdoc, hchars⟩ := chars hslash tail
  cases List.append_cancel_right hdoc
  rw [List.cons_append, List.cons_append, escapesNul, if_pos rfl, ← hlen, List.take_left,
    Bool.or_eq_false_iff, hchars, true_and, beq_self_eq_true, Bool.true_and, beq_eq_false_iff_ne]

end Scans

/-! ## Strings -/

theorem hexDec_eq_zero {c : UInt8} (h : isHexDigit c = true) : (hexDec c).toNat = 0 ↔ c = 0x30 := by
  have key : ∀ n : Fin 256, isHexDigit (UInt8.ofNat n) = true →
      ((hexDec (UInt8.ofNat n)).toNat = 0 ↔ UInt8.ofNat n = 0x30) := by decide +kernel
  have hc := key ⟨c.toNat, UInt8.toNat_lt c⟩
  rw [UInt8.ofNat_toNat] at hc
  exact hc h

theorem foldl_hexDec_eq_zero (digits : Bytes) : ∀ n : Nat,
    digits.foldl (fun n c => n * 16 + (hexDec c).toNat) n = 0 ↔
      n = 0 ∧ ∀ c ∈ digits, (hexDec c).toNat = 0 := by
  induction digits with
  | nil => exact fun n => ⟨fun h => ⟨h, by simp⟩, And.left⟩
  | cons c digits ih =>
    intro n
    rw [List.foldl_cons, ih, List.forall_mem_cons, ← and_assoc]
    refine and_congr_left fun _ => ?_
    omega

/-- Zero is written with four zeros. -/
theorem hexValue_eq_zero {digits : Bytes} (hlen : digits.length = 4)
    (hhex : ∀ c ∈ digits, isHexDigit c = true) :
    hexValue digits = 0 ↔ digits = [0x30, 0x30, 0x30, 0x30] := by
  rw [hexValue, foldl_hexDec_eq_zero, eq_self_iff_true, true_and,
    show [0x30, 0x30, 0x30, 0x30] = List.replicate 4 (0x30 : UInt8) from rfl,
    List.eq_replicate_iff]
  exact ⟨fun h => ⟨hlen, fun c hc => (hexDec_eq_zero (hhex c hc)).mp (h c hc)⟩,
    fun h c hc => (hexDec_eq_zero (hhex c hc)).mpr (h.2 c hc)⟩

theorem hexValue_lt {digits : Bytes} (hlen : digits.length = 4) : hexValue digits < 65536 := by
  rw [← toNat_unicodeFromCstr hlen]
  exact UInt16.toNat_lt _

/-- Only NUL itself has a NUL in its UTF-8. -/
theorem zero_mem_utf8Of {n : Nat} (h : n < 65536) : (0 : UInt8) ∈ utf8Of n ↔ n = 0 := by
  have hofNat : ∀ k < 256, (0 : UInt8) = UInt8.ofNat k ↔ k = 0 := by
    intro k hk
    rw [← UInt8.toNat_inj, UInt8.toNat_ofNat_of_lt' hk]
    exact eq_comm
  unfold utf8Of
  split
  · rw [List.mem_singleton, hofNat n (by omega)]
  · split
    · simp only [List.mem_cons, List.not_mem_nil, or_false]
      rw [hofNat _ (by omega), hofNat _ (by omega)]
      omega
    · simp only [List.mem_cons, List.not_mem_nil, or_false]
      rw [hofNat _ (by omega), hofNat _ (by omega), hofNat _ (by omega)]
      omega

theorem escapes_ne_zero {letter c : UInt8} (h : (letter, c) ∈ escapes) : letter ≠ 0x75 ∧ c ≠ 0 := by
  simp only [escapes, List.mem_cons, Prod.mk.injEq, List.not_mem_nil, or_false] at h
  rcases h with h | h | h | h | h | h | h <;> rw [h.1, h.2] <;> decide

/-- **The scanner finds the NULs of a string.** -/
theorem IsChars.scans {str s rest : Bytes} (h : IsChars str s rest) :
    Scans ((0 : UInt8) ∉ str) s rest := by
  induction h with
  | quote =>
    exact (Scans.char (by decide) _).congr (by simp)
  | @plain c str s rest hge _ hslash _ ih =>
    refine ((Scans.char hslash s).trans ih).congr ?_
    have hc : (0 : UInt8) ≠ c := by
      rintro rfl
      exact absurd hge (by decide)
    simp [hc]
  | @escape letter c str s rest hescape _ ih =>
    obtain ⟨hletter, hc⟩ := escapes_ne_zero hescape
    refine ((Scans.escape hletter s).trans ih).congr ?_
    simp [hc.symm]
  | @unicode digits str s rest hlen hhex _ ih =>
    have hslash : ∀ c ∈ digits, c ≠ 0x5C := by
      rintro c hc rfl
      exact absurd (hhex _ hc) (by decide +kernel)
    refine ((Scans.unicode hlen hslash s).trans ih).congr ?_
    rw [List.mem_append, not_or, zero_mem_utf8Of (hexValue_lt hlen), hexValue_eq_zero hlen hhex]

theorem IsString.scans {str s rest : Bytes} : IsString str s rest → Scans ((0 : UInt8) ∉ str) s rest
  | ⟨h⟩ => ((Scans.char (by decide) _).trans h.scans).congr (by rw [true_and])

/-! ## Documents -/

/-- No key and no string has a NUL. -/
inductive NoNul : JsonText Num → Prop
  | object {members : List (Bytes × JsonText Num)} : (∀ m ∈ members, (0 : UInt8) ∉ m.1) →
    (∀ m ∈ members, NoNul m.2) → NoNul (.object members)
  | list {elements : List (JsonText Num)} : (∀ t ∈ elements, NoNul t) → NoNul (.list elements)
  | string {str} : (0 : UInt8) ∉ str → NoNul (.string str)
  | number {n} : NoNul (.number n)
  | boolean {b} : NoNul (.boolean b)
  | null : NoNul .null

theorem Ws.scans {s rest : Bytes} : Ws s rest → Scans True s rest := by
  rintro ⟨w, hw, rfl⟩
  refine Scans.chars (fun c hc => ?_) rest
  rintro rfl
  exact absurd (hw _ hc) (by decide)

section Items

variable {start close : UInt8} {V : τ → Bytes → Bytes → Prop} {P : τ → Prop} {ts : List τ}
  {s rest : Bytes}

theorem ItemsTail.scans (hclose : close ≠ 0x5C) (h : ItemsTail close V ts s rest) :
    (∀ t ∈ ts, ∀ s r, V t s r → Scans (P t) s r) → Scans (∀ t ∈ ts, P t) s rest := by
  induction h with
  | done hws => exact fun _ => (hws.scans.trans (Scans.char hclose _)).congr (by simp)
  | next hws hws1 hv _ ih =>
    intro hV
    obtain ⟨hhead, htail⟩ := List.forall_mem_cons.mp hV
    have hcomma := hws.scans.trans (Scans.char (by decide) _)
    refine ((hcomma.trans hws1.scans).trans ((hhead _ _ hv).trans (ih htail))).congr ?_
    rw [List.forall_mem_cons, and_self, and_self, true_and]

theorem Items.scans (hstart : start ≠ 0x5C) (hclose : close ≠ 0x5C)
    (h : Items start close V ts s rest) (hV : ∀ t ∈ ts, ∀ s r, V t s r → Scans (P t) s r) :
    Scans (∀ t ∈ ts, P t) s rest := by
  cases h with
  | empty hws =>
    exact ((Scans.char hstart _).trans (hws.scans.trans (Scans.char hclose _))).congr (by simp)
  | first hws hv htail =>
    obtain ⟨hhead, htl⟩ := List.forall_mem_cons.mp hV
    refine (((Scans.char hstart _).trans hws.scans).trans
      ((hhead _ _ hv).trans (htail.scans hclose htl))).congr ?_
    rw [List.forall_mem_cons, and_self, true_and]

end Items

theorem IsMember.scans {V : JsonText Num → Bytes → Bytes → Prop} {m : Bytes × JsonText Num}
    {s rest : Bytes} (h : IsMember V m s rest) (hV : ∀ s r, V m.2 s r → Scans (NoNul m.2) s r) :
    Scans ((0 : UInt8) ∉ m.1 ∧ NoNul m.2) s rest := by
  cases h with
  | mk hkey hws hws' hv =>
    have hcolon := hws.scans.trans (Scans.char (by decide) _)
    refine (hkey.scans.trans ((hcolon.trans hws'.scans).trans (hV _ _ hv))).congr ?_
    rw [and_self, and_self, true_and]

theorem IsBuffered.scans {strtod : Bytes → Num × Nat} {n : Num} {s rest : Bytes}
    (h : IsBuffered strtod n s rest) : Scans True s rest := by
  have hslash : ∀ c ∈ numberBuf s, c ≠ 0x5C := by
    rintro c hc rfl
    exact absurd (List.mem_takeWhile_imp (List.mem_of_mem_take hc)) (by decide +kernel)
  rw [h.text]
  exact Scans.chars hslash rest

/-- **The scanner finds the NULs of a value.** -/
theorem IsValue.scans {strtod : Bytes → Num × Nat} (t : JsonText Num) :
    ∀ s rest, IsValue (IsBuffered strtod) t s rest → Scans (NoNul t) s rest := by
  induction t using JsonText.induct with
  | object members ih =>
    intro s rest h
    cases h with
    | object hitems =>
      refine (hitems.scans (by decide) (by decide) fun m hm s r h =>
        h.scans (ih m hm)).congr ?_
      refine ⟨fun h => .object (fun m hm => (h m hm).1) fun m hm => (h m hm).2, ?_⟩
      rintro ⟨hkeys, hvalues⟩ m hm
      exact ⟨hkeys m hm, hvalues m hm⟩
  | list elements ih =>
    intro s rest h
    cases h with
    | list hitems =>
      refine (hitems.scans (by decide) (by decide) ih).congr ⟨.list, ?_⟩
      rintro ⟨⟩
      assumption
  | string str =>
    intro s rest h
    cases h with
    | string hstr =>
      refine hstr.scans.congr ⟨.string, ?_⟩
      rintro ⟨⟩
      assumption
  | number n =>
    intro s rest h
    cases h with
    | number hn => exact hn.scans.congr (iff_of_true trivial .number)
  | boolean b =>
    intro s rest h
    cases h with
    | trueText =>
      exact (Scans.chars (w := [0x74, 0x72, 0x75, 0x65]) (by decide +kernel) rest).congr
        (iff_of_true trivial .boolean)
    | falseText =>
      exact (Scans.chars (w := [0x66, 0x61, 0x6C, 0x73, 0x65]) (by decide +kernel) rest).congr
        (iff_of_true trivial .boolean)
  | null =>
    intro s rest h
    cases h
    exact (Scans.chars (w := [0x6E, 0x75, 0x6C, 0x6C]) (by decide +kernel) rest).congr
      (iff_of_true trivial .null)

/-- **A document makes a NUL if and only if the scanner finds an escape of one in it.** -/
theorem IsDocument.escapesNul_iff {strtod : Bytes → Num × Nat} {t : JsonText Num}
    {doc rest : Bytes} (h : IsDocument (IsBuffered strtod) t (doc ++ rest) rest) :
    escapesNul doc = false ↔ NoNul t := by
  obtain ⟨s, hws, hv⟩ := h
  obtain ⟨doc', hdoc, hscan⟩ := hws.scans.trans (IsValue.scans t s rest hv)
  cases List.append_cancel_right hdoc
  have hnil := hscan []
  rw [List.append_nil] at hnil
  rw [hnil, true_and]
  exact and_iff_left rfl

end Chlibs.Chjson

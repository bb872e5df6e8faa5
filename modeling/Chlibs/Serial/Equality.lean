import Chlibs.Serial.Encode

/-!
# Comparing values

On well-formed values `chrpcValueEquals` is defined and decides equality: every comparison
is of whole blocks, or of strings up to a NUL that is the last byte of both.

* `chrpcValueEquals_encodings` — it answers whether the two are encoded alike.
-/

namespace Chlibs.Serial

open Infra

/-- The call is defined and answers whether `p` holds. -/
def Answers (r : SRes Bool) (p : Prop) : Prop := ∃ b, r = .ok b ∧ (b = true ↔ p)

theorem Answers.congr {r : SRes Bool} {p q : Prop} (h : Answers r p) (hpq : p ↔ q) :
    Answers r q := by
  obtain ⟨b, hr, hb⟩ := h
  exact ⟨b, hr, hb.trans hpq⟩

theorem Answers.no {p : Prop} (h : ¬p) : Answers (.ok false) p := ⟨false, rfl, by simpa⟩

/-- Two comparisons, the second made only after the first succeeds. -/
theorem Answers.and {r s : SRes Bool} {p q : Prop} (hr : Answers r p) (hs : Answers s q) :
    Answers (do if ← r then s else .ok false) (p ∧ q) := by
  obtain ⟨b, rfl, hb⟩ := hr
  cases b with
  | false => exact Answers.no fun h => by simpa using hb.mpr h.1
  | true => exact hs.congr (by simpa using fun _ => hb.mp rfl)

theorem cellsEqual_answers {α : Type} {eq : α → α → SRes Bool} : ∀ (as bs : List α),
    as.length = bs.length → (∀ a ∈ as, ∀ b ∈ bs, Answers (eq a b) (a = b)) →
    Answers (cellsEqual eq as bs) (as = bs)
  | [], [], _, _ => ⟨true, rfl, by simp⟩
  | a :: as, b :: bs, hlen, h => by
    have ih := cellsEqual_answers as bs (by simpa using hlen) fun x hx y hy =>
      h x (List.mem_cons_of_mem _ hx) y (List.mem_cons_of_mem _ hy)
    have hhead := h a List.mem_cons_self b List.mem_cons_self
    exact (hhead.and ih).congr (by simp)

/-- Arrays of different lengths differ before any cell is compared. -/
theorem arraysEqual_answers {α : Type} {eq : α → α → SRes Bool} {as bs : List α}
    (h : ∀ a ∈ as, ∀ b ∈ bs, Answers (eq a b) (a = b)) :
    Answers (if as.length ≠ bs.length then .ok false else cellsEqual eq as bs) (as = bs) := by
  by_cases hlen : as.length = bs.length
  · rw [if_neg (not_not.mpr hlen)]
    exact cellsEqual_answers as bs hlen h
  · rw [if_pos hlen]
    exact Answers.no fun he => hlen (congrArg List.length he)

theorem chrpcFieldsEqual_answers : ∀ (ts : List ChrpcType) (as bs : List InnerValue),
    (∀ t ∈ ts, ∀ a b : InnerValue, a.WellFormed t → b.WellFormed t →
      Answers (chrpcInnerValueEquals t a b) (a = b)) →
    InnerValue.AllWellFormed ts as → InnerValue.AllWellFormed ts bs →
    Answers (chrpcFieldsEqual ts as bs) (as = bs)
  | [], [], [], _, _, _ => ⟨true, rfl, by simp⟩
  | t :: ts, a :: as, b :: bs, h, ha, hb => by
    have ih := chrpcFieldsEqual_answers ts as bs (fun x hx => h x (List.mem_cons_of_mem _ hx))
      ha.tail hb.tail
    exact ((h t List.mem_cons_self a b ha.head hb.head).and ih).congr (by simp)
  | [], _ :: _, _, _, ha, _ => absurd ha.1 (by simp [InnerValue.AllSized])
  | [], [], _ :: _, _, _, hb => absurd hb.1 (by simp [InnerValue.AllSized])
  | _ :: _, [], _, _, ha, _ => absurd ha.1 (by simp [InnerValue.AllSized])
  | _ :: _, _ :: _, [], _, _, hb => absurd hb.1 (by simp [InnerValue.AllSized])

/-- Two strings that each end at their only NUL compare equal only if they are equal. -/
theorem strcmpEq_answers {a b : Bytes} (ha : TerminatedOnce a) (hb : TerminatedOnce b) :
    Answers (strcmpEq a b) (a = b) := by
  refine ⟨_, if_pos ⟨ha.mem, hb.mem⟩, ?_⟩
  obtain ⟨s, hs, rfl⟩ := ha
  obtain ⟨t, ht, rfl⟩ := hb
  simp [cString_append_zero hs, cString_append_zero ht]

/-- Comparing whole blocks compares their contents. -/
theorem blockValuesEqual_answers {ct : ChrpcType} {iv0 iv1 : InnerValue} {size : Nat}
    {b0 b1 : Bytes} {n0 n1 : Nat}
    (h0 : chrpcInnerValueToBlockValue ct iv0 = .ok ⟨b0, size, n0⟩)
    (h1 : chrpcInnerValueToBlockValue ct iv1 = .ok ⟨b1, size, n1⟩)
    (hl0 : b0.length = size * n0) (hl1 : b1.length = size * n1) :
    Answers (blockValuesEqual ct iv0 iv1) (n0 = n1 ∧ b0 = b1) := by
  simp only [blockValuesEqual, h0, h1, Bind.bind, Except.bind]
  by_cases hn : n0 = n1
  · subst hn
    rw [if_neg (not_not.mpr rfl), memcmpEq, if_pos ⟨hl0.ge, hl1.ge⟩]
    refine ⟨_, rfl, ?_⟩
    rw [List.take_of_length_le hl0.le, List.take_of_length_le hl1.le]
    simp
  · rw [if_pos hn]
    exact Answers.no fun h => hn h.1

theorem chrpcInnerValueEquals_prim {p : PrimType} {a b : InnerValue}
    (ha : a.WellFormed (.prim p)) (hb : b.WellFormed (.prim p)) :
    Answers (chrpcInnerValueEquals (.prim p) a b) (a = b) := by
  rw [chrpcInnerValueEquals]
  by_cases hp : p = .string
  · subst hp
    obtain ⟨b0, rfl, hl0⟩ := InnerValue.sized_string_iff.mp ha.sized
    obtain ⟨b1, rfl, hl1⟩ := InnerValue.sized_string_iff.mp hb.sized
    have hs0 : TerminatedOnce b0 := ha.strings b0 (by simp [InnerValue.stringBlocks])
    have hs1 : TerminatedOnce b1 := hb.strings b1 (by simp [InnerValue.stringBlocks])
    refine (blockValuesEqual_answers (chrpcInnerValueToBlockValue_str hl0 hs0)
      (chrpcInnerValueToBlockValue_str hl1 hs1) (by simp) (by simp)).congr ?_
    constructor
    · rintro ⟨-, rfl⟩; rfl
    · intro h; cases h; exact ⟨rfl, rfl⟩
  · obtain ⟨b0, rfl, hl0⟩ := (InnerValue.sized_numeric_iff hp).mp ha.sized
    obtain ⟨b1, rfl, hl1⟩ := (InnerValue.sized_numeric_iff hp).mp hb.sized
    exact (blockValuesEqual_answers (chrpcInnerValueToBlockValue_num hp b0)
      (chrpcInnerValueToBlockValue_num hp b1) (by omega) (by omega)).congr (by simp)

/-- **`chrpc_inner_value_equals` decides equality of well-formed values.** -/
theorem chrpcInnerValueEquals_answers (t : ChrpcType) : ∀ a b : InnerValue, a.WellFormed t →
    b.WellFormed t → Answers (chrpcInnerValueEquals t a b) (a = b) := by
  induction t using ChrpcType.induct with
  | prim p => exact fun a b ha hb => chrpcInnerValueEquals_prim ha hb
  | array cell ih =>
    intro a b ha hb
    have hsa : a.SizedArray (InnerValue.Sized cell) cell := by
      simpa [InnerValue.Sized] using ha.sized
    have hsb : b.SizedArray (InnerValue.Sized cell) cell := by
      simpa [InnerValue.Sized] using hb.sized
    -- Arrays of numbers are one block, strings are compared one by one, other cells by recursion.
    rcases cell.cell_cases with ⟨p, hp, rfl⟩ | rfl | hcomp
    · obtain ⟨b0, n0, rfl, -, hl0⟩ := (InnerValue.sizedArray_numeric hp a).mp hsa
      obtain ⟨b1, n1, rfl, -, hl1⟩ := (InnerValue.sizedArray_numeric hp b).mp hsb
      simp only [chrpcInnerValueEquals, chrpcTypeIsBlockable_numArr hp, if_true]
      exact (blockValuesEqual_answers (chrpcInnerValueToBlockValue_numArr hp b0 n0)
        (chrpcInnerValueToBlockValue_numArr hp b1 n1) hl0 hl1).congr (by simp [and_comm])
    · obtain ⟨strs0, rfl, -, -⟩ := (InnerValue.sizedArray_string a).mp hsa
      obtain ⟨strs1, rfl, -, -⟩ := (InnerValue.sizedArray_string b).mp hsb
      simp only [chrpcInnerValueEquals, chrpcTypeIsBlockable, bne_self_eq_false, isStringType,
        Bool.false_eq_true, if_false, if_true]
      have hs0 : ∀ x ∈ strs0, TerminatedOnce x := ha.strings
      have hs1 : ∀ y ∈ strs1, TerminatedOnce y := hb.strings
      exact (arraysEqual_answers fun x hx y hy =>
        strcmpEq_answers (hs0 x hx) (hs1 y hy)).congr (by simp)
    · obtain ⟨ivs0, rfl, -, -⟩ := (InnerValue.sizedArray_composite hcomp a).mp hsa
      obtain ⟨ivs1, rfl, -, -⟩ := (InnerValue.sizedArray_composite hcomp b).mp hsb
      simp only [chrpcInnerValueEquals, hcomp.isBlockable, hcomp.isStringType,
        Bool.false_eq_true, if_false]
      exact (arraysEqual_answers fun x hx y hy =>
        ih x y (ha.cell x hx) (hb.cell y hy)).congr (by simp)
  | struct fields ih =>
    intro a b ha hb
    obtain ⟨ivs0, rfl, -⟩ := InnerValue.sized_struct_iff.mp ha.sized
    obtain ⟨ivs1, rfl, -⟩ := InnerValue.sized_struct_iff.mp hb.sized
    rw [chrpcInnerValueEquals]
    exact (chrpcFieldsEqual_answers fields ivs0 ivs1 ih (InnerValue.wellFormed_struct_iff.mp ha)
      (InnerValue.wellFormed_struct_iff.mp hb)).congr (by simp)

/-- **`chrpc_value_equals` decides equality of well-formed values.** -/
theorem chrpcValueEquals_answers {v w : ChrpcValue} (hv : v.WellFormed) (hw : w.WellFormed) :
    Answers (chrpcValueEquals v w) (v = w) := by
  obtain ⟨t, a⟩ := v
  obtain ⟨u, b⟩ := w
  by_cases ht : t = u
  · subst ht
    rw [chrpcValueEquals, if_pos (by simp)]
    exact (chrpcInnerValueEquals_answers t a b hv.value hw.value).congr (by simp)
  · rw [chrpcValueEquals, if_neg (by simpa using ht)]
    exact Answers.no fun h => ht (congrArg ChrpcValue.type h)

theorem chrpcValueEquals_self {v : ChrpcValue} (hv : v.WellFormed) :
    chrpcValueEquals v v = .ok true := by
  obtain ⟨b, he, hb⟩ := chrpcValueEquals_answers hv hv
  rw [he, hb.mpr rfl]

theorem chrpcValueEquals_iff {v w : ChrpcValue} (hv : v.WellFormed) (hw : w.WellFormed) :
    chrpcValueEquals v w = .ok true ↔ v = w := by
  obtain ⟨b, he, hb⟩ := chrpcValueEquals_answers hv hw
  rw [he, Except.ok.injEq, hb]

/--
**Value equality is equality of encodings.** So it is an equivalence of well-formed values, and
values of different types are never equal.
-/
theorem chrpcValueEquals_encodings :
    (∀ v w : ChrpcValue, v.WellFormed → w.WellFormed → ∃ e f answer, EncodesTo v e ∧
      EncodesTo w f ∧ chrpcValueEquals v w = .ok answer ∧ (answer = true ↔ e = f)) ∧
    Equivalence (fun v w : { v : ChrpcValue // v.WellFormed } =>
      chrpcValueEquals v.1 w.1 = .ok true) ∧
    ∀ v w : ChrpcValue, v.WellFormed → w.WellFormed → v.type ≠ w.type →
      chrpcValueEquals v w = .ok false := by
  refine ⟨fun v w hv hw => ?_, ?_, fun v w hv hw hne => ?_⟩
  · obtain ⟨answer, he, hanswer⟩ := chrpcValueEquals_answers hv hw
    refine ⟨_, _, answer, (encodesTo_iff hv _).mpr rfl, (encodesTo_iff hw _).mpr rfl, he, ?_⟩
    rw [hanswer]
    exact ⟨congrArg chrpcValueCodec.write, chrpcValueCodec.write_inj hv.dom hw.dom⟩
  · have hiff : ∀ v w : { v : ChrpcValue // v.WellFormed },
        chrpcValueEquals v.1 w.1 = .ok true ↔ v = w := fun v w => by
      rw [chrpcValueEquals_iff v.2 w.2, Subtype.ext_iff]
    refine ⟨fun v => (hiff v v).mpr rfl, fun h => ?_, fun h h' => ?_⟩
    · exact (hiff _ _).mpr ((hiff _ _).mp h).symm
    · exact (hiff _ _).mpr (((hiff _ _).mp h).trans ((hiff _ _).mp h'))
  · obtain ⟨answer, he, hanswer⟩ := chrpcValueEquals_answers hv hw
    have hno : answer = false := by
      rw [← Bool.not_eq_true, hanswer]
      exact fun h => hne (congrArg ChrpcValue.type h)
    rw [he, hno]

/-- The strings `"a"` and `"ab"` differ, and a byte differs from a string. -/
theorem chrpcValueEquals_encodings_strings :
    (∃ e f answer, EncodesTo ⟨.prim .string, .str [97, 0]⟩ e ∧
      EncodesTo ⟨.prim .string, .str [97, 98, 0]⟩ f ∧
      chrpcValueEquals ⟨.prim .string, .str [97, 0]⟩ ⟨.prim .string, .str [97, 98, 0]⟩
        = .ok answer ∧ (answer = true ↔ e = f)) ∧
    chrpcValueEquals ⟨.prim .byte, .num [5]⟩ ⟨.prim .string, .str [97, 0]⟩ = .ok false := by
  have hstr : ∀ s : Bytes, (0 : UInt8) ∉ s → (s ++ [0]).length < 2 ^ 32 →
      (⟨.prim .string, .str (s ++ [0])⟩ : ChrpcValue).WellFormed := fun s hs hlen =>
    ⟨trivial, hlen, by
      intro b hb
      obtain rfl := List.mem_singleton.mp hb
      exact ⟨s, hs, rfl⟩⟩
  have hbyte : (⟨.prim .byte, .num [5]⟩ : ChrpcValue).WellFormed :=
    ⟨trivial, ⟨by decide, rfl⟩, by simp [InnerValue.stringBlocks]⟩
  obtain ⟨hanswers, -, htypes⟩ := chrpcValueEquals_encodings
  have ha := hstr [97] (by decide) (by decide)
  have hab := hstr [97, 98] (by decide) (by decide)
  exact ⟨hanswers _ _ ha hab, htypes _ _ hbyte ha (by decide)⟩

end Chlibs.Serial

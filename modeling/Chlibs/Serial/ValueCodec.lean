import Chlibs.Serial.ValueBuffer

/-!
# The serialization grammar

`valueCodec t` is the grammar of `serial_value.h` for values of type `t`:

* a numeric value is its bytes;
* a string, and a numeric array, is its length and then its block;
* any other array is its length and then its cells;
* a struct is its fields.

It constrains sizes only. What a string block must hold is not part of it.
-/

namespace Chlibs.Serial

open Infra

/-! ## The grammar -/

/-- A primitive value. -/
def primCodec (p : PrimType) : Codec InnerValue :=
  if p = .string then
    Codec.block.embed .str (fun | .str b => some b | _ => none) (fun _ _ => rfl)
      (by rintro (_ | _) a h <;> simp_all)
  else
    (Codec.fixed p.size).embed .num (fun | .num b => some b | _ => none) (fun _ _ => rfl)
      (by rintro (_ | _) a h <;> simp_all)

/-- A numeric array: the number of cells and then the cells in one block. -/
def numArrCodec (size : Nat) : Codec InnerValue :=
  (Codec.len32.dep fun n => Codec.fixed (size * n)).embed (fun x => .numArr x.2 x.1)
    (fun | .numArr b n => some (n, b) | _ => none) (fun _ _ => rfl)
    (by rintro (_ | _) ⟨_, _⟩ h <;> simp_all)

/-- An array whose cells are values themselves. -/
def cellsCodec (c : Codec InnerValue) : Codec InnerValue :=
  (Codec.counted c).embed .entries (fun | .entries ivs => some ivs | _ => none) (fun _ _ => rfl)
    (by rintro (_ | _) a h <;> simp_all)

/-- An array of strings. -/
def strArrCodec : Codec InnerValue :=
  (Codec.counted Codec.block).embed .strArr (fun | .strArr bs => some bs | _ => none)
    (fun _ _ => rfl) (by rintro (_ | _) a h <;> simp_all)

/-- An array, given the codec of its cells. -/
def arrayCodec (c : Codec InnerValue) : ChrpcType → Codec InnerValue
  | .prim p => if p = .string then strArrCodec else numArrCodec p.size
  | .struct _ => cellsCodec c
  | .array _ => cellsCodec c

mutual
def valueCodec : ChrpcType → Codec InnerValue
  | .prim p => primCodec p
  | .struct fields =>
    (fieldsCodec fields).embed .entries (fun | .entries ivs => some ivs | _ => none)
      (fun _ _ => rfl) (by rintro (_ | _) a h <;> simp_all)
  | .array cell => arrayCodec (valueCodec cell) cell
def fieldsCodec : List ChrpcType → Codec (List InnerValue)
  | [] => Codec.nil
  | t :: ts => Codec.cons (valueCodec t) (fieldsCodec ts)
end

/-- A type and then a value of that type. -/
def chrpcValueCodec : Codec ChrpcValue :=
  (typeCodec.dep valueCodec).embed (fun x => ⟨x.1, x.2⟩) (fun v => some (v.type, v.value))
    (fun _ _ => rfl) (by rintro ⟨t, iv⟩ _ h; cases h; rfl)

/-! ## What each part writes -/

theorem primCodec_write_num {p : PrimType} (hp : p ≠ .string) (cell : Bytes) :
    (primCodec p).write (.num cell) = cell := by
  rw [primCodec, if_neg hp]; rfl

theorem primCodec_write_str (block : Bytes) :
    (primCodec .string).write (.str block) = le32 block.length ++ block := rfl

theorem numArrCodec_write (size : Nat) (block : Bytes) (n : Nat) :
    (numArrCodec size).write (.numArr block n) = le32 n ++ block := rfl

theorem strArrCodec_write (strs : List Bytes) :
    strArrCodec.write (.strArr strs) = le32 strs.length ++ strs.flatMap Codec.block.write :=
  Codec.counted_write Codec.block strs

theorem cellsCodec_write (c : Codec InnerValue) (ivs : List InnerValue) :
    (cellsCodec c).write (.entries ivs) = le32 ivs.length ++ ivs.flatMap c.write :=
  Codec.counted_write c ivs

theorem arrayCodec_numeric (c : Codec InnerValue) {p : PrimType} (hp : p ≠ .string) :
    arrayCodec c (.prim p) = numArrCodec p.size := if_neg hp

theorem arrayCodec_string (c : Codec InnerValue) : arrayCodec c (.prim .string) = strArrCodec := rfl

theorem arrayCodec_composite (c : Codec InnerValue) {cell : ChrpcType} (h : cell.IsComposite) :
    arrayCodec c cell = cellsCodec c := by
  cases cell <;> first | rfl | exact h.elim

/-! ## What each part reads -/

theorem primCodec_read_num {p : PrimType} (hp : p ≠ .string) (b : Bytes) :
    (primCodec p).read b =
      if p.size ≤ b.length then some (.num (b.take p.size), b.drop p.size) else none := by
  rw [primCodec, if_neg hp]
  by_cases hlen : p.size ≤ b.length <;> simp [Codec.embed, Codec.fixed, hlen]

theorem primCodec_read_str (b : Bytes) :
    (primCodec .string).read b = (Codec.block.read b).map fun x => (.str x.1, x.2) := rfl

theorem numArrCodec_read (size : Nat) (b : Bytes) :
    (numArrCodec size).read b = ((Codec.len32.dep fun n => Codec.fixed (size * n)).read b).map
      fun x => (.numArr x.1.2 x.1.1, x.2) := rfl

theorem strArrCodec_read (b : Bytes) :
    strArrCodec.read b = ((Codec.counted Codec.block).read b).map fun x => (.strArr x.1, x.2) :=
  rfl

theorem cellsCodec_read (c : Codec InnerValue) (b : Bytes) :
    (cellsCodec c).read b = ((Codec.counted c).read b).map fun x => (.entries x.1, x.2) := rfl

/-! ## Its domain is the sized values -/

theorem primCodec_dom (p : PrimType) (iv : InnerValue) :
    (primCodec p).dom iv ↔ iv.Sized (.prim p) := by
  by_cases hp : p = .string
  · subst hp
    cases iv <;> simp [primCodec, Codec.embed, InnerValue.Sized]
  · rw [InnerValue.sized_numeric_iff hp]
    cases iv <;> simp [primCodec, hp, Codec.embed, Codec.fixed]

theorem numArrCodec_dom (size : Nat) (iv : InnerValue) :
    (numArrCodec size).dom iv ↔
      ∃ b n, iv = .numArr b n ∧ n < 2 ^ 32 ∧ b.length = size * n := by
  cases iv <;> simp [numArrCodec, Codec.embed, Codec.dep, Codec.len32, Codec.fixed]

theorem cellsCodec_dom (c : Codec InnerValue) (iv : InnerValue) :
    (cellsCodec c).dom iv ↔
      ∃ ivs, iv = .entries ivs ∧ ivs.length < 2 ^ 32 ∧ ∀ a ∈ ivs, c.dom a := by
  cases iv <;> simp [cellsCodec, Codec.embed]

theorem strArrCodec_dom (iv : InnerValue) :
    strArrCodec.dom iv ↔
      ∃ bs, iv = .strArr bs ∧ bs.length < 2 ^ 32 ∧ ∀ b ∈ bs, b.length < 2 ^ 32 := by
  cases iv <;> simp [strArrCodec, Codec.embed]

theorem arrayCodec_dom (c : Codec InnerValue) (cell : ChrpcType) (iv : InnerValue) :
    (arrayCodec c cell).dom iv ↔ InnerValue.SizedArray c.dom cell iv := by
  rcases cell.cell_cases with ⟨p, hp, rfl⟩ | rfl | hcomp
  · rw [arrayCodec_numeric c hp, numArrCodec_dom, InnerValue.sizedArray_numeric hp]
  · rw [arrayCodec_string, strArrCodec_dom, InnerValue.sizedArray_string]
  · rw [arrayCodec_composite c hcomp, cellsCodec_dom, InnerValue.sizedArray_composite hcomp]

theorem fieldsCodec_dom : ∀ (ts : List ChrpcType) (ivs : List InnerValue),
    (∀ t ∈ ts, ∀ iv, (valueCodec t).dom iv ↔ InnerValue.Sized t iv) →
    ((fieldsCodec ts).dom ivs ↔ InnerValue.AllSized ts ivs)
  | [], ivs, _ => by cases ivs <;> simp [fieldsCodec, Codec.nil, InnerValue.AllSized]
  | t :: ts, [], _ => by simp [fieldsCodec, Codec.cons, InnerValue.AllSized]
  | t :: ts, iv :: ivs, h => by
    have ih := fieldsCodec_dom ts ivs (fun x hx => h x (List.mem_cons_of_mem _ hx))
    simp [fieldsCodec, Codec.cons, InnerValue.AllSized, h t List.mem_cons_self, ih]

/-- **The grammar describes exactly the values whose sizes fit their type.** -/
theorem valueCodec_dom (t : ChrpcType) (iv : InnerValue) :
    (valueCodec t).dom iv ↔ iv.Sized t := by
  induction t using ChrpcType.induct generalizing iv with
  | prim p => rw [valueCodec, primCodec_dom]
  | array cell ih =>
    rw [valueCodec, arrayCodec_dom, InnerValue.Sized]
    rw [show (valueCodec cell).dom = InnerValue.Sized cell from funext fun x => propext (ih x)]
  | struct fields ih =>
    cases iv with
    | entries ivs =>
      simp [valueCodec, Codec.embed, InnerValue.Sized, fieldsCodec_dom fields ivs ih]
    | _ => simp [valueCodec, Codec.embed, InnerValue.Sized]

theorem chrpcValueCodec_dom (v : ChrpcValue) :
    chrpcValueCodec.dom v ↔ v.type.WellFormed ∧ v.value.Sized v.type := by
  simp [chrpcValueCodec, Codec.embed, Codec.dep, valueCodec_dom, typeCodec]

theorem ChrpcValue.WellFormed.dom {v : ChrpcValue} (h : v.WellFormed) : chrpcValueCodec.dom v :=
  (chrpcValueCodec_dom v).mpr ⟨h.type, h.value.sized⟩

/-- The bytes of a value: those of its type, and those the grammar gives for its inner value. -/
theorem chrpcValueCodec_write (v : ChrpcValue) :
    chrpcValueCodec.write v = v.type.bytes ++ (valueCodec v.type).write v.value := rfl

end Chlibs.Serial

import Chlibs.Serial.ValueCodec

/-!
# The decoder reads the grammar

`chrpcValueFromBuffer` accepts exactly what `chrpcValueCodec` reads. When it gives up it
deletes what it has read so far, and deletion measures singular strings with `strlen`: the
call is defined only if every one of those strings (`reachedStrings`) holds a NUL. Allocations
succeed.
-/

namespace Chlibs.Serial

open Infra

/-! ## Deleting -/

/-- `strlen` is defined on each of these blocks. -/
def AllHoldNul (strs : List Bytes) : Prop := ∀ s ∈ strs, (0 : UInt8) ∈ s

instance (strs : List Bytes) : Decidable (AllHoldNul strs) :=
  inferInstanceAs (Decidable (∀ s ∈ strs, (0 : UInt8) ∈ s))

@[simp] theorem allHoldNul_nil : AllHoldNul [] := by simp [AllHoldNul]

@[simp] theorem allHoldNul_append (a b : List Bytes) :
    AllHoldNul (a ++ b) ↔ AllHoldNul a ∧ AllHoldNul b := List.forall_mem_append

/-- `strlen` on each block. -/
def measure (strs : List Bytes) : SRes Unit :=
  if AllHoldNul strs then .ok () else .error .fault

/-- Measure some string blocks and then give up with a status. -/
def abandon {α : Type} (strs : List Bytes) (st : ChrpcStatus) : SRes α := do
  measure strs
  .error (.status st)

@[simp] theorem measure_nil : measure [] = .ok () := if_pos allHoldNul_nil

theorem measure_append (a b : List Bytes) :
    measure (a ++ b) = (do measure a; measure b) := by
  by_cases ha : AllHoldNul a <;>
    simp [measure, ha, Bind.bind, Except.bind]

theorem abandon_of {α : Type} {strs : List Bytes} (h : AllHoldNul strs) (st : ChrpcStatus) :
    (abandon strs st : SRes α) = .error (.status st) := by
  simp [abandon, measure, h, Bind.bind, Except.bind]

theorem abandon_of_not {α : Type} {strs : List Bytes} (h : ¬AllHoldNul strs)
    (st : ChrpcStatus) : (abandon strs st : SRes α) = .error .fault := by
  simp [abandon, measure, h, Bind.bind, Except.bind]

theorem abandon_bind {α β : Type} (strs : List Bytes) (st : ChrpcStatus) (f : α → SRes β) :
    (abandon strs st >>= f) = abandon strs st := by
  rw [abandon, bind_assoc]
  rfl

/-- Giving up inside a loop, which then deletes what it has done itself. -/
theorem abandon_append {α : Type} (a b : List Bytes) (st : ChrpcStatus) :
    (abandon (a ++ b) st : SRes α) = if AllHoldNul b then abandon a st else .error .fault := by
  by_cases ha : AllHoldNul a <;> by_cases hb : AllHoldNul b <;>
    simp [abandon, measure, ha, hb, Bind.bind, Except.bind]

theorem deleteCells_eq {α : Type} {delete : α → SRes Unit} {strs : α → List Bytes} :
    ∀ (l : List α), (∀ a ∈ l, delete a = measure (strs a)) →
      deleteCells delete l = measure (l.flatMap strs)
  | [], _ => measure_nil.symm
  | a :: as, h => by
    have ih := deleteCells_eq as (fun x hx => h x (List.mem_cons_of_mem _ hx))
    rw [deleteCells, h a List.mem_cons_self, ih, List.flatMap_cons, measure_append]

theorem deleteChrpcFields_eq : ∀ (ts : List ChrpcType) (ivs : List InnerValue),
    (∀ t ∈ ts, ∀ iv : InnerValue, iv.Sized t →
      deleteChrpcInnerValue t iv = measure iv.scalarStrings) →
    InnerValue.AllSized ts ivs →
    deleteChrpcFields ts ivs = measure (InnerValue.allScalarStrings ivs)
  | [], [], _, _ => by simp [deleteChrpcFields, InnerValue.allScalarStrings]
  | t :: ts, iv :: ivs, h, hs => by
    have ih := deleteChrpcFields_eq ts ivs (fun x hx => h x (List.mem_cons_of_mem _ hx)) hs.2
    rw [deleteChrpcFields, h t List.mem_cons_self iv hs.1, ih, InnerValue.allScalarStrings,
      measure_append]
  | [], _ :: _, _, hs => absurd hs (by simp [InnerValue.AllSized])
  | _ :: _, [], _, hs => absurd hs (by simp [InnerValue.AllSized])

theorem allScalarStrings_eq (ivs : List InnerValue) :
    InnerValue.allScalarStrings ivs = ivs.flatMap InnerValue.scalarStrings := by
  induction ivs with
  | nil => rfl
  | cons iv ivs ih => rw [InnerValue.allScalarStrings, List.flatMap_cons, ih]

/-- Deleting a string looks for its end. -/
theorem deleteChrpcInnerValue_prim {p : PrimType} {iv : InnerValue} (h : iv.Sized (.prim p)) :
    deleteChrpcInnerValue (.prim p) iv = measure iv.scalarStrings := by
  by_cases hp : p = .string
  · subst hp
    obtain ⟨block, rfl, -⟩ := InnerValue.sized_string_iff.mp h
    by_cases h0 : (0 : UInt8) ∈ block <;>
      simp [deleteChrpcInnerValue, hasLenPrefix, chrpcInnerValueToBlockValue, strlen, measure,
        AllHoldNul, InnerValue.scalarStrings, h0, Bind.bind, Except.bind]
  · obtain ⟨cell, rfl, -⟩ := (InnerValue.sized_numeric_iff hp).mp h
    simp [deleteChrpcInnerValue, hasLenPrefix_numeric hp, InnerValue.scalarStrings]

/-- **Deleting a sized value measures its singular strings, and nothing else can go wrong.** -/
theorem deleteChrpcInnerValue_eq (t : ChrpcType) : ∀ iv : InnerValue, iv.Sized t →
    deleteChrpcInnerValue t iv = measure iv.scalarStrings := by
  induction t using ChrpcType.induct with
  | prim p => intro iv h; exact deleteChrpcInnerValue_prim h
  | array cell ih =>
    intro iv h
    have hsized : iv.SizedArray (InnerValue.Sized cell) cell := by
      simpa [InnerValue.Sized] using h
    rcases cell.cell_cases with ⟨p, hp, rfl⟩ | rfl | hcomp
    · obtain ⟨block, n, rfl, -, -⟩ := (InnerValue.sizedArray_numeric hp iv).mp hsized
      cases p <;> first
        | exact absurd rfl hp
        | simp [deleteChrpcInnerValue, chrpcTypeIsBlockable, chrpcInnerValueToBlockValue,
            chrpcInnerArrayValueToBlockValue, InnerValue.scalarStrings, Bind.bind, Except.bind]
    · obtain ⟨strs, rfl, -, -⟩ := (InnerValue.sizedArray_string iv).mp hsized
      simp [deleteChrpcInnerValue, chrpcTypeIsBlockable, isStringType, InnerValue.scalarStrings]
    · obtain ⟨ivs, rfl, -, hall⟩ := (InnerValue.sizedArray_composite hcomp iv).mp hsized
      simp only [deleteChrpcInnerValue, hcomp.isBlockable, hcomp.isStringType,
        Bool.false_eq_true, if_false, InnerValue.scalarStrings, allScalarStrings_eq]
      exact deleteCells_eq ivs fun a ha => ih a (hall a ha)
  | struct fields ih =>
    intro iv h
    obtain ⟨ivs, rfl, hall⟩ := InnerValue.sized_struct_iff.mp h
    rw [deleteChrpcInnerValue, InnerValue.scalarStrings]
    exact deleteChrpcFields_eq fields ivs ih hall

mutual
/-- The strings that deletion measures are among all strings. -/
theorem scalarStrings_subset : ∀ iv : InnerValue, iv.scalarStrings ⊆ iv.stringBlocks
  | .num _ => by simp [InnerValue.scalarStrings]
  | .str _ => by simp [InnerValue.scalarStrings, InnerValue.stringBlocks]
  | .numArr _ _ => by simp [InnerValue.scalarStrings]
  | .strArr _ => by simp [InnerValue.scalarStrings]
  | .entries ivs => allScalarStrings_subset ivs
theorem allScalarStrings_subset : ∀ ivs : List InnerValue,
    InnerValue.allScalarStrings ivs ⊆ InnerValue.allStringBlocks ivs
  | [] => List.Subset.refl _
  | iv :: ivs => by
    rw [InnerValue.allScalarStrings, InnerValue.allStringBlocks]
    exact List.append_subset.mpr
      ⟨List.subset_append_of_subset_left _ (scalarStrings_subset iv),
        List.subset_append_of_subset_right _ (allScalarStrings_subset ivs)⟩
end

/-- A decoded value is deleted if its singular strings hold a NUL. -/
theorem deleteChrpcValue_eq {v : ChrpcValue} (h : v.value.Sized v.type) :
    deleteChrpcValue v = measure v.value.scalarStrings := deleteChrpcInnerValue_eq v.type v.value h

/-- **Deleting a well-formed value is defined.** -/
theorem deleteChrpcValue_of_wellFormed {v : ChrpcValue} (h : v.WellFormed) :
    deleteChrpcValue v = .ok () := by
  rw [deleteChrpcValue_eq h.value.sized, measure, if_pos]
  exact fun s hs => (h.value.strings s (scalarStrings_subset _ hs)).mem

/-! ## Where reading stops -/

/-- The strings that `n` cells give before a cell cannot be read, those of that cell last. -/
def reachedCells {α : Type} (c : Codec α) (strs : α → List Bytes) (reached : Bytes → List Bytes) :
    Nat → Bytes → List Bytes
  | 0, _ => []
  | n + 1, b =>
    match c.read b with
    | some (a, rest) => strs a ++ reachedCells c strs reached n rest
    | none => reached b

mutual
/-- The singular strings in front of the place where reading a value of type `t` stops. -/
def reachedStrings : ChrpcType → Bytes → List Bytes
  | .prim _, _ => []
  | .array cell, b =>
    if cell.IsComposite then
      match Codec.len32.read b with
      | some (n, rest) =>
        reachedCells (valueCodec cell) InnerValue.scalarStrings (reachedStrings cell) n rest
      | none => []
    else []
  | .struct fields, b => reachedFields fields b
def reachedFields : List ChrpcType → Bytes → List Bytes
  | [], _ => []
  | t :: ts, b =>
    match (valueCodec t).read b with
    | some (iv, rest) => iv.scalarStrings ++ reachedFields ts rest
    | none => reachedStrings t b
end

/-! ## Reading -/

/--
`read` accepts what `c` reads. Where `c` reads nothing, `read` measures the strings
`reached` and reports an unexpected end.
-/
def Decodes {α : Type} (c : Codec α) (reached : Bytes → List Bytes)
    (read : Bytes → SRes (α × Nat)) : Prop :=
  ∀ b, read b = match c.read b with
    | some (a, _) => .ok (a, (c.write a).length)
    | none => abandon (reached b) chrpcUnexpectedEnd

/-- The loop reads `n` cells when `read` reads each of them. -/
theorem readCells_eq {α : Type} {c : Codec α} {strs : α → List Bytes}
    {reached : Bytes → List Bytes} {read : Bytes → SRes (α × Nat)} {delete : α → SRes Unit}
    (hread : Decodes c reached read) (hdel : ∀ a, c.dom a → delete a = measure (strs a))
    (buf : Bytes) : ∀ (n : Nat) (done : List α) (pos : Nat), pos ≤ buf.length →
      (∀ a ∈ done, c.dom a) →
      readCells read delete buf n done pos = match (c.rep n).read (buf.drop pos) with
        | some (l, _) => .ok (done ++ l, pos + ((c.rep n).write l).length)
        | none => abandon (done.flatMap strs ++ reachedCells c strs reached n (buf.drop pos))
            chrpcUnexpectedEnd
  | 0, done, pos, _, _ => by simp [readCells, Codec.rep, Codec.nil]
  | n + 1, done, pos, hpos, hdone => by
    rw [readCells, advance_of_le hpos]
    simp only [Bind.bind, Except.bind, hread (buf.drop pos), Codec.rep, Codec.cons, reachedCells]
    cases h : c.read (buf.drop pos) with
    | none =>
      -- A cell is missing: what was read before is deleted, which may run over an open string.
      have hclean := deleteCells_eq done fun a ha => hdel a (hdone a ha)
      rw [abandon_append]
      by_cases hr : AllHoldNul (reached (buf.drop pos))
      · simp only [abandon_of hr, if_pos hr, hclean]
        rfl
      · simp only [abandon_of_not hr, if_neg hr]
    | some x =>
      obtain ⟨a, rest⟩ := x
      have hlen := c.read_length h
      have hrest := c.read_rest h
      rw [List.length_drop] at hlen
      rw [List.drop_drop] at hrest
      have hdone' : ∀ x ∈ done ++ [a], c.dom x := by
        intro x hx
        rcases List.mem_append.mp hx with hx | hx
        · exact hdone x hx
        · rw [List.mem_singleton.mp hx]
          exact (c.write_read h).1
      have ih := readCells_eq hread hdel buf n (done ++ [a]) (pos + (c.write a).length) (by omega)
        hdone'
      simp only [ih, ← hrest]
      cases (c.rep n).read rest <;> simp [Nat.add_assoc]

theorem allSized_append : ∀ {ts : List ChrpcType} {ivs : List InnerValue} {t : ChrpcType}
    {iv : InnerValue}, InnerValue.AllSized ts ivs → iv.Sized t →
    InnerValue.AllSized (ts ++ [t]) (ivs ++ [iv])
  | [], [], _, _, _, h => ⟨h, trivial⟩
  | _ :: _, _ :: _, _, _, hs, h => ⟨hs.1, allSized_append hs.2 h⟩
  | [], _ :: _, _, _, hs, _ => absurd hs (by simp [InnerValue.AllSized])
  | _ :: _, [], _, _, hs, _ => absurd hs (by simp [InnerValue.AllSized])

/-- The loop reads the fields when each field is read. -/
theorem chrpcFieldsFromBuffer_eq (buf : Bytes) : ∀ (ts : List ChrpcType),
    (∀ t ∈ ts, Decodes (valueCodec t) (reachedStrings t) (chrpcInnerValueFromBuffer t)) →
    ∀ (doneTypes : List ChrpcType) (done : List InnerValue) (pos : Nat), pos ≤ buf.length →
      InnerValue.AllSized doneTypes done →
      chrpcFieldsFromBuffer ts buf doneTypes done pos =
        match (fieldsCodec ts).read (buf.drop pos) with
        | some (l, _) => .ok (done ++ l, pos + ((fieldsCodec ts).write l).length)
        | none => abandon (InnerValue.allScalarStrings done ++ reachedFields ts (buf.drop pos))
            chrpcUnexpectedEnd
  | [], _, doneTypes, done, pos, _, _ => by
    simp [chrpcFieldsFromBuffer, fieldsCodec, Codec.nil]
  | t :: ts, hread, doneTypes, done, pos, hpos, hdone => by
    rw [chrpcFieldsFromBuffer, advance_of_le hpos]
    simp only [Bind.bind, Except.bind, hread t List.mem_cons_self (buf.drop pos), fieldsCodec,
      Codec.cons, reachedFields]
    cases h : (valueCodec t).read (buf.drop pos) with
    | none =>
      -- As for arrays, but each field is deleted by its own type.
      have hclean := deleteChrpcFields_eq doneTypes done
        (fun x _ => deleteChrpcInnerValue_eq x) hdone
      rw [abandon_append]
      by_cases hr : AllHoldNul (reachedStrings t (buf.drop pos))
      · simp only [abandon_of hr, if_pos hr, hclean]
        rfl
      · simp only [abandon_of_not hr, if_neg hr]
    | some x =>
      obtain ⟨iv, rest⟩ := x
      have hlen := (valueCodec t).read_length h
      have hrest := (valueCodec t).read_rest h
      rw [List.length_drop] at hlen
      rw [List.drop_drop] at hrest
      have hsized := (valueCodec_dom t iv).mp ((valueCodec t).write_read h).1
      have ih := chrpcFieldsFromBuffer_eq buf ts (fun x hx => hread x (List.mem_cons_of_mem _ hx))
        (doneTypes ++ [t]) (done ++ [iv]) (pos + ((valueCodec t).write iv).length) (by omega)
        (allSized_append hdone hsized)
      simp only [ih, ← hrest]
      cases (fieldsCodec ts).read rest <;>
        simp [Nat.add_assoc, allScalarStrings_eq]

/-- A length and then one block of that many cells. -/
theorem chrpcBlockArrayFromBuffer_eq (ct : ChrpcType) (b : Bytes) :
    chrpcBlockArrayFromBuffer ct b =
      match (Codec.len32.dep fun n => Codec.fixed (chrpcBlockableTypeCellSize ct * n)).read b with
      | some ((n, arr), _) => .ok (arr, n, 4 + arr.length)
      | none => .error (.status chrpcUnexpectedEnd) := by
  rw [Codec.len32_dep_fixed_read, chrpcBlockArrayFromBuffer]
  by_cases h4 : 4 ≤ b.length
  · by_cases hn : chrpcBlockableTypeCellSize ct * leNat (b.take 4) ≤ (b.drop 4).length
    · simp only [if_pos (And.intro h4 hn), if_neg (Nat.not_lt.mpr h4), if_neg (Nat.not_lt.mpr hn),
        List.length_take, Nat.min_eq_left hn]
    · simp only [if_neg (not_and_of_not_right _ hn), if_neg (Nat.not_lt.mpr h4),
        if_pos (Nat.lt_of_not_le hn)]
  · simp only [if_neg (not_and_of_not_left _ h4), if_pos (Nat.lt_of_not_le h4)]

theorem abandon_nil {α : Type} (st : ChrpcStatus) :
    (abandon [] st : SRes α) = .error (.status st) := abandon_of allHoldNul_nil st

theorem decodes_str : Decodes Codec.block (fun _ => []) (fun b => do
    let (str, _, tmpRead) ← chrpcBlockArrayFromBuffer (.prim .string) b
    .ok (str, tmpRead)) := by
  intro b
  simp only [chrpcBlockArrayFromBuffer_eq, chrpcBlockableTypeCellSize, PrimType.size,
    Nat.one_mul, Codec.block_write, Codec.block_read, abandon_nil]
  cases (Codec.len32.dep Codec.fixed).read b <;>
    simp [Bind.bind, Except.bind]

theorem decodes_prim (p : PrimType) :
    Decodes (primCodec p) (fun _ => []) (chrpcInnerValueFromBuffer (.prim p)) := by
  intro b
  by_cases hp : p = .string
  · subst hp
    simp only [chrpcInnerValueFromBuffer, hasLenPrefix, if_true,
      chrpcBlockArrayInnerValueFromBuffer, chrpcBlockArrayFromBuffer_eq,
      chrpcBlockableTypeCellSize, PrimType.size, Nat.one_mul, isStringType, primCodec_read_str,
      Codec.block_read, abandon_nil]
    cases (Codec.len32.dep Codec.fixed).read b <;>
      simp [Bind.bind, Except.bind, primCodec_write_str]
  · rw [chrpcInnerValueFromBuffer, if_neg (by simp [hasLenPrefix_numeric hp]),
      chrpcNumericInnerValueFromBuffer, primCodec_read_num hp, abandon_nil]
    by_cases hlen : p.size ≤ b.length
    · simp [hlen, Nat.not_lt.mpr hlen, primCodec_write_num hp]
    · simp [hlen, Nat.lt_of_not_le hlen]

theorem decodes_numArr {p : PrimType} (hp : p ≠ .string) :
    Decodes (numArrCodec p.size) (fun _ => [])
      (chrpcBlockArrayInnerValueFromBuffer (.array (.prim p))) := by
  intro b
  simp only [chrpcBlockArrayInnerValueFromBuffer, chrpcBlockArrayFromBuffer_eq,
    chrpcBlockableTypeCellSize, if_neg hp, isStringType, numArrCodec_read, abandon_nil]
  cases (Codec.len32.dep fun n => Codec.fixed (p.size * n)).read b <;>
    simp [Bind.bind, Except.bind, numArrCodec_write]

theorem reachedCells_nil {α : Type} (c : Codec α) : ∀ (n : Nat) (b : Bytes),
    reachedCells c (fun _ => []) (fun _ => []) n b = []
  | 0, _ => rfl
  | n + 1, b => by
    rw [reachedCells]
    cases c.read b with
    | none => rfl
    | some x => exact reachedCells_nil c n x.2

theorem decodes_strArr :
    Decodes strArrCodec (fun _ => []) chrpcStrArrayInnerValueFromBuffer := by
  intro b
  rw [chrpcStrArrayInnerValueFromBuffer, strArrCodec_read, Codec.counted_read, abandon_nil]
  by_cases h4 : 4 ≤ b.length
  · have hdel : ∀ a : Bytes, Codec.block.dom a → (.ok () : SRes Unit) = measure [] :=
      fun _ _ => measure_nil.symm
    have hloop := readCells_eq decodes_str hdel b (leNat (b.take 4)) [] 4 h4 (by simp)
    simp only [if_neg (Nat.not_lt.mpr h4), hloop, Codec.len32, if_pos h4, List.nil_append,
      List.flatMap_nil, reachedCells_nil, abandon_nil]
    cases h : (Codec.block.rep (leNat (b.take 4))).read (b.drop 4) with
    | none => rfl
    | some x =>
      have hl := (Codec.rep_dom _ _ _).mp (Codec.write_read _ h).1
      simp [Bind.bind, Except.bind, strArrCodec_write, ← hl.1, Codec.rep_write]
  · simp only [if_pos (Nat.lt_of_not_le h4), Codec.len32, if_neg h4]
    rfl

theorem decodes_cells {cell : ChrpcType} (hcomp : cell.IsComposite)
    (ih : Decodes (valueCodec cell) (reachedStrings cell) (chrpcInnerValueFromBuffer cell)) :
    Decodes (cellsCodec (valueCodec cell)) (reachedStrings (.array cell))
      (chrpcCmpArrayInnerValueFromBuffer (chrpcInnerValueFromBuffer cell)
        (deleteChrpcInnerValue cell)) := by
  intro b
  rw [chrpcCmpArrayInnerValueFromBuffer, cellsCodec_read, Codec.counted_read, reachedStrings,
    if_pos hcomp]
  by_cases h4 : 4 ≤ b.length
  · have hdel : ∀ a, (valueCodec cell).dom a → deleteChrpcInnerValue cell a
        = measure a.scalarStrings :=
      fun a ha => deleteChrpcInnerValue_eq cell a ((valueCodec_dom cell a).mp ha)
    have hloop := readCells_eq ih hdel b (leNat (b.take 4)) [] 4 h4 (by simp)
    simp only [if_neg (Nat.not_lt.mpr h4), hloop, Codec.len32, if_pos h4, List.nil_append,
      List.flatMap_nil]
    cases h : ((valueCodec cell).rep (leNat (b.take 4))).read (b.drop 4) with
    | none => exact abandon_bind _ _ _
    | some x =>
      have hl := (Codec.rep_dom _ _ _).mp (Codec.write_read _ h).1
      simp [Bind.bind, Except.bind, cellsCodec_write, ← hl.1, Codec.rep_write]
  · simp only [if_pos (Nat.lt_of_not_le h4), Codec.len32, if_neg h4, abandon_nil]
    rfl

/-- **The decoder reads the grammar**, and nothing but the strings it deletes can hurt it. -/
theorem chrpcInnerValueFromBuffer_decodes (t : ChrpcType) :
    Decodes (valueCodec t) (reachedStrings t) (chrpcInnerValueFromBuffer t) := by
  induction t using ChrpcType.induct with
  | prim p => exact decodes_prim p
  | array cell ih =>
    intro b
    rw [valueCodec, chrpcInnerValueFromBuffer]
    rcases cell.cell_cases with ⟨p, hp, rfl⟩ | rfl | hcomp
    · rw [if_pos (chrpcTypeIsBlockable_numArr hp), arrayCodec_numeric _ hp, decodes_numArr hp,
        reachedStrings, if_neg (by simp [ChrpcType.IsComposite])]
    · rw [if_neg (by simp [chrpcTypeIsBlockable]), if_pos (by rfl), arrayCodec_string,
        decodes_strArr, reachedStrings, if_neg (by simp [ChrpcType.IsComposite])]
    · rw [if_neg (by simp [hcomp.isBlockable]), if_neg (by simp [hcomp.isStringType]),
        arrayCodec_composite _ hcomp, decodes_cells hcomp ih]
  | struct fields ih =>
    intro b
    have hloop := chrpcFieldsFromBuffer_eq b fields ih [] [] 0 (Nat.zero_le _) trivial
    simp only [List.drop_zero, List.nil_append, Nat.zero_add, InnerValue.allScalarStrings]
      at hloop
    rw [chrpcInnerValueFromBuffer, hloop, reachedStrings, valueCodec]
    simp only [Codec.embed]
    cases h : (fieldsCodec fields).read b with
    | none => exact abandon_bind _ _ _
    | some x => simp [Bind.bind, Except.bind]

/-! ## Values -/

/-- The singular strings in front of the place where reading a typed value stops. -/
def reachedInValue (b : Bytes) : List Bytes :=
  match typeCodec.read b with
  | some (t, rest) => reachedStrings t rest
  | none => []

/-- **What the grammar reads is accepted**, and the count returned is its length. -/
theorem chrpcValueFromBuffer_read_some {b rest : Bytes} {v : ChrpcValue}
    (h : chrpcValueCodec.read b = some (v, rest)) :
    chrpcValueFromBuffer b = .ok (v, (chrpcValueCodec.write v).length) := by
  simp only [chrpcValueCodec, Codec.embed, Codec.dep] at h
  cases ht : typeCodec.read b with
  | none => simp [ht] at h
  | some x =>
    obtain ⟨t, rest₁⟩ := x
    have hrest := typeCodec.read_rest ht
    have hlen := typeCodec.read_length ht
    cases hv : (valueCodec t).read rest₁ with
    | none => simp [ht, hv] at h
    | some y =>
      simp only [ht, hv, Option.map_some, Option.some.injEq, Prod.mk.injEq] at h
      obtain ⟨rfl, -⟩ := h
      have hinner := chrpcInnerValueFromBuffer_decodes t rest₁
      rw [hv] at hinner
      rw [chrpcValueFromBuffer, typeCodec_read_eq_some ht]
      simp only [Bind.bind, Except.bind]
      rw [advance_of_le (by simp [typeCodec] at hlen; omega),
        show b.drop t.bytes.length = rest₁ from hrest.symm]
      simp only [hinner, chrpcValueCodec_write, List.length_append]

/-- Where the type is read and the value is not, the decoder ends unexpectedly. -/
theorem chrpcValueFromBuffer_value_none {b rest : Bytes} {t : ChrpcType}
    (ht : typeCodec.read b = some (t, rest)) (hv : (valueCodec t).read rest = none) :
    chrpcValueFromBuffer b = abandon (reachedStrings t rest) chrpcUnexpectedEnd := by
  have hrest := typeCodec.read_rest ht
  have hlen := typeCodec.read_length ht
  have hinner := chrpcInnerValueFromBuffer_decodes t rest
  rw [hv] at hinner
  rw [chrpcValueFromBuffer, typeCodec_read_eq_some ht]
  simp only [Bind.bind, Except.bind]
  rw [advance_of_le (by simp [typeCodec] at hlen; omega),
    show b.drop t.bytes.length = rest from hrest.symm]
  simp only [hinner]
  exact abandon_bind _ _ _

/-- **What the grammar does not read is refused**, unless a string met on the way has no NUL. -/
theorem chrpcValueFromBuffer_read_none {b : Bytes} (h : chrpcValueCodec.read b = none) :
    ∃ st, DecodeError st ∧ chrpcValueFromBuffer b = abandon (reachedInValue b) st := by
  simp only [chrpcValueCodec, Codec.embed, Codec.dep] at h
  cases ht : typeCodec.read b with
  | none =>
    obtain ⟨st, hst, herr⟩ := typeCodec_read_eq_none ht
    refine ⟨st, herr, ?_⟩
    rw [chrpcValueFromBuffer, hst, reachedInValue, ht, abandon_nil]
    rfl
  | some x =>
    obtain ⟨t, rest⟩ := x
    cases hv : (valueCodec t).read rest with
    | some y => simp [ht, hv] at h
    | none =>
      refine ⟨chrpcUnexpectedEnd, Or.inr (Or.inl rfl), ?_⟩
      rw [chrpcValueFromBuffer_value_none ht hv, reachedInValue, ht]

/-- An accepted buffer starts with the bytes of a value, and they are what was counted. -/
theorem chrpcValueFromBuffer_eq_ok {b : Bytes} {v : ChrpcValue} {r : Nat}
    (h : chrpcValueFromBuffer b = .ok (v, r)) :
    chrpcValueCodec.dom v ∧ r = (chrpcValueCodec.write v).length ∧
      chrpcValueCodec.read b = some (v, b.drop r) := by
  cases hr : chrpcValueCodec.read b with
  | none =>
    obtain ⟨st, -, he⟩ := chrpcValueFromBuffer_read_none hr
    rw [he] at h
    by_cases hn : AllHoldNul (reachedInValue b)
    · simp [abandon_of hn] at h
    · simp [abandon_of_not hn] at h
  | some x =>
    obtain ⟨v', rest⟩ := x
    rw [chrpcValueFromBuffer_read_some hr] at h
    simp only [Except.ok.injEq, Prod.mk.injEq] at h
    obtain ⟨rfl, rfl⟩ := h
    exact ⟨(chrpcValueCodec.write_read hr).1, rfl, by rw [← chrpcValueCodec.read_rest hr]⟩

/-- What the encoder's grammar writes is read back in front of any rest. -/
theorem chrpcValueFromBuffer_write {v : ChrpcValue} (h : chrpcValueCodec.dom v) (rest : Bytes) :
    chrpcValueFromBuffer (chrpcValueCodec.write v ++ rest)
      = .ok (v, (chrpcValueCodec.write v).length) :=
  chrpcValueFromBuffer_read_some (chrpcValueCodec.read_write h rest)

/-- The singular strings that the decoder reads in `b`, also where it gives up in the end. -/
def stringsIn (b : Bytes) : List Bytes :=
  match chrpcValueCodec.read b with
  | some (v, _) => v.value.scalarStrings
  | none => reachedInValue b

/-- Where the strings are terminated, decoding is defined. -/
theorem chrpcValueFromBuffer_cases {b : Bytes} (h : AllHoldNul (stringsIn b)) :
    (∃ v r, chrpcValueFromBuffer b = .ok (v, r)) ∨
    ∃ st, DecodeError st ∧ chrpcValueFromBuffer b = .error (.status st) := by
  rw [stringsIn] at h
  cases hread : chrpcValueCodec.read b with
  | some x => exact .inl ⟨x.1, _, chrpcValueFromBuffer_read_some hread⟩
  | none =>
    obtain ⟨st, hst, heq⟩ := chrpcValueFromBuffer_read_none hread
    rw [hread] at h
    exact .inr ⟨st, hst, by rw [heq, abandon_of h]⟩

end Chlibs.Serial

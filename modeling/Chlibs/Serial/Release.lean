import Chlibs.Serial.Decode
import Chlibs.Serial.Memory

/-!
# The decoder releases what it allocates

`chrpcValueFromBufferMem` decodes what `chrpcValueFromBuffer` decodes. Where it fails it has freed
every block that it allocated, and where it succeeds the blocks left are those of the value, which
`delete_chrpc_value` frees.

* `deleteChrpcInnerValueMem_frees` — deletion frees the blocks of a value.
* `chrpcInnerValueFromBufferMem_tracks` — reading leaves the blocks of a value, or none.
-/

namespace Chlibs.Serial

open Infra

/-! ## Trees -/

theorem TypeMem.eraseAll_eq (ts : List TypeMem) : TypeMem.eraseAll ts = ts.map TypeMem.erase := by
  induction ts with
  | nil => rfl
  | cons t ts ih => rw [TypeMem.eraseAll, ih, List.map_cons]

theorem TypeMem.allBlocks_eq (ts : List TypeMem) :
    TypeMem.allBlocks ts = ts.flatMap TypeMem.blocks := by
  induction ts with
  | nil => rfl
  | cons t ts ih => rw [TypeMem.allBlocks, ih, List.flatMap_cons]

theorem TypeMem.allBlocks_append (ts : List TypeMem) (t : TypeMem) :
    TypeMem.allBlocks (ts ++ [t]) = TypeMem.allBlocks ts ++ t.blocks := by
  simp [TypeMem.allBlocks_eq]

theorem ValueMem.eraseAll_eq (ivs : List ValueMem) :
    ValueMem.eraseAll ivs = ivs.map ValueMem.erase := by
  induction ivs with
  | nil => rfl
  | cons iv ivs ih => rw [ValueMem.eraseAll, ih, List.map_cons]

theorem ValueMem.allBlocks_eq (ivs : List ValueMem) :
    ValueMem.allBlocks ivs = ivs.flatMap ValueMem.blocks := by
  induction ivs with
  | nil => rfl
  | cons iv ivs ih => rw [ValueMem.allBlocks, ih, List.flatMap_cons]

theorem ValueMem.allBlocks_append (ivs : List ValueMem) (iv : ValueMem) :
    ValueMem.allBlocks (ivs ++ [iv]) = ValueMem.allBlocks ivs ++ iv.blocks := by
  simp [ValueMem.allBlocks_eq]

/-! ## Deleting -/

mutual
/-- **Deleting a type frees its blocks.** -/
theorem deleteChrpcTypeMem_frees : ∀ t : TypeMem, Frees t.blocks (deleteChrpcTypeMem t) (.ok ())
  | .prim _ => Frees.nil
  | .array ct cell => (deleteChrpcTypeMem_frees cell).thenFree ct
  | .struct ct structFieldsTypes fieldTypes fields => by
    rw [TypeMem.blocks, deleteChrpcTypeMem]
    exact (deleteChrpcTypesMem_frees fields).andThen ((Frees.ptr fieldTypes).andThen
      ((Frees.ptr structFieldsTypes).thenFree ct))
theorem deleteChrpcTypesMem_frees : ∀ ts : List TypeMem,
    Frees (TypeMem.allBlocks ts) (deleteChrpcTypesMem ts) (.ok ())
  | [] => Frees.nil
  | t :: ts => (deleteChrpcTypeMem_frees t).andThen (deleteChrpcTypesMem_frees ts)
end

theorem deleteCellsMem_frees {α β : Type} {deleteMem : α → MemM Unit} {delete : β → SRes Unit}
    {erase : α → β} {blocks : α → List Nat} : ∀ (l : List α),
    (∀ a ∈ l, Frees (blocks a) (deleteMem a) (delete (erase a))) →
    Frees (l.flatMap blocks) (deleteCellsMem deleteMem l) (deleteCells delete (l.map erase))
  | [], _ => Frees.nil
  | a :: as, h => by
    rw [List.flatMap_cons, deleteCellsMem, List.map_cons, deleteCells]
    exact (h a List.mem_cons_self).andThen
      (deleteCellsMem_frees as fun x hx => h x (List.mem_cons_of_mem _ hx))

/-- The strings of an array are freed as they are. -/
theorem deleteStringsMem_frees (strs : List (Ptr × Bytes)) :
    Frees (strs.flatMap fun str => str.1.toList)
      (deleteCellsMem (fun str => safeFree str.1) strs : MemM Unit) (.ok ()) := by
  induction strs with
  | nil => exact Frees.nil
  | cons str strs ih =>
    rw [List.flatMap_cons, deleteCellsMem]
    exact (Frees.ptr str.1).andThen ih

/-- The view of a block is defined or not, it has no status. -/
theorem chrpcInnerValueToBlockValue_ne_status (t : ChrpcType) (iv : InnerValue) (st : ChrpcStatus) :
    chrpcInnerValueToBlockValue t iv ≠ .error (.status st) := by
  unfold chrpcInnerValueToBlockValue chrpcInnerArrayValueToBlockValue
  repeat' split
  all_goals simp

/-- A string or a numeric array: its block goes first. -/
theorem deleteBlockableMem_frees {t : ChrpcType} (ht : hasLenPrefix t = true) (iv : ValueMem) :
    Frees (iv.arr.toList ++ iv.ptr.toList) (deleteBlockableMem t iv)
      (do let _ ← chrpcInnerValueToBlockValue t iv.erase; .ok ()) := by
  have hrun : deleteBlockableMem t iv = (do
      let _ ← readOnly (chrpcInnerValueToBlockValue t iv.erase)
      do safeFree iv.arr; safeFree iv.ptr) := by
    rw [deleteBlockableMem, if_pos ht]
  rw [hrun]
  exact Frees.read (chrpcInnerValueToBlockValue_ne_status t iv.erase)
    fun _ => (Frees.ptr iv.arr).thenFree iv.ptr

theorem deleteChrpcFieldsMem_frees : ∀ (ts : List ChrpcType) (ivs : List ValueMem),
    (∀ t ∈ ts, ∀ iv : ValueMem, iv.erase.Sized t →
      Frees iv.blocks (deleteChrpcInnerValueMem t iv) (deleteChrpcInnerValue t iv.erase)) →
    InnerValue.AllSized ts (ValueMem.eraseAll ivs) →
    Frees (ValueMem.allBlocks ivs) (deleteChrpcFieldsMem ts ivs)
      (deleteChrpcFields ts (ValueMem.eraseAll ivs))
  | [], [], _, _ => Frees.nil
  | t :: ts, iv :: ivs, h, hs => by
    rw [ValueMem.allBlocks, deleteChrpcFieldsMem, ValueMem.eraseAll, deleteChrpcFields]
    exact (h t List.mem_cons_self iv hs.1).andThen
      (deleteChrpcFieldsMem_frees ts ivs (fun x hx => h x (List.mem_cons_of_mem _ hx)) hs.2)
  | [], _ :: _, _, hs => absurd hs (by simp [ValueMem.eraseAll, InnerValue.AllSized])
  | _ :: _, [], _, hs => absurd hs (by simp [ValueMem.eraseAll, InnerValue.AllSized])

/-- **Deleting a value frees its blocks**, where it is defined. -/
theorem deleteChrpcInnerValueMem_frees (t : ChrpcType) : ∀ iv : ValueMem, iv.erase.Sized t →
    Frees iv.blocks (deleteChrpcInnerValueMem t iv) (deleteChrpcInnerValue t iv.erase) := by
  induction t using ChrpcType.induct with
  | prim p =>
    intro iv h
    rw [deleteChrpcInnerValueMem, deleteChrpcInnerValue]
    by_cases hp : p = .string
    · subst hp
      obtain ⟨block, hstr, -⟩ := InnerValue.sized_string_iff.mp h
      cases iv with
      | str iv arr block => exact deleteBlockableMem_frees rfl _
      | _ => simp [ValueMem.erase] at hstr
    · obtain ⟨cell, hnum, -⟩ := (InnerValue.sized_numeric_iff hp).mp h
      cases iv with
      | num iv cell =>
        have hdynamic : ¬hasLenPrefix (.prim p) = true := by simp [hasLenPrefix_numeric hp]
        rw [deleteBlockableMem, if_neg hdynamic, if_neg hdynamic]
        exact Frees.ptr iv
      | _ => simp [ValueMem.erase] at hnum
  | array cell ih =>
    intro iv h
    have hsized : iv.erase.SizedArray (InnerValue.Sized cell) cell := by
      simpa [InnerValue.Sized] using h
    rw [deleteChrpcInnerValueMem.eq_def, deleteChrpcInnerValue.eq_def]
    -- The three layouts of an array: one block of numbers, strings, and cells of their own.
    rcases cell.cell_cases with ⟨p, hp, rfl⟩ | rfl | hcomp
    · obtain ⟨block, n, harr, -, -⟩ := (InnerValue.sizedArray_numeric hp _).mp hsized
      simp only [chrpcTypeIsBlockable_numArr hp, if_true]
      cases iv with
      | numArr iv arr block n => exact deleteBlockableMem_frees rfl _
      | _ => simp [ValueMem.erase] at harr
    · obtain ⟨strs, harr, -, -⟩ := (InnerValue.sizedArray_string _).mp hsized
      cases iv with
      | strArr iv arr strs =>
        show Frees (strs.flatMap _ ++ (arr.toList ++ iv.toList)) (do
          deleteCellsMem (fun str => safeFree str.1) strs
          do safeFree arr; safeFree iv) (.ok ())
        exact (deleteStringsMem_frees strs).andThen ((Frees.ptr arr).thenFree iv)
      | _ => simp [ValueMem.erase] at harr
    · obtain ⟨ivs, harr, -, hall⟩ := (InnerValue.sizedArray_composite hcomp _).mp hsized
      cases iv with
      | entries iv arr ivs =>
        simp only [ValueMem.erase, InnerValue.entries.injEq] at harr
        subst harr
        rw [ValueMem.eraseAll_eq] at hall
        simp only [ValueMem.erase, ValueMem.eraseAll_eq, hcomp.isBlockable, hcomp.isStringType,
          Bool.false_eq_true, if_false, ValueMem.blocks, ValueMem.allBlocks_eq]
        have hcells := deleteCellsMem_frees ivs fun a ha =>
          ih a (hall a.erase (List.mem_map_of_mem ha))
        exact hcells.andThenOk ((Frees.ptr arr).thenFree iv)
      | _ => simp [ValueMem.erase] at harr
  | struct fields ih =>
    intro iv h
    obtain ⟨ivs, hentries, hall⟩ := InnerValue.sized_struct_iff.mp h
    cases iv with
    | entries iv arr ivs =>
      simp only [ValueMem.erase, InnerValue.entries.injEq] at hentries
      subst hentries
      rw [deleteChrpcInnerValueMem, ValueMem.erase, deleteChrpcInnerValue, ValueMem.blocks]
      exact (deleteChrpcFieldsMem_frees fields ivs ih hall).andThenOk
        ((Frees.ptr arr).thenFree iv)
    | _ => simp [ValueMem.erase] at hentries

/-! ## Reading a type -/

theorem advance_ne_status (buf : Bytes) (pos : Nat) (st : ChrpcStatus) :
    (advance buf pos : SRes Bytes) ≠ .error (.status st) := by
  unfold advance
  split <;> simp

/-- The two results of reading a type. -/
def SameType (a : TypeMem × Nat) (b : ChrpcType × Nat) : Prop := a.1.erase = b.1 ∧ a.2 = b.2

theorem chrpcFieldTypesFromBufferMem_tracks {recMem : Bytes → MemM (TypeMem × Nat)}
    {rec : Bytes → SRes (ChrpcType × Nat)}
    (hrec : ∀ b, Tracks [] (recMem b) (rec b) SameType (fun a => a.1.blocks) []) (fields : Ptr)
    (buf : Bytes) : ∀ (n : Nat) (done : List TypeMem) (pos : Nat),
    Tracks (TypeMem.allBlocks done ++ fields.toList)
      (chrpcFieldTypesFromBufferMem recMem fields buf n done pos)
      (chrpcFieldTypesFromBuffer rec buf n pos)
      (fun a b => TypeMem.eraseAll a.1 = TypeMem.eraseAll done ++ b.1 ∧ a.2 = b.2)
      (fun a => TypeMem.allBlocks a.1 ++ fields.toList) []
  | 0, done, pos => Tracks.ret ⟨(List.append_nil _).symm, rfl⟩ (.refl _)
  | n + 1, done, pos => by
    rw [chrpcFieldTypesFromBufferMem, chrpcFieldTypesFromBuffer]
    refine Tracks.read (advance_ne_status buf pos) fun b _ => ?_
    have hframe := (hrec b).frame (TypeMem.allBlocks done ++ fields.toList)
    rw [List.nil_append] at hframe
    refine Tracks.attempt_bind hframe (fun a c _ hsame => ?_) fun st => ?_
    · obtain ⟨t, r⟩ := a
      obtain ⟨ct, _⟩ := c
      obtain ⟨rfl, rfl⟩ := hsame
      have ih := chrpcFieldTypesFromBufferMem_tracks hrec fields buf n (done ++ [t]) (pos + r)
      have hblocks : (t.blocks ++ (TypeMem.allBlocks done ++ fields.toList)).Perm
          (TypeMem.allBlocks (done ++ [t]) ++ fields.toList) := by
        rw [TypeMem.allBlocks_append, List.append_assoc]
        exact List.perm_append_comm_assoc _ _ _
      refine Tracks.map_right ((ih.perm hblocks (fun _ => .refl _) (.refl [])).mono ?_)
      rintro ⟨ts, pos'⟩ ⟨cts, pos''⟩ ⟨hts, rfl⟩
      exact ⟨by simpa [TypeMem.eraseAll_eq] using hts, rfl⟩
    · -- The types read so far go, and the array that they are in.
      have hdelete := (deleteChrpcTypesMem_frees done).andThenOk (Frees.ptr fields)
      show Tracks _ (_ >>= fun _ => _ >>= fun _ => _) _ _ _ _
      rw [← bind_assoc]
      exact hdelete.thenFail

theorem chrpcTypeFromBufferDepthMem_tracks : ∀ (depth : Nat) (buf : Bytes),
    Tracks [] (chrpcTypeFromBufferDepthMem depth buf) (chrpcTypeFromBufferDepth depth buf) SameType
      (fun a => a.1.blocks) []
  | 0, buf => Tracks.fault
  | depth + 1, [] => Tracks.fail (.refl [])
  | depth + 1, tid :: rest => by
    rw [chrpcTypeFromBufferDepthMem.eq_def, chrpcTypeFromBufferDepth.eq_def]
    cases hprim : newChrpcPrimitiveTypeFromId tid with
    | some t =>
      obtain ⟨p, rfl, -⟩ := newChrpcPrimitiveTypeFromId_eq_some hprim
      simp only [hprim]
      exact Tracks.ret ⟨rfl, rfl⟩ (.refl [])
    | none =>
      simp only [hprim]
      by_cases harray : tid = chrpcArrayTid
      · rw [if_pos harray, if_pos harray]
        refine Tracks.read (advance_ne_status _ 1) fun b _ => ?_
        refine (chrpcTypeFromBufferDepthMem_tracks depth b).bind ?_
        rintro ⟨cell, r⟩ ⟨ct, _⟩ - ⟨rfl, rfl⟩
        refine Tracks.malloc fun ct => ?_
        exact Tracks.ret ⟨rfl, rfl⟩ List.perm_append_comm
      · rw [if_neg harray, if_neg harray]
        by_cases hstruct : tid = chrpcStructTid
        · rw [if_pos hstruct, if_pos hstruct]
          cases rest with
          | nil => exact Tracks.fail (.refl [])
          | cons numFields rest =>
            simp only []
            by_cases hempty : numFields.toNat < 1
            · rw [if_pos hempty, if_pos hempty]
              exact Tracks.fail (.refl [])
            rw [if_neg hempty, if_neg hempty]
            by_cases hlarge : chrpcMaxStructFields < numFields.toNat
            · rw [if_pos hlarge, if_pos hlarge]
              exact Tracks.fail (.refl [])
            rw [if_neg hlarge, if_neg hlarge]
            refine Tracks.malloc fun fieldTypes => ?_
            have hloop := chrpcFieldTypesFromBufferMem_tracks
              (chrpcTypeFromBufferDepthMem_tracks depth) fieldTypes (tid :: numFields :: rest)
              numFields.toNat [] 2
            rw [List.append_nil]
            refine hloop.bind ?_
            rintro ⟨fields, pos⟩ ⟨cts, _⟩ - ⟨hfields, rfl⟩
            refine Tracks.malloc fun structFieldsTypes => Tracks.malloc fun ct => ?_
            refine Tracks.ret ⟨congrArg ChrpcType.struct hfields, rfl⟩ ?_
            rw [List.perm_iff_count]
            intro x
            simp only [TypeMem.blocks, List.count_append]
            omega
        · rw [if_neg hstruct, if_neg hstruct]
          exact Tracks.fail (.refl [])

theorem chrpcTypeFromBufferMem_tracks (buf : Bytes) :
    Tracks [] (chrpcTypeFromBufferMem buf) (chrpcTypeFromBuffer buf) SameType
      (fun a => a.1.blocks) [] := chrpcTypeFromBufferDepthMem_tracks _ buf

/-! ## Reading a value -/

/-- The two results of reading a value. -/
def SameValue (a : ValueMem × Nat) (b : InnerValue × Nat) : Prop := a.1.erase = b.1 ∧ a.2 = b.2

theorem chrpcNumericInnerValueFromBufferMem_tracks (p : PrimType) (buf : Bytes) :
    Tracks [] (chrpcNumericInnerValueFromBufferMem p buf) (chrpcNumericInnerValueFromBuffer p buf)
      SameValue (fun a => a.1.blocks) [] := by
  rw [chrpcNumericInnerValueFromBufferMem, chrpcNumericInnerValueFromBuffer]
  refine Tracks.malloc fun ivp => ?_
  by_cases hlen : buf.length < p.size
  · rw [if_pos hlen, if_pos hlen]
    exact Tracks.free (Tracks.fail (.refl []))
  · rw [if_neg hlen, if_neg hlen, List.append_nil]
    exact Tracks.ret ⟨rfl, rfl⟩ (.refl _)

theorem chrpcBlockArrayFromBufferMem_tracks (ct : ChrpcType) (buf : Bytes) :
    Tracks [] (chrpcBlockArrayFromBufferMem ct buf) (chrpcBlockArrayFromBuffer ct buf)
      (fun a b => a.1.2 = b.1 ∧ a.2 = b.2) (fun a => a.1.1.toList) [] := by
  simp only [chrpcBlockArrayFromBufferMem, chrpcBlockArrayFromBuffer]
  by_cases h4 : buf.length < 4
  · rw [if_pos h4, if_pos h4]
    exact Tracks.fail (.refl [])
  rw [if_neg h4, if_neg h4]
  split
  · exact Tracks.fail (.refl [])
  · refine Tracks.malloc fun arr => ?_
    rw [List.append_nil]
    exact Tracks.ret ⟨rfl, rfl⟩ (.refl _)

theorem chrpcBlockArrayInnerValueFromBufferMem_tracks (ct : ChrpcType) (buf : Bytes) :
    Tracks [] (chrpcBlockArrayInnerValueFromBufferMem ct buf)
      (chrpcBlockArrayInnerValueFromBuffer ct buf) SameValue (fun a => a.1.blocks) [] := by
  rw [chrpcBlockArrayInnerValueFromBufferMem, chrpcBlockArrayInnerValueFromBuffer]
  refine (chrpcBlockArrayFromBufferMem_tracks ct buf).bind ?_
  rintro ⟨⟨arr, block⟩, numEles, readden⟩ ⟨_, _⟩ - ⟨rfl, rfl⟩
  refine Tracks.malloc fun ivp => ?_
  by_cases hstr : isStringType ct
  · simp only [if_pos hstr]
    exact Tracks.ret ⟨rfl, rfl⟩ List.perm_append_comm
  · simp only [if_neg hstr]
    exact Tracks.ret ⟨rfl, rfl⟩ List.perm_append_comm

/-- **The loop over the cells**: on a failure those that were read go, and the block they are in. -/
theorem readCellsMem_tracks {α β : Type} {readMem : Bytes → MemM (α × Nat)}
    {read : Bytes → SRes (β × Nat)} (deleteMem : α → MemM Unit) (delete : β → SRes Unit)
    (erase : α → β) (blocks : α → List Nat) {P : β → Prop}
    (hread : ∀ b, Tracks [] (readMem b) (read b) (fun x y => erase x.1 = y.1 ∧ x.2 = y.2)
      (fun x => blocks x.1) [])
    (hdom : ∀ b a r, read b = .ok (a, r) → P a)
    (hdel : ∀ a, P (erase a) → Frees (blocks a) (deleteMem a) (delete (erase a)))
    (arr : Ptr) (buf : Bytes) : ∀ (n : Nat) (done : List α) (pos : Nat),
    (∀ a ∈ done, P (erase a)) →
    Tracks (done.flatMap blocks ++ arr.toList) (readCellsMem readMem deleteMem arr buf n done pos)
      (readCells read delete buf n (done.map erase) pos)
      (fun x y => x.1.map erase = y.1 ∧ x.2 = y.2) (fun x => x.1.flatMap blocks ++ arr.toList) []
  | 0, done, pos, _ => Tracks.ret ⟨rfl, rfl⟩ (.refl _)
  | n + 1, done, pos, hdone => by
    rw [readCellsMem, readCells]
    refine Tracks.read (advance_ne_status buf pos) fun b _ => ?_
    -- The blocks of the cells before are held while the next one is read.
    have hframe := (hread b).frame (done.flatMap blocks ++ arr.toList)
    rw [List.nil_append] at hframe
    refine Tracks.attempt hframe (fun a c hok hsame => ?_) (fun st hst => ?_) fun hfault => ?_
    · obtain ⟨a, r⟩ := a
      obtain ⟨_, _⟩ := c
      obtain ⟨rfl, rfl⟩ := hsame
      have hdone' : ∀ x ∈ done ++ [a], P (erase x) := by
        intro x hx
        rcases List.mem_append.mp hx with hx | hx
        · exact hdone x hx
        · rw [List.mem_singleton.mp hx]
          exact hdom b _ _ hok
      have ih := readCellsMem_tracks deleteMem delete erase blocks hread hdom hdel arr buf n
        (done ++ [a]) (pos + r) hdone'
      have hblocks : (blocks a ++ (done.flatMap blocks ++ arr.toList)).Perm
          ((done ++ [a]).flatMap blocks ++ arr.toList) := by
        rw [List.flatMap_append, List.flatMap_singleton, List.append_assoc]
        exact List.perm_append_comm_assoc _ _ _
      simp only [hok]
      rw [List.map_append] at ih
      exact ih.perm hblocks (fun _ => .refl _) (.refl [])
    · have hdelete := (deleteCellsMem_frees done fun a ha => hdel a (hdone a ha)).andThenOk
        (Frees.ptr arr)
      simp only [hst]
      rw [← bind_assoc]
      exact hdelete.thenFail
    · simp only [hfault]

theorem chrpcStrArrayInnerValueFromBufferMem_tracks (buf : Bytes) :
    Tracks [] (chrpcStrArrayInnerValueFromBufferMem buf) (chrpcStrArrayInnerValueFromBuffer buf)
      SameValue (fun a => a.1.blocks) [] := by
  rw [chrpcStrArrayInnerValueFromBufferMem, chrpcStrArrayInnerValueFromBuffer]
  by_cases h4 : buf.length < 4
  · rw [if_pos h4, if_pos h4]
    exact Tracks.fail (.refl [])
  rw [if_neg h4, if_neg h4]
  refine Tracks.malloc fun strArr => ?_
  have hstr : ∀ b, Tracks [] (chrpcBlockArrayFromBufferMem (.prim .string) b >>= fun x =>
      pure (x.1, x.2.2)) (chrpcBlockArrayFromBuffer (.prim .string) b >>= fun y => .ok (y.1, y.2.2))
      (fun x y => x.1.2 = y.1 ∧ x.2 = y.2) (fun x => x.1.1.toList) [] := by
    intro b
    refine (chrpcBlockArrayFromBufferMem_tracks (.prim .string) b).bind fun x y _ h => ?_
    exact Tracks.ret ⟨h.1, congrArg Prod.snd h.2⟩ (.refl _)
  have hloop := readCellsMem_tracks (fun str => safeFree str.1) (fun _ => .ok ()) Prod.snd
    (fun str => str.1.toList) (P := fun _ => True) hstr (fun _ _ _ _ => trivial)
    (fun str _ => Frees.ptr str.1) strArr buf (leNat (buf.take 4)) [] 4 (by simp)
  rw [List.append_nil]
  refine hloop.bind ?_
  rintro ⟨strs, bytesRead⟩ ⟨_, _⟩ - ⟨rfl, rfl⟩
  refine Tracks.malloc fun ivp => Tracks.ret ⟨rfl, rfl⟩ ?_
  rw [List.perm_iff_count]
  intro x
  simp only [ValueMem.blocks, List.count_append]
  omega

/-- An array of values that are read one by one. -/
theorem chrpcCmpArrayInnerValueFromBufferMem_tracks {readMem : Bytes → MemM (ValueMem × Nat)}
    {read : Bytes → SRes (InnerValue × Nat)} {deleteMem : ValueMem → MemM Unit}
    {delete : InnerValue → SRes Unit} {P : InnerValue → Prop}
    (hread : ∀ b, Tracks [] (readMem b) (read b) SameValue (fun a => a.1.blocks) [])
    (hdom : ∀ b iv r, read b = .ok (iv, r) → P iv)
    (hdel : ∀ iv : ValueMem, P iv.erase → Frees iv.blocks (deleteMem iv) (delete iv.erase))
    (buf : Bytes) :
    Tracks [] (chrpcCmpArrayInnerValueFromBufferMem readMem deleteMem buf)
      (chrpcCmpArrayInnerValueFromBuffer read delete buf) SameValue (fun a => a.1.blocks) [] := by
  rw [chrpcCmpArrayInnerValueFromBufferMem, chrpcCmpArrayInnerValueFromBuffer]
  by_cases h4 : buf.length < 4
  · rw [if_pos h4, if_pos h4]
    exact Tracks.fail (.refl [])
  rw [if_neg h4, if_neg h4]
  refine Tracks.malloc fun arr => ?_
  have hloop := readCellsMem_tracks deleteMem delete ValueMem.erase ValueMem.blocks hread hdom hdel
    arr buf (leNat (buf.take 4)) [] 4 (by simp)
  rw [List.append_nil]
  refine hloop.bind ?_
  rintro ⟨ivs, bytesRead⟩ ⟨_, _⟩ - ⟨rfl, rfl⟩
  refine Tracks.malloc fun ivp => Tracks.ret ⟨?_, rfl⟩ ?_
  · rw [ValueMem.erase, ValueMem.eraseAll_eq]
  · rw [List.perm_iff_count]
    intro x
    simp only [ValueMem.blocks, ValueMem.allBlocks_eq, List.count_append]
    omega

/-- What the decoder reads as a value of a type has the sizes of it. -/
theorem chrpcInnerValueFromBuffer_sized {t : ChrpcType} {b : Bytes} {iv : InnerValue} {r : Nat}
    (h : chrpcInnerValueFromBuffer t b = .ok (iv, r)) : iv.Sized t := by
  rw [chrpcInnerValueFromBuffer_decodes] at h
  cases hread : (valueCodec t).read b with
  | none =>
    rw [hread] at h
    by_cases hnul : AllHoldNul (reachedStrings t b)
    · simp [abandon_of hnul] at h
    · simp [abandon_of_not hnul] at h
  | some x =>
    rw [hread] at h
    simp only [Except.ok.injEq, Prod.mk.injEq] at h
    rw [← h.1]
    exact (valueCodec_dom t x.1).mp ((valueCodec t).write_read hread).1

/-- **The loop over the fields of a struct.** -/
theorem chrpcFieldsFromBufferMem_tracks (structEntries : Ptr) (buf : Bytes) :
    ∀ (ts : List ChrpcType),
    (∀ t ∈ ts, ∀ b, Tracks [] (chrpcInnerValueFromBufferMem t b) (chrpcInnerValueFromBuffer t b)
      SameValue (fun a => a.1.blocks) []) →
    ∀ (doneTypes : List ChrpcType) (done : List ValueMem) (pos : Nat),
    InnerValue.AllSized doneTypes (ValueMem.eraseAll done) →
    Tracks (ValueMem.allBlocks done ++ structEntries.toList)
      (chrpcFieldsFromBufferMem ts structEntries buf doneTypes done pos)
      (chrpcFieldsFromBuffer ts buf doneTypes (ValueMem.eraseAll done) pos)
      (fun x y => ValueMem.eraseAll x.1 = y.1 ∧ x.2 = y.2)
      (fun x => ValueMem.allBlocks x.1 ++ structEntries.toList) []
  | [], _, doneTypes, done, pos, _ => by
    rw [chrpcFieldsFromBufferMem, chrpcFieldsFromBuffer]
    exact Tracks.ret ⟨rfl, rfl⟩ (.refl _)
  | t :: ts, hread, doneTypes, done, pos, hdone => by
    rw [chrpcFieldsFromBufferMem, chrpcFieldsFromBuffer]
    refine Tracks.read (advance_ne_status buf pos) fun b _ => ?_
    have hframe := (hread t List.mem_cons_self b).frame
      (ValueMem.allBlocks done ++ structEntries.toList)
    rw [List.nil_append] at hframe
    refine Tracks.attempt hframe (fun a c hok hsame => ?_) (fun st hst => ?_) fun hfault => ?_
    · obtain ⟨iv, r⟩ := a
      obtain ⟨_, _⟩ := c
      obtain ⟨rfl, rfl⟩ := hsame
      have hsized := allSized_append hdone (chrpcInnerValueFromBuffer_sized hok)
      have happend : ValueMem.eraseAll (done ++ [iv]) = ValueMem.eraseAll done ++ [iv.erase] := by
        simp [ValueMem.eraseAll_eq]
      have ih := chrpcFieldsFromBufferMem_tracks structEntries buf ts
        (fun x hx => hread x (List.mem_cons_of_mem _ hx)) (doneTypes ++ [t]) (done ++ [iv])
        (pos + r) (by rw [happend]; exact hsized)
      have hblocks : (iv.blocks ++ (ValueMem.allBlocks done ++ structEntries.toList)).Perm
          (ValueMem.allBlocks (done ++ [iv]) ++ structEntries.toList) := by
        rw [ValueMem.allBlocks_append, List.append_assoc]
        exact List.perm_append_comm_assoc _ _ _
      simp only [hok]
      rw [happend] at ih
      exact ih.perm hblocks (fun _ => .refl _) (.refl [])
    · -- The fields read so far go by their types, and the array that they are in.
      have hdelete := (deleteChrpcFieldsMem_frees doneTypes done
        (fun t _ => deleteChrpcInnerValueMem_frees t) hdone).andThenOk (Frees.ptr structEntries)
      simp only [hst]
      rw [← bind_assoc]
      exact hdelete.thenFail
    · simp only [hfault]

/-- **Reading a value** leaves its blocks, or none. -/
theorem chrpcInnerValueFromBufferMem_tracks (t : ChrpcType) : ∀ buf : Bytes,
    Tracks [] (chrpcInnerValueFromBufferMem t buf) (chrpcInnerValueFromBuffer t buf) SameValue
      (fun a => a.1.blocks) [] := by
  induction t using ChrpcType.induct with
  | prim p =>
    intro buf
    rw [chrpcInnerValueFromBufferMem, chrpcInnerValueFromBuffer]
    by_cases hp : hasLenPrefix (.prim p) = true
    · rw [if_pos hp, if_pos hp]
      exact chrpcBlockArrayInnerValueFromBufferMem_tracks _ buf
    · rw [if_neg hp, if_neg hp]
      exact chrpcNumericInnerValueFromBufferMem_tracks p buf
  | array cell ih =>
    intro buf
    rw [chrpcInnerValueFromBufferMem, chrpcInnerValueFromBuffer]
    by_cases hblock : chrpcTypeIsBlockable (.array cell) = true
    · rw [if_pos hblock, if_pos hblock]
      exact chrpcBlockArrayInnerValueFromBufferMem_tracks _ buf
    rw [if_neg hblock, if_neg hblock]
    by_cases hstr : isStringType cell = true
    · rw [if_pos hstr, if_pos hstr]
      exact chrpcStrArrayInnerValueFromBufferMem_tracks buf
    · rw [if_neg hstr, if_neg hstr]
      exact chrpcCmpArrayInnerValueFromBufferMem_tracks ih
        (fun _ _ _ h => chrpcInnerValueFromBuffer_sized h) (deleteChrpcInnerValueMem_frees cell) buf
  | struct fields ih =>
    intro buf
    rw [chrpcInnerValueFromBufferMem, chrpcInnerValueFromBuffer]
    refine Tracks.malloc fun structEntries => ?_
    have hloop := chrpcFieldsFromBufferMem_tracks structEntries buf fields ih [] [] 0 trivial
    rw [List.append_nil]
    refine hloop.bind ?_
    rintro ⟨ivs, bytesRead⟩ ⟨_, _⟩ - ⟨rfl, rfl⟩
    refine Tracks.malloc fun structIv => Tracks.ret ⟨rfl, rfl⟩ ?_
    rw [List.perm_iff_count]
    intro x
    simp only [ValueMem.blocks, List.count_append]
    omega

namespace ChrpcValueMem

def erase (v : ChrpcValueMem) : ChrpcValue := ⟨v.type.erase, v.value.erase⟩

/-- The blocks of a typed value. -/
def blocks (v : ChrpcValueMem) : List Nat := v.value.blocks ++ (v.type.blocks ++ v.cv.toList)

end ChrpcValueMem

/-- **Reading a typed value** leaves its blocks, or none. -/
theorem chrpcValueFromBufferMem_tracks (buf : Bytes) :
    Tracks [] (chrpcValueFromBufferMem buf) (chrpcValueFromBuffer buf)
      (fun a b => a.1.erase = b.1 ∧ a.2 = b.2) (fun a => a.1.blocks) [] := by
  rw [chrpcValueFromBufferMem, chrpcValueFromBuffer]
  refine (chrpcTypeFromBufferMem_tracks buf).bind ?_
  rintro ⟨ct, r⟩ ⟨_, _⟩ - ⟨rfl, rfl⟩
  refine Tracks.read (advance_ne_status buf r) fun b _ => ?_
  have hframe := (chrpcInnerValueFromBufferMem_tracks ct.erase b).frame ct.blocks
  rw [List.nil_append] at hframe
  refine Tracks.attempt_bind hframe (fun a c _ hsame => ?_) fun st => ?_
  · obtain ⟨iv, valReadden⟩ := a
    obtain ⟨_, _⟩ := c
    obtain ⟨rfl, rfl⟩ := hsame
    refine Tracks.malloc fun cv => Tracks.ret ⟨rfl, rfl⟩ ?_
    rw [List.perm_iff_count]
    intro x
    simp only [ChrpcValueMem.blocks, List.count_append]
    omega
  · exact (deleteChrpcTypeMem_frees ct).thenFail

/-- **Deleting a typed value frees its blocks.** -/
theorem deleteChrpcValueMem_frees {v : ChrpcValueMem} (h : v.value.erase.Sized v.type.erase) :
    Frees v.blocks (deleteChrpcValueMem v) (deleteChrpcValue v.erase) :=
  (deleteChrpcInnerValueMem_frees v.type.erase v.value h).andThenOk
    ((deleteChrpcTypeMem_frees v.type).thenFree v.cv)

/--
**A decode releases what it allocates.** Where it fails, with any status and at any depth, it has
freed each block that it allocated, once. Where it succeeds, `delete_chrpc_value` does.

A string cell that ends in NUL holds one, so the strings may be longer than what they are said to
be here. The strings of an array are freed without a look inside, they may be anything.
-/
theorem chrpcValueFromBuffer_releases {b : Bytes} (hnul : AllHoldNul (stringsIn b)) (m : Alloc) :
    (∃ st m', chrpcValueFromBuffer b = .error (.status st) ∧
      chrpcValueFromBufferMem b m = .error (.status st) m' ∧
      m'.mallocCount = m.mallocCount ∧ Released m m') ∨
    ∃ v r m' m'', chrpcValueFromBuffer b = .ok (v.erase, r) ∧
      chrpcValueFromBufferMem b m = .ok (v, r) m' ∧ deleteChrpcValueMem v m' = .ok () m'' ∧
      m''.mallocCount = m.mallocCount ∧ Released m m'' := by
  have hread := chrpcValueFromBufferMem_tracks b m
  rcases chrpcValueFromBuffer_cases hnul with ⟨v, r, hdec⟩ | ⟨st, -, hdec⟩
  · rw [hdec] at hread
    obtain ⟨⟨v', r'⟩, m', hrun, ⟨rfl, rfl⟩, hmoves⟩ := hread
    have hsized := ((chrpcValueCodec_dom v'.erase).mp (chrpcValueFromBuffer_eq_ok hdec).1).2
    -- The strings that are measured are those that the decoder read.
    have hdelete : deleteChrpcValue v'.erase = .ok () := by
      rw [stringsIn, (chrpcValueFromBuffer_eq_ok hdec).2.2] at hnul
      rw [deleteChrpcValue_eq hsized, measure, if_pos hnul]
    have hfrees := deleteChrpcValueMem_frees hsized m'
    rw [hdelete] at hfrees
    obtain ⟨m'', hdrun, hdmoves⟩ := hfrees
    have hall := hmoves.trans hdmoves
    exact .inr ⟨v', r', m', m'', hdec, hrun, hdrun, by simpa using hall.mallocCount, hall.released⟩
  · rw [hdec] at hread
    obtain ⟨m', hrun, hmoves⟩ := hread
    have hall := hmoves (by simp)
    exact .inl ⟨st, m', hdec, hrun, by simpa using hall.mallocCount, hall.released⟩

/-- A struct of a string and a byte, of which only the string is there. -/
theorem chrpcValueFromBuffer_releases_cut :
    ∃ st m', chrpcValueFromBufferMem
        [chrpcStructTid, 2, PrimType.string.tid, PrimType.byte.tid, 2, 0, 0, 0, 97, 0] ⟨0, []⟩
        = .error (.status st) m' ∧ m'.mallocCount = 0 ∧ Released ⟨0, []⟩ m' := by
  have hcut : chrpcValueFromBuffer
      [chrpcStructTid, 2, PrimType.string.tid, PrimType.byte.tid, 2, 0, 0, 0, 97, 0]
      = .error (.status chrpcUnexpectedEnd) := rfl
  have hnul : AllHoldNul (stringsIn
      [chrpcStructTid, 2, PrimType.string.tid, PrimType.byte.tid, 2, 0, 0, 0, 97, 0]) :=
    (by decide : AllHoldNul [[97, 0]])
  rcases chrpcValueFromBuffer_releases hnul ⟨0, []⟩ with ⟨st, m', -, hrun, hcount, hreleased⟩ | hok
  · exact ⟨st, m', hrun, hcount, hreleased⟩
  · obtain ⟨v, r, -, -, hdec, -⟩ := hok
    rw [hcut] at hdec
    exact absurd hdec (by simp)

end Chlibs.Serial

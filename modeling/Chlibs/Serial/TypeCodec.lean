import Chlibs.Serial.Type

/-!
# The type codec

`chrpcTypeToBuffer` writes the byte form of a type, and `chrpcTypeFromBuffer` reads
exactly the byte forms of well-formed types (`typeCodec`).
-/

namespace Chlibs.Serial

open Infra

/-! ## Comparing and copying -/

theorem tid_injective {p q : PrimType} (h : p.tid = q.tid) : p = q := by
  cases p <;> cases q <;> first | rfl | exact absurd h (by decide)

theorem chrpcFieldTypesEqual_iff : ∀ (ts us : List ChrpcType), ts.length = us.length →
    (∀ t ∈ ts, ∀ u, chrpcTypeEquals t u = true ↔ t = u) →
    (chrpcFieldTypesEqual ts us = true ↔ ts = us)
  | [], [], _, _ => by simp [chrpcFieldTypesEqual]
  | t :: ts, u :: us, hlen, h => by
    have ih := chrpcFieldTypesEqual_iff ts us (by simpa using hlen)
      (fun x hx => h x (List.mem_cons_of_mem _ hx))
    simp [chrpcFieldTypesEqual, h t List.mem_cons_self u, ih]

/-- **`chrpc_type_equals` is equality of type trees.** -/
@[simp] theorem chrpcTypeEquals_iff (t u : ChrpcType) : chrpcTypeEquals t u = true ↔ t = u := by
  induction t using ChrpcType.induct generalizing u with
  | prim p =>
    cases u <;> simp only [chrpcTypeEquals, beq_iff_eq, ChrpcType.prim.injEq, reduceCtorEq,
      Bool.false_eq_true]
    exact ⟨tid_injective, fun h => h ▸ rfl⟩
  | array c ih => cases u <;> simp [chrpcTypeEquals, ih]
  | struct fs ih =>
    cases u with
    | struct gs =>
      simp only [chrpcTypeEquals, Bool.and_eq_true, beq_iff_eq, ChrpcType.struct.injEq]
      constructor
      · rintro ⟨hlen, he⟩
        exact (chrpcFieldTypesEqual_iff fs gs hlen ih).mp he
      · rintro rfl
        exact ⟨rfl, (chrpcFieldTypesEqual_iff fs fs rfl ih).mpr rfl⟩
    | _ => simp [chrpcTypeEquals]

instance : DecidableEq ChrpcType := fun t u =>
  decidable_of_iff (chrpcTypeEquals t u = true) (chrpcTypeEquals_iff t u)

@[simp] theorem chrpcTypeEquals_eq_false (t u : ChrpcType) :
    chrpcTypeEquals t u = false ↔ t ≠ u := by
  rw [← Bool.not_eq_true, chrpcTypeEquals_iff]

/-! ## Writing -/

theorem chrpcFieldTypesToBuffer_fills (buf n : Nat) : ∀ (ts : List ChrpcType) (pos : Nat),
    pos ≤ n →
    (∀ t ∈ ts, ∀ buf n, Fills chrpcBufferTooSmall (chrpcTypeToBuffer t buf n) buf n t.bytes
      t.bytes.length) →
    Fills chrpcBufferTooSmall (chrpcFieldTypesToBuffer ts buf n pos) (buf + pos) (n - pos)
      (ChrpcType.fieldBytes ts) (pos + (ChrpcType.fieldBytes ts).length)
  | [], pos, _, _ => Fills.pure pos
  | t :: ts, pos, hpos, h => by
    rw [chrpcFieldTypesToBuffer, remaining_of_le hpos, pure_bind, ChrpcType.fieldBytes]
    refine Fills.bind (h t List.mem_cons_self _ _) fun hfit => ?_
    have ih := chrpcFieldTypesToBuffer_fills buf n ts (pos + t.bytes.length) (by omega)
      (fun x hx => h x (List.mem_cons_of_mem _ hx))
    rw [List.length_append]
    simpa only [Nat.add_assoc, Nat.sub_sub] using ih

/-- **`chrpc_type_to_buffer` fits exactly.** It writes the byte form or reports the lack of room. -/
theorem chrpcTypeToBuffer_fills (t : ChrpcType) (buf n : Nat) :
    Fills chrpcBufferTooSmall (chrpcTypeToBuffer t buf n) buf n t.bytes t.bytes.length := by
  induction t using ChrpcType.induct generalizing buf n with
  | prim p =>
    rw [chrpcTypeToBuffer, ChrpcType.bytes]
    refine Fills.failIf (by simp) fun hn => ?_
    have hroom : [p.tid].length ≤ n := by simp; omega
    exact (Fills.store hroom).map fun _ => 1
  | array cell ih =>
    rw [chrpcTypeToBuffer, ChrpcType.bytes]
    refine Fills.failIf (by simp; omega) fun hn => ?_
    refine Fills.bind (e := [chrpcArrayTid]) (Fills.store (by simp; omega)) fun _ => ?_
    rw [remaining_of_le (by omega), pure_bind]
    exact (ih (buf + 1) (n - 1)).map fun w => w + 1
  | struct fields ih =>
    rw [chrpcTypeToBuffer, ChrpcType.bytes]
    refine Fills.failIf (by simp; omega) fun _ => Fills.failIf (by simp; omega) fun hn => ?_
    refine Fills.bind (e := [chrpcStructTid]) (Fills.store (by simp; omega)) fun _ => ?_
    refine Fills.bind (e := [UInt8.ofNat fields.length]) (Fills.store (by simp; omega)) fun _ => ?_
    have hlen : (chrpcStructTid :: UInt8.ofNat fields.length
        :: ChrpcType.fieldBytes fields).length = 2 + (ChrpcType.fieldBytes fields).length := by
      simp; omega
    rw [hlen]
    exact chrpcFieldTypesToBuffer_fills buf n fields 2 (by omega) ih

/-! ## Reading what was written -/

theorem newChrpcPrimitiveTypeFromId_tid (p : PrimType) :
    newChrpcPrimitiveTypeFromId p.tid = some (.prim p) := by
  cases p <;> rfl

theorem newChrpcPrimitiveTypeFromId_eq_some {tid : UInt8} {t : ChrpcType}
    (h : newChrpcPrimitiveTypeFromId tid = some t) : ∃ p : PrimType, t = .prim p ∧ tid = p.tid := by
  by_cases hp : ∃ p : PrimType, tid = p.tid
  · obtain ⟨p, rfl⟩ := hp
    rw [newChrpcPrimitiveTypeFromId_tid, Option.some.injEq] at h
    exact ⟨p, h.symm, rfl⟩
  · -- None of the tests of the source succeeds.
    have hne : ∀ p : PrimType, ¬tid = p.tid := not_exists.mp hp
    have hnone : newChrpcPrimitiveTypeFromId tid = none :=
      (if_neg (hne .byte)).trans <| (if_neg (hne .int16)).trans <| (if_neg (hne .int32)).trans <|
      (if_neg (hne .int64)).trans <| (if_neg (hne .uint16)).trans <|
      (if_neg (hne .uint32)).trans <| (if_neg (hne .uint64)).trans <|
      (if_neg (hne .float32)).trans <| (if_neg (hne .float64)).trans <| if_neg (hne .string)
    rw [hnone] at h
    cases h

theorem toNat_ofNat_numFields {fields : List ChrpcType}
    (h : fields.length ≤ chrpcMaxStructFields) :
    (UInt8.ofNat fields.length).toNat = fields.length := by
  have : fields.length < 256 := by simp only [chrpcMaxStructFields] at h; omega
  simp [Nat.mod_eq_of_lt this]

/-- The loop reads the fields back when `rec` reads each of them back. -/
theorem chrpcFieldTypesFromBuffer_append {rec : Bytes → SRes (ChrpcType × Nat)} (buf : Bytes) :
    ∀ (ts : List ChrpcType) (pos : Nat) (rest : Bytes), pos ≤ buf.length →
      (∀ t ∈ ts, ∀ rest, rec (t.bytes ++ rest) = .ok (t, t.bytes.length)) →
      buf.drop pos = ChrpcType.fieldBytes ts ++ rest →
      chrpcFieldTypesFromBuffer rec buf ts.length pos
        = .ok (ts, pos + (ChrpcType.fieldBytes ts).length)
  | [], _, _, _, _, _ => rfl
  | t :: ts, pos, rest, hpos, hrec, hbuf => by
    rw [ChrpcType.fieldBytes, List.append_assoc] at hbuf
    have hlen : buf.length - pos = t.bytes.length + (ChrpcType.fieldBytes ts ++ rest).length := by
      rw [← List.length_drop, hbuf, List.length_append]
    have hdrop : buf.drop (pos + t.bytes.length) = ChrpcType.fieldBytes ts ++ rest := by
      rw [← List.drop_drop, hbuf, List.drop_left]
    have ih := chrpcFieldTypesFromBuffer_append buf ts (pos + t.bytes.length) rest (by omega)
      (fun x hx => hrec x (List.mem_cons_of_mem _ hx)) hdrop
    simp only [List.length_cons, chrpcFieldTypesFromBuffer, advance_of_le hpos, hbuf,
      hrec t List.mem_cons_self, ih, ChrpcType.fieldBytes, List.length_append, Nat.add_assoc,
      Bind.bind, Except.bind]

theorem chrpcTypeFromBufferDepth_append (t : ChrpcType) (hwf : t.WellFormed) :
    ∀ (depth : Nat), t.bytes.length ≤ depth → ∀ rest : Bytes,
      chrpcTypeFromBufferDepth depth (t.bytes ++ rest) = .ok (t, t.bytes.length) := by
  induction t using ChrpcType.induct with
  | prim p =>
    intro depth hd rest
    obtain ⟨d, rfl⟩ : ∃ d, depth = d + 1 := ⟨depth - 1, by simp [ChrpcType.bytes] at hd; omega⟩
    simp [ChrpcType.bytes, chrpcTypeFromBufferDepth, newChrpcPrimitiveTypeFromId_tid]
  | array cell ih =>
    intro depth hd rest
    simp only [ChrpcType.bytes, List.length_cons] at hd
    obtain ⟨d, rfl⟩ : ∃ d, depth = d + 1 := ⟨depth - 1, by omega⟩
    have hrec := ih (by simpa [ChrpcType.WellFormed] using hwf) d (by omega) rest
    simp [ChrpcType.bytes, chrpcTypeFromBufferDepth, hrec, Bind.bind, Except.bind,
      show newChrpcPrimitiveTypeFromId chrpcArrayTid = none from rfl, Nat.add_comm]
  | struct fields ih =>
    intro depth hd rest
    simp only [ChrpcType.bytes, List.length_cons] at hd
    obtain ⟨d, rfl⟩ : ∃ d, depth = d + 1 := ⟨depth - 1, by omega⟩
    obtain ⟨hmin, hmax, hall⟩ := by simpa [ChrpcType.WellFormed] using hwf
    have hnum := toNat_ofNat_numFields hmax
    have hrec : ∀ t ∈ fields, ∀ rest,
        chrpcTypeFromBufferDepth d (t.bytes ++ rest) = .ok (t, t.bytes.length) := by
      intro t ht rest
      have hle : t.bytes.length ≤ (ChrpcType.fieldBytes fields).length := by
        clear ih hd hwf hmin hmax hall hnum
        induction fields with
        | nil => simp at ht
        | cons x xs ihx =>
          rw [ChrpcType.fieldBytes, List.length_append]
          rcases List.mem_cons.mp ht with rfl | hx
          · omega
          · have := ihx hx; omega
      exact ih t ht ((ChrpcType.allWellFormed_iff fields).mp hall t ht) d (by omega) rest
    have hloop := chrpcFieldTypesFromBuffer_append
      (chrpcStructTid :: UInt8.ofNat fields.length :: (ChrpcType.fieldBytes fields ++ rest))
      fields 2 rest (by simp) hrec rfl
    simp only [ChrpcType.bytes, List.cons_append, chrpcTypeFromBufferDepth,
      show newChrpcPrimitiveTypeFromId chrpcStructTid = none from rfl,
      show ¬chrpcStructTid = chrpcArrayTid by decide, reduceIte, hnum,
      show ¬fields.length < 1 by omega, show ¬chrpcMaxStructFields < fields.length by omega,
      hloop, Bind.bind, Except.bind, List.length_cons]
    congr 2
    omega

/-! ## The statuses of a failed read -/

/-- The statuses the decoders report. -/
def DecodeError (st : ChrpcStatus) : Prop :=
  st = chrpcSyntaxError ∨ st = chrpcUnexpectedEnd ∨ st = chrpcEmptyStructType ∨
    st = chrpcStructTypeTooLarge

theorem DecodeError.ne {st : ChrpcStatus} (h : DecodeError st) :
    st ≠ chrpcSuccess ∧ st ≠ chrpcBadResponse := by
  rcases h with rfl | rfl | rfl | rfl <;> decide

/-! ## Reading only what could be written -/

/-- **The first byte decides** what a read of a type does, and with it the number of fields. -/
theorem chrpcTypeFromBufferDepth_cases (depth : Nat) (tid : UInt8) (rest : Bytes) :
    (∃ p : PrimType, tid = p.tid ∧
      chrpcTypeFromBufferDepth (depth + 1) (tid :: rest) = .ok (.prim p, 1)) ∨
    (tid = chrpcArrayTid ∧ chrpcTypeFromBufferDepth (depth + 1) (tid :: rest)
      = (chrpcTypeFromBufferDepth depth rest).map fun x => (.array x.1, 1 + x.2)) ∨
    (∃ numFields rest', tid = chrpcStructTid ∧ rest = numFields :: rest' ∧
      1 ≤ numFields.toNat ∧ numFields.toNat ≤ chrpcMaxStructFields ∧
      chrpcTypeFromBufferDepth (depth + 1) (tid :: rest)
        = (chrpcFieldTypesFromBuffer (chrpcTypeFromBufferDepth depth) (tid :: rest)
          numFields.toNat 2).map fun x => (.struct x.1, x.2)) ∨
    ∃ st, chrpcTypeFromBufferDepth (depth + 1) (tid :: rest) = .error (.status st) ∧
      DecodeError st := by
  simp only [chrpcTypeFromBufferDepth]
  cases hprim : newChrpcPrimitiveTypeFromId tid with
  | some t =>
    obtain ⟨p, rfl, hp⟩ := newChrpcPrimitiveTypeFromId_eq_some hprim
    exact .inl ⟨p, hp, rfl⟩
  | none =>
    dsimp only
    by_cases harray : tid = chrpcArrayTid
    · rw [if_pos harray, advance_of_le (Nat.succ_le_succ (Nat.zero_le _))]
      refine .inr (.inl ⟨harray, ?_⟩)
      simp only [List.drop_one, List.tail_cons, Bind.bind, Except.bind]
      cases chrpcTypeFromBufferDepth depth rest <;> rfl
    rw [if_neg harray]
    by_cases hstruct : tid = chrpcStructTid
    · rw [if_pos hstruct]
      cases rest with
      | nil => exact .inr (.inr (.inr ⟨_, rfl, .inr (.inl rfl)⟩))
      | cons numFields rest' =>
        dsimp only
        by_cases hmin : numFields.toNat < 1
        · rw [if_pos hmin]
          exact .inr (.inr (.inr ⟨_, rfl, .inr (.inr (.inl rfl))⟩))
        by_cases hmax : chrpcMaxStructFields < numFields.toNat
        · rw [if_neg hmin, if_pos hmax]
          exact .inr (.inr (.inr ⟨_, rfl, .inr (.inr (.inr rfl))⟩))
        refine .inr (.inr (.inl ⟨numFields, rest', hstruct, rfl, not_lt.mp hmin, not_lt.mp hmax, ?_⟩))
        rw [if_neg hmin, if_neg hmax]
        cases chrpcFieldTypesFromBuffer (chrpcTypeFromBufferDepth depth)
          (tid :: numFields :: rest') numFields.toNat 2 <;> rfl
    · rw [if_neg hstruct]
      exact .inr (.inr (.inr ⟨_, rfl, .inl rfl⟩))

theorem chrpcFieldTypesFromBuffer_ok {rec : Bytes → SRes (ChrpcType × Nat)} (buf : Bytes)
    (hrec : ∀ b t r, rec b = .ok (t, r) →
      t.WellFormed ∧ r = t.bytes.length ∧ ∃ rest, b = t.bytes ++ rest) :
    ∀ (n pos : Nat) (ts : List ChrpcType) (r : Nat),
      chrpcFieldTypesFromBuffer rec buf n pos = .ok (ts, r) → pos ≤ buf.length →
      ts.length = n ∧ (∀ t ∈ ts, t.WellFormed) ∧
        r = pos + (ChrpcType.fieldBytes ts).length ∧
        ∃ rest, buf.drop pos = ChrpcType.fieldBytes ts ++ rest
  | 0, pos, ts, r, h, _ => by
    simp only [chrpcFieldTypesFromBuffer, Except.ok.injEq, Prod.mk.injEq] at h
    obtain ⟨rfl, rfl⟩ := h
    exact ⟨rfl, by simp, rfl, buf.drop pos, rfl⟩
  | n + 1, pos, ts, r, h, hpos => by
    rw [chrpcFieldTypesFromBuffer, advance_of_le hpos] at h
    cases h1 : rec (buf.drop pos) with
    | error e => simp [h1, Bind.bind, Except.bind] at h
    | ok x =>
      obtain ⟨t, r1⟩ := x
      obtain ⟨hwf, rfl, rest1, hb⟩ := hrec _ _ _ h1
      have hlen : buf.length - pos = t.bytes.length + rest1.length := by
        rw [← List.length_drop, hb, List.length_append]
      cases h2 : chrpcFieldTypesFromBuffer rec buf n (pos + t.bytes.length) with
      | error e => simp [h1, h2, Bind.bind, Except.bind] at h
      | ok y =>
        obtain ⟨ts', r'⟩ := y
        simp only [h1, h2, Bind.bind, Except.bind, Except.ok.injEq, Prod.mk.injEq] at h
        obtain ⟨rfl, rfl⟩ := h
        obtain ⟨hl, hall, rfl, rest2, hb2⟩ :=
          chrpcFieldTypesFromBuffer_ok buf hrec n _ ts' r' h2 (by omega)
        refine ⟨by simp [hl], ?_, ?_, rest2, ?_⟩
        · exact List.forall_mem_cons.mpr ⟨hwf, hall⟩
        · rw [ChrpcType.fieldBytes, List.length_append, Nat.add_assoc]
        · rw [ChrpcType.fieldBytes, List.append_assoc, ← hb2, ← List.drop_drop, hb, List.drop_left]

theorem chrpcTypeFromBufferDepth_ok : ∀ (depth : Nat) (b : Bytes) (t : ChrpcType) (r : Nat),
    chrpcTypeFromBufferDepth depth b = .ok (t, r) →
    t.WellFormed ∧ r = t.bytes.length ∧ ∃ rest, b = t.bytes ++ rest
  | 0, b, t, r, h => by simp [chrpcTypeFromBufferDepth] at h
  | depth + 1, [], t, r, h => by simp [chrpcTypeFromBufferDepth] at h
  | depth + 1, tid :: rest, t, r, h => by
    have ih := chrpcTypeFromBufferDepth_ok depth
    rcases chrpcTypeFromBufferDepth_cases depth tid rest with ⟨p, rfl, hprim⟩ | ⟨rfl, harray⟩ |
      ⟨numFields, rest', rfl, rfl, hmin, hmax, hstruct⟩ | ⟨st, herror, -⟩
    · rw [hprim] at h
      cases h
      exact ⟨trivial, rfl, rest, rfl⟩
    · rw [harray] at h
      cases hcell : chrpcTypeFromBufferDepth depth rest with
      | error e =>
        rw [hcell] at h
        cases h
      | ok x =>
        obtain ⟨hwf, hr, rest', rfl⟩ := ih rest x.1 x.2 hcell
        rw [hcell] at h
        cases h
        refine ⟨by simpa [ChrpcType.WellFormed] using hwf, ?_, rest', rfl⟩
        rw [hr, ChrpcType.bytes, List.length_cons, Nat.add_comm]
    · rw [hstruct] at h
      cases hfields : chrpcFieldTypesFromBuffer (chrpcTypeFromBufferDepth depth)
          (chrpcStructTid :: numFields :: rest') numFields.toNat 2 with
      | error e =>
        rw [hfields] at h
        cases h
      | ok x =>
        obtain ⟨hnum, hall, hr, rest₂, hb⟩ :=
          chrpcFieldTypesFromBuffer_ok _ ih _ _ x.1 x.2 hfields (by simp)
        rw [hfields] at h
        cases h
        have hrest : rest' = ChrpcType.fieldBytes x.1 ++ rest₂ := by simpa using hb
        refine ⟨?_, ?_, rest₂, ?_⟩
        · rw [ChrpcType.WellFormed, ChrpcType.allWellFormed_iff]
          exact ⟨by omega, by omega, hall⟩
        · rw [hr, ChrpcType.bytes, List.length_cons, List.length_cons]
          omega
        · rw [ChrpcType.bytes, hnum, hrest, UInt8.ofNat_toNat]
          rfl
    · rw [herror] at h
      cases h

/-! ## A read always ends -/

/-- A read that ends in a value or in one of these statuses. -/
def Settled {α : Type} (r : SRes α) : Prop :=
  (∃ a, r = .ok a) ∨ ∃ st, r = .error (.status st) ∧ DecodeError st

theorem Settled.map {α β : Type} {r : SRes α} (h : Settled r) (f : α → β) :
    Settled (r.map f) := by
  rcases h with ⟨a, rfl⟩ | ⟨st, rfl, hst⟩
  · exact .inl ⟨f a, rfl⟩
  · exact .inr ⟨st, rfl, hst⟩

theorem chrpcFieldTypesFromBuffer_settled {rec : Bytes → SRes (ChrpcType × Nat)} (buf : Bytes)
    (hok : ∀ b t r, rec b = .ok (t, r) →
      t.WellFormed ∧ r = t.bytes.length ∧ ∃ rest, b = t.bytes ++ rest) :
    ∀ (n pos : Nat), pos ≤ buf.length → (∀ q, pos ≤ q → Settled (rec (buf.drop q))) →
      Settled (chrpcFieldTypesFromBuffer rec buf n pos)
  | 0, _, _, _ => Or.inl ⟨_, rfl⟩
  | n + 1, pos, hpos, hrec => by
    rw [chrpcFieldTypesFromBuffer, advance_of_le hpos]
    rcases hrec pos (Nat.le_refl pos) with ⟨⟨t, r⟩, h1⟩ | ⟨st, h1, hst⟩
    · obtain ⟨-, rfl, rest, hb⟩ := hok _ _ _ h1
      have hlen : buf.length - pos = t.bytes.length + rest.length := by
        rw [← List.length_drop, hb, List.length_append]
      rcases chrpcFieldTypesFromBuffer_settled buf hok n (pos + t.bytes.length) (by omega)
        (fun q hq => hrec q (by omega)) with ⟨y, h2⟩ | ⟨st, h2, hst⟩
      · exact Or.inl ⟨(t :: y.1, y.2), by simp only [h1, h2, Bind.bind, Except.bind]⟩
      · exact Or.inr ⟨st, by simp only [h1, h2, Bind.bind, Except.bind], hst⟩
    · exact Or.inr ⟨st, by simp only [h1, Bind.bind, Except.bind], hst⟩

theorem chrpcTypeFromBufferDepth_settled : ∀ (depth : Nat) (b : Bytes), b.length < depth →
    Settled (chrpcTypeFromBufferDepth depth b)
  | depth + 1, [], _ => Or.inr ⟨_, rfl, Or.inr (Or.inl rfl)⟩
  | depth + 1, tid :: rest, hlen => by
    have ih := chrpcTypeFromBufferDepth_settled depth
    rw [List.length_cons] at hlen
    rcases chrpcTypeFromBufferDepth_cases depth tid rest with ⟨p, -, hprim⟩ | ⟨-, harray⟩ |
      ⟨numFields, rest', -, rfl, -, -, hstruct⟩ | ⟨st, herror, hst⟩
    · exact .inl ⟨_, hprim⟩
    · rw [harray]
      exact (ih rest (by omega)).map _
    · rw [hstruct]
      rw [List.length_cons] at hlen
      refine Settled.map (chrpcFieldTypesFromBuffer_settled _ (chrpcTypeFromBufferDepth_ok depth)
        _ 2 (by simp) fun q hq => ih _ ?_) _
      rw [List.length_drop, List.length_cons, List.length_cons]
      omega
    · exact .inr ⟨st, herror, hst⟩

/-- **Reading a type never runs out of depth.** It gives a type or a decoder status. -/
theorem chrpcTypeFromBuffer_settled (b : Bytes) : Settled (chrpcTypeFromBuffer b) :=
  chrpcTypeFromBufferDepth_settled _ b (Nat.lt_succ_self _)

/-! ## The codec -/

/-- The byte forms of well-formed types, as `chrpc_type_from_buffer` reads them. -/
def typeCodec : Codec ChrpcType where
  write t := t.bytes
  dom t := t.WellFormed
  read b :=
    match chrpcTypeFromBuffer b with
    | .ok (t, readden) => some (t, b.drop readden)
    | .error _ => none
  read_write := by
    intro t h rest
    rw [chrpcTypeFromBuffer, chrpcTypeFromBufferDepth_append t h _ (by simp; omega)]
    simp
  write_read := by
    intro b t rest h
    split at h
    · next t' r hr =>
      obtain ⟨hwf, rfl, rest', rfl⟩ := chrpcTypeFromBufferDepth_ok _ _ _ _ hr
      simp only [List.drop_left, Option.some.injEq, Prod.mk.injEq] at h
      obtain ⟨rfl, rfl⟩ := h
      exact ⟨hwf, rfl⟩
    · simp at h

theorem typeCodec_read_eq_some {b : Bytes} {t : ChrpcType} {rest : Bytes}
    (h : typeCodec.read b = some (t, rest)) :
    chrpcTypeFromBuffer b = .ok (t, t.bytes.length) := by
  obtain ⟨hwf, rfl⟩ := typeCodec.write_read h
  exact chrpcTypeFromBufferDepth_append t hwf _ (by simp [typeCodec]; omega) rest

theorem chrpcTypeFromBuffer_eq_ok {b : Bytes} {t : ChrpcType} {r : Nat}
    (h : chrpcTypeFromBuffer b = .ok (t, r)) :
    r = t.bytes.length ∧ typeCodec.read b = some (t, b.drop r) := by
  obtain ⟨-, hr, -⟩ := chrpcTypeFromBufferDepth_ok _ _ _ _ h
  exact ⟨hr, by simp [typeCodec, h]⟩

theorem typeCodec_read_eq_none {b : Bytes} (h : typeCodec.read b = none) :
    ∃ st, chrpcTypeFromBuffer b = .error (.status st) ∧ DecodeError st := by
  rcases chrpcTypeFromBuffer_settled b with ⟨⟨t, r⟩, h1⟩ | h1
  · simp [typeCodec, h1] at h
  · exact h1

end Chlibs.Serial

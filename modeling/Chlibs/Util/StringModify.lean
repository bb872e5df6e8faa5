import Chlibs.Util.StringSharing

/-!
# Changing one string

* `Released` — a reference that is given back, with the block if it was the last one.
* `Prepared` — after `s_prepare_modify` the string has a buffer of its own, with room and with
  its text, and every other string has the text it had.
* `Modified` — the string has a new text, and every other string the text it had.
-/

namespace Chlibs.Util

open Infra

variable {m m' : StringMem} {texts : Texts} {held : List StringT}

/-! ## References that are given back -/

/-- A reference is gone, and so is its block if it was the last one. -/
structure Released (m m' : StringMem) (texts : Texts) (held : List StringT) (x : StringT) :
    Prop where
  inv : StringsInv m' texts held
  text_kept : ∀ {y v}, refs m held y ≠ 0 → HasText m y v → HasText m' y v
  shared_kept : ∀ ss, x ≠ .shared ss → m'.sharedStrings.load ss = m.sharedStrings.load ss
  chars_kept : ∀ {c cs}, m.chars.load c = some cs →
    (∀ ss b, x = .shared ss → m.sharedStrings.load ss = some b → b.buf = c → 1 < b.refCount) →
    m'.chars.load c = some cs

/-- One reference less. -/
theorem refs_cons (m : StringMem) (held : List StringT) (x y : StringT) :
    refs m (x :: held) y = refs m held y + if x = y then 1 else 0 := by
  rw [refs, List.count_cons, refs, Nat.add_assoc]
  simp

theorem refs_cons_self (m : StringMem) (held : List StringT) (x : StringT) :
    refs m (x :: held) x = refs m held x + 1 := by
  rw [refs_cons, if_pos rfl]

theorem refs_cons_of_ne (m : StringMem) (held : List StringT) {x y : StringT} (h : y ≠ x) :
    refs m (x :: held) y = refs m held y := by
  rw [refs_cons, if_neg (Ne.symm h), Nat.add_zero]

theorem releaseRef_literal_eq {sl : Nat} {l : SharedLiteral}
    (hl : m.sharedLiterals.load sl = some l) :
    ∃ lits, releaseRef m (.literal sl) = some { m with sharedLiterals := lits } ∧
      ∀ a, lits.load a =
        if a = sl then
          if l.refCount - 1 = 0 then none else some { l with refCount := l.refCount - 1 }
        else m.sharedLiterals.load a := by
  have hput := Heap.load_put hl (some { l with refCount := l.refCount - 1 })
  have hself := Heap.load_put_self hl (some { l with refCount := l.refCount - 1 })
  simp only [releaseRef, hl, Option.bind_eq_bind, Option.bind_some, StringMem.storeLiteral,
    Heap.store_eq hl, StringMem.freeLiteral, Heap.free_eq hself]
  by_cases hzero : l.refCount - 1 = 0
  · refine ⟨_, if_pos hzero, fun a => ?_⟩
    rw [Heap.load_put hself, hput, if_pos hzero]
    split <;> rfl
  · refine ⟨_, if_neg hzero, fun a => ?_⟩
    rw [hput, if_neg hzero]

theorem releaseRef_literal {sl : Nat} (h : StringsInv m texts (.literal sl :: held)) :
    ∃ m', releaseRef m (.literal sl) = some m' ∧ m'.strings = m.strings ∧
      Released m m' texts held (.literal sl) := by
  have hcounted := h.counted (.literal sl)
  rw [refs_cons_self, if_neg (Nat.succ_ne_zero _), refCountOf] at hcounted
  obtain ⟨l, hl, hcount⟩ := Option.map_eq_some_iff.mp hcounted
  obtain ⟨w, hw⟩ := h.exists_text (by rw [refs_cons_self]; exact Nat.succ_ne_zero _)
  obtain ⟨htext, hlen⟩ : m.cstr l.literal = some w ∧ l.len = w.length := by
    cases hw with
    | literal hl' htext hlen =>
      rw [hl, Option.some.injEq] at hl'
      subst hl'
      exact ⟨htext, hlen⟩
  have hsource := h.literal_text hl
  obtain ⟨lits, heq, hload⟩ := releaseRef_literal_eq hl
  rw [hcount, Nat.add_sub_cancel] at hload
  -- The literal is kept as long as there is another reference to it.
  have hself : ∀ l', lits.load sl = some l' → refs m held (.literal sl) ≠ 0 ∧
      l' = { l with refCount := refs m held (.literal sl) } := by
    intro l' hl'
    rw [hload, if_pos rfl] at hl'
    split at hl'
    · cases hl'
    · next hne => exact ⟨hne, (Option.some.inj hl').symm⟩
  obtain ⟨hinv, hkept⟩ := h.changeLiteral held lits sl
    (fun a ha => by rw [hload, if_neg ha])
    (fun l' hl' => by
      rw [(hself l' hl').2]
      exact ⟨⟨w, htext, hlen⟩, hsource⟩)
    (by
      rw [hload, if_pos rfl]
      split <;> rfl)
    fun x hx => (refs_cons_of_ne m held hx).symm
  refine ⟨_, heq, rfl, hinv, ?_, fun _ _ => rfl, fun hc _ => hc⟩
  intro y v hy hv
  by_cases hsl : y = .literal sl
  · subst hsl
    rw [hv.unique hw]
    refine .literal (l := { l with refCount := refs m held (.literal sl) }) ?_ htext hlen
    show lits.load sl = _
    rw [hload, if_pos rfl, if_neg hy]
  · exact hkept y v hsl hv

theorem releaseRef_shared_eq {ss : Nat} {b : SharedString} {w : Bytes}
    (hb : m.sharedStrings.load ss = some b) (hw : HasText m (.shared ss) w) :
    ∃ m', releaseRef m (.shared ss) = some m' ∧
      if b.refCount - 1 = 0 then
        ∃ v, BlockChange m m' ss (some b) none v
      else m'.chars = m.chars ∧
        BlockChange m m' ss (some b) (some { b with refCount := b.refCount - 1 }) w := by
  have hput := Heap.load_put hb (some { b with refCount := b.refCount - 1 })
  have hself := Heap.load_put_self hb (some { b with refCount := b.refCount - 1 })
  obtain ⟨cs, hcs⟩ : ∃ cs, m.chars.load b.buf = some cs := by
    cases hw with
    | shared hb' hbuf _ _ =>
      rw [hb, Option.some.injEq] at hb'
      exact ⟨_, hb' ▸ hbuf⟩
  simp only [releaseRef, hb, Option.bind_eq_bind, Option.bind_some, StringMem.storeShared,
    Heap.store_eq hb, StringMem.freeChars, Heap.free_eq hcs, StringMem.freeShared,
    Heap.free_eq hself]
  by_cases hzero : b.refCount - 1 = 0
  · rw [if_pos hzero]
    refine ⟨_, rfl, ?_⟩
    rw [if_pos hzero]
    refine ⟨[], .free hb hcs fun a => ?_⟩
    rw [Heap.load_put hself, hput]
    split <;> rfl
  · rw [if_neg hzero]
    refine ⟨_, rfl, ?_⟩
    rw [if_neg hzero]
    exact ⟨rfl, .count hb hw _⟩

theorem releaseRef_shared {ss : Nat} (h : StringsInv m texts (.shared ss :: held)) :
    ∃ m', releaseRef m (.shared ss) = some m' ∧ m'.strings = m.strings ∧
      Released m m' texts held (.shared ss) := by
  have hcounted := h.counted (.shared ss)
  rw [refs_cons_self, if_neg (Nat.succ_ne_zero _), refCountOf] at hcounted
  obtain ⟨b, hb, hcount⟩ := Option.map_eq_some_iff.mp hcounted
  obtain ⟨w, hw⟩ := h.exists_text (by rw [refs_cons_self]; exact Nat.succ_ne_zero _)
  obtain ⟨m', heq, hchange⟩ := releaseRef_shared_eq hb hw
  rw [hcount, Nat.add_sub_cancel] at hchange
  have hother : ∀ x, x ≠ .shared ss → refs m held x = refs m (.shared ss :: held) x :=
    fun x hx => (refs_cons_of_ne m held hx).symm
  refine ⟨m', heq, ?_⟩
  -- The last reference frees the buffer; any other one only counts.
  by_cases hzero : refs m held (.shared ss) = 0
  · rw [if_pos hzero] at hchange
    obtain ⟨v, hchange⟩ := hchange
    refine ⟨hchange.strings, h.change hchange (by rw [if_pos hzero]; rfl) hother, ?_, ?_, ?_⟩
    · intro y v hy hv
      exact hchange.text_kept h (fun hss => hy (hss ▸ hzero)) hv
    · intro a ha
      exact hchange.load_of_ne fun hss => ha (by rw [hss])
    · intro c cs hc hne
      refine (hchange.chars_kept hc fun b' hb' hbuf => ?_).2
      cases hb'
      have := hne ss b rfl hb hbuf.symm
      omega
  · rw [if_neg hzero] at hchange
    obtain ⟨hchars, hchange⟩ := hchange
    refine ⟨hchange.strings, h.change hchange (by rw [if_neg hzero]; rfl) hother, ?_, ?_, ?_⟩
    · intro y v hy hv
      by_cases hss : y = .shared ss
      · subst hss
        rw [hv.unique hw]
        exact hchange.hasText rfl
      · exact hchange.text_kept h hss hv
    · intro a ha
      exact hchange.load_of_ne fun hss => ha (by rw [hss])
    · intro c cs hc _
      rw [hchars, hc]

/-- **A held reference is released.** -/
theorem releaseRef_spec {x : StringT} (h : StringsInv m texts (x :: held)) :
    ∃ m', releaseRef m x = some m' ∧ m'.strings = m.strings ∧ Released m m' texts held x := by
  cases x with
  | literal sl => exact releaseRef_literal h
  | shared ss => exact releaseRef_shared h

/-- What a string holds does not matter to the blocks. -/
theorem releaseRef_strings (m : StringMem) (strings : Heap StringT) (x : StringT) :
    releaseRef { m with strings := strings } x =
      (releaseRef m x).map fun m' => { m' with strings := strings } := by
  cases x with
  | literal sl =>
    simp only [releaseRef, StringMem.storeLiteral, StringMem.freeLiteral, Option.bind_eq_bind]
    cases m.sharedLiterals.load sl with
    | none => rfl
    | some l =>
      simp only [Option.bind_some]
      cases m.sharedLiterals.store sl { l with refCount := l.refCount - 1 } with
      | none => rfl
      | some lits =>
        simp only [Option.bind_some]
        split
        · cases lits.free sl <;> rfl
        · rfl
  | shared ss =>
    simp only [releaseRef, StringMem.storeShared, StringMem.freeChars, StringMem.freeShared,
      Option.bind_eq_bind]
    cases m.sharedStrings.load ss with
    | none => rfl
    | some b =>
      simp only [Option.bind_some]
      cases m.sharedStrings.store ss { b with refCount := b.refCount - 1 } with
      | none => rfl
      | some structs =>
        simp only [Option.bind_some]
        split
        · cases m.chars.free b.buf with
          | none => rfl
          | some chars =>
            simp only [Option.bind_some]
            cases structs.free ss <;> rfl
        · rfl

theorem HasText.strings {x : StringT} {w : Bytes} (h : HasText m x w) (strings : Heap StringT) :
    HasText { m with strings := strings } x w :=
  h.congr (fun _ _ => rfl) (fun _ _ => rfl) (fun _ _ hcs => hcs) fun _ _ hcs => hcs

/-- **A string that lets go of its block**, when its cell gets other content afterwards. -/
theorem sReleaseShared_spec {s : Nat} {x : StringT} (hs : m.strings.load s = some x)
    {strings : Heap StringT}
    (h : StringsInv { m with strings := strings } texts (x :: held)) :
    ∃ m', sReleaseShared m s = some m' ∧ m'.strings = m.strings ∧
      Released { m with strings := strings } { m' with strings := strings } texts held x := by
  obtain ⟨m₂, hrelease, -, hreleased⟩ := releaseRef_spec h
  rw [releaseRef_strings] at hrelease
  obtain ⟨m', hm', rfl⟩ := Option.map_eq_some_iff.mp hrelease
  have hsame := releaseRef_strings m m.strings x
  refine ⟨m', ?_, ?_, hreleased⟩
  · simp only [sReleaseShared, hs, Option.bind_eq_bind, Option.bind_some, hm']
  · rw [show releaseRef { m with strings := m.strings } x = releaseRef m x from rfl, hm',
      Option.map_some, Option.some.injEq] at hsame
    rw [hsame]

/-! ## Reading -/

theorem sLen_eq {s : Nat} {x : StringT} {w : Bytes} (hs : m.strings.load s = some x)
    (hx : HasText m x w) : sLen m s = some w.length := by
  cases hx with
  | literal hl _ hlen =>
    simp only [sLen, hs, Option.bind_eq_bind, Option.bind_some, hl, Option.map_some, hlen]
  | shared hb _ hlen _ =>
    simp only [sLen, hs, Option.bind_eq_bind, Option.bind_some, hb, Option.map_some, hlen]

/-- The text is in the block that `s_get_cstr` points to, and a NUL ends it. -/
theorem sGetCstr_eq {s : Nat} {x : StringT} {w : Bytes} (hs : m.strings.load s = some x)
    (hx : HasText m x w) : ∃ p block pre rest, sGetCstr m s = some p ∧
      m.chars.load p.block = some block ∧ pre.length = p.off ∧
      block = pre ++ ((w ++ [0]).map some ++ rest) := by
  cases hx with
  | @literal sl l _ hl htext hlen =>
    obtain ⟨block, hblock, hcstr⟩ := Option.bind_eq_some_iff.mp htext
    obtain ⟨rest, hrest⟩ := Chars.eq_of_cstr hcstr
    have hoff : l.literal.off ≤ block.length := by
      by_contra hlt
      rw [List.drop_eq_nil_of_le (by omega)] at hcstr
      cases hcstr
    refine ⟨l.literal, block, block.take l.literal.off, rest, ?_, hblock, by simp [hoff], ?_⟩
    · simp only [sGetCstr, hs, Option.bind_eq_bind, Option.bind_some, hl, Option.map_some]
    · rw [← hrest, List.take_append_drop]
  | @shared ss b _ rest hb hbuf hlen hcap =>
    refine ⟨⟨b.buf, 0⟩, _, [], rest, ?_, hbuf, rfl, rfl⟩
    simp only [sGetCstr, hs, Option.bind_eq_bind, Option.bind_some, hb, Option.map_some]

theorem sGetChar_eq {s : Nat} {x : StringT} {w : Bytes} (hs : m.strings.load s = some x)
    (hx : HasText m x w) {i : Nat} (hi : i < w.length) : sGetChar m s i = some w[i] := by
  obtain ⟨p, block, pre, rest, hp, hblock, hpre, rfl⟩ := sGetCstr_eq hs hx
  have hget : (pre ++ ((w ++ [0]).map some ++ rest))[p.off + i]? = some (some w[i]) := by
    rw [← hpre, List.getElem?_append_right (by omega), Nat.add_sub_cancel_left,
      List.getElem?_append_left (by simp; omega), List.getElem?_map,
      List.getElem?_append_left hi, List.getElem?_eq_getElem hi, Option.map_some]
  simp only [sGetChar, hp, Option.bind_eq_bind, Option.bind_some, hblock, hget]

/-- The string as C text goes up to its first NUL. -/
theorem cstr_sGetCstr {s : Nat} {x : StringT} {w : Bytes} (hs : m.strings.load s = some x)
    (hx : HasText m x w) : ∃ p, sGetCstr m s = some p ∧ m.cstr p = some (cString w) := by
  obtain ⟨p, block, pre, rest, hp, hblock, hpre, rfl⟩ := sGetCstr_eq hs hx
  refine ⟨p, hp, ?_⟩
  simp only [StringMem.cstr, hblock, Option.bind_eq_bind, Option.bind_some]
  rw [List.drop_left' hpre, Chars.cstr_append]
  rfl

/-- The first `len` characters, for a `memcpy`. -/
theorem loadChars_sGetCstr {s : Nat} {x : StringT} {w : Bytes} (hs : m.strings.load s = some x)
    (hx : HasText m x w) :
    ∃ p, sGetCstr m s = some p ∧ m.loadChars p w.length = some (w.map some) := by
  obtain ⟨p, block, pre, rest, hp, hblock, hpre, rfl⟩ := sGetCstr_eq hs hx
  refine ⟨p, hp, ?_⟩
  simp only [StringMem.loadChars, hblock, Option.bind_eq_bind, Option.bind_some]
  rw [if_pos (by simp; omega), List.drop_left' hpre, List.map_append, List.append_assoc,
    List.take_left' (by simp)]

/-! ## A buffer for one string -/

/-- The characters are the buffer of this string, and of no other one. -/
def OwnBuffer (m : StringMem) (s c : Nat) : Prop :=
  ∃ ss b, m.strings.load s = some (.shared ss) ∧ m.sharedStrings.load ss = some b ∧ b.buf = c ∧
    b.refCount ≤ 1

/-- The string `s` has a block for itself, with room for `minCap` characters and with its text;
all else is as before. -/
structure Prepared (m m' : StringMem) (texts : Texts) (s ss : Nat) (b : SharedString) (w : Bytes)
    (minCap : Nat) : Prop where
  inv : StringsInv m' texts []
  string : m'.strings.load s = some (.shared ss)
  others : ∀ s', s' ≠ s → m'.strings.load s' = m.strings.load s'
  block : m'.sharedStrings.load ss = some b
  single : b.refCount = 1
  room : minCap ≤ b.cap
  text : HasText m' (.shared ss) w
  kept : ∀ {s' y v}, s' ≠ s → m.strings.load s' = some y → HasText m y v → HasText m' y v
  chars : ∀ {c cs}, m.chars.load c = some cs → ¬OwnBuffer m s c → m'.chars.load c = some cs

theorem refs_ne_zero {s : Nat} {x : StringT} (hs : m.strings.load s = some x)
    (held : List StringT) : refs m held x ≠ 0 := by
  have := refs_pos_of_load hs
  rw [refs]
  omega

theorem sUnshare_spec (h : StringsInv m texts []) {s : Nat} {x : StringT} {w : Bytes}
    (hs : m.strings.load s = some x) (hx : HasText m x w) {cstr : CharPtr}
    (hsrc : m.loadChars cstr w.length = some (w.map some)) (minCap : Nat) :
    ∃ m' ss b, sUnshare m s cstr w.length minCap = some m' ∧
      Prepared m m' texts s ss b w minCap := by
  -- A new block, with the string's text in it.
  have hnull : some cstr = none → minCap = 1 := fun h => by cases h
  obtain ⟨ss, b, m₁, hnew, hchange, hone, hroom⟩ := newSharedString_eq (m := m) hnull hsrc
  have h₁ := h.newShared hchange hone
  have hs₁ : m₁.strings.load s = some x := by rw [hchange.strings, hs]
  have hfresh : ∀ {y v}, HasText m y v → y ≠ .shared ss := by
    rintro y v hy rfl
    cases hy with
    | shared hb _ _ _ =>
      rw [hchange.old_eq] at hb
      cases hb
  -- The string moves there, and its old block is released.
  obtain ⟨m₂, hrelease, hstrings, hreleased⟩ := sReleaseShared_spec hs₁ (h₁.put hs₁)
  have hs' : (m₁.strings.put s (some (.shared ss))).load s = some (.shared ss) :=
    Heap.load_put_self hs₁ _
  refine ⟨_, ss, b, ?_, ⟨hreleased.inv, hs', ?_, ?_, hone, hroom, ?_, ?_, ?_⟩⟩
  · simp only [sUnshare, hnew, Option.bind_eq_bind, Option.bind_some, hrelease,
      StringMem.storeStringT, hstrings, Heap.store_eq hs₁]
  · intro s' hne
    show (m₁.strings.put s (some (.shared ss))).load s' = _
    rw [Heap.load_put_of_ne _ hne, hchange.strings]
  · rw [hreleased.shared_kept ss (hfresh hx)]
    exact hchange.load_self
  · exact hreleased.text_kept (refs_ne_zero hs' []) ((hchange.hasText rfl).strings _)
  · intro s' y v hne hy hv
    have hy' : (m₁.strings.put s (some (.shared ss))).load s' = some y := by
      rw [Heap.load_put_of_ne _ hne, hchange.strings, hy]
    exact hreleased.text_kept (refs_ne_zero hy' []) ((hchange.text_kept h (hfresh hv) hv).strings _)
  · intro c cs hc hown
    refine hreleased.chars_kept (hchange.chars_kept hc fun _ hb => by cases hb).2 ?_
    rintro a b' rfl hb' hbuf
    by_contra hle
    have hne : a ≠ ss := fun ha => hfresh hx (by rw [ha])
    exact hown ⟨a, b', hs, (hchange.load_of_ne hne).symm.trans hb', hbuf, by omega⟩

/-- A block with one reference belongs to one string. -/
theorem StringsInv.ne_of_single (h : StringsInv m texts []) {ss : Nat} {b : SharedString}
    (hb : m.sharedStrings.load ss = some b) (hone : b.refCount = 1) {s s' : Nat} {y : StringT}
    (hs : m.strings.load s = some (.shared ss)) (hne : s' ≠ s)
    (hy : m.strings.load s' = some y) : y ≠ .shared ss := by
  rintro rfl
  have hrefs := (h.refCount_eq (x := .shared ss) (n := b.refCount)
    (by rw [refCountOf, hb, Option.map_some])).1
  have htwo := Heap.two_le_count hne hy hs (p := (· == .shared ss)) (by simp) (by simp)
  rw [refs] at hrefs
  simp only [List.count_nil] at hrefs
  omega

theorem sPrepareModify_spec (h : StringsInv m texts []) {s : Nat} {x : StringT} {w : Bytes}
    (hs : m.strings.load s = some x) (hx : HasText m x w) (minCap : Nat) :
    ∃ m' ss b, sPrepareModify m s minCap = some m' ∧ Prepared m m' texts s ss b w minCap := by
  obtain ⟨size, hsize, hle⟩ : ∃ size,
      (if minCap < w.length + 1 then w.length + 1 else minCap) = size ∧ minCap ≤ size := by
    refine ⟨_, rfl, ?_⟩
    split <;> omega
  obtain ⟨p, hp, hsrc⟩ := loadChars_sGetCstr hs hx
  obtain ⟨m₁, ss₁, b₁, hunshare, hprepared⟩ := sUnshare_spec h hs hx hsrc size
  have hroom : Prepared m m₁ texts s ss₁ b₁ w minCap :=
    { hprepared with room := hle.trans hprepared.room }
  simp only [sPrepareModify, sLen_eq hs hx, Option.bind_eq_bind, Option.bind_some, hsize, hs]
  simp only [sGetCstr, hs, Option.bind_eq_bind, Option.bind_some] at hp
  -- A literal and a buffer with other references are copied; a buffer of its own may grow.
  cases x with
  | literal sl =>
    obtain ⟨l, hl, rfl⟩ := Option.map_eq_some_iff.mp hp
    simp only [hl, Option.bind_some]
    exact ⟨m₁, ss₁, b₁, hunshare, hroom⟩
  | shared ss =>
    obtain ⟨b, hb, rfl⟩ := Option.map_eq_some_iff.mp hp
    simp only [hb, Option.bind_some]
    obtain ⟨hrefs, hpos⟩ := h.refCount_eq (x := .shared ss) (n := b.refCount)
      (by rw [refCountOf, hb, Option.map_some])
    by_cases hshared : 1 < b.refCount
    · rw [if_pos hshared]
      exact ⟨m₁, ss₁, b₁, hunshare, hroom⟩
    · have hone : b.refCount = 1 := by omega
      have hkept : ∀ {s' y}, s' ≠ s → m.strings.load s' = some y → y ≠ .shared ss :=
        fun hne hy => h.ne_of_single hb hone hs hne hy
      rw [if_neg hshared]
      by_cases hcap : size ≤ b.cap
      · rw [if_pos hcap]
        exact ⟨m, ss, b, rfl, h, hs, fun _ _ => rfl, hb, hone, hle.trans hcap, hx,
          fun _ _ hv => hv, fun hc _ => hc⟩
      · rw [if_neg hcap]
        obtain ⟨newCap, hnewCap, hgrow, hfit⟩ : ∃ newCap,
            (if b.cap * 2 < size then size else b.cap * 2) = newCap ∧ b.cap ≤ newCap ∧
              size ≤ newCap := by
          refine ⟨_, rfl, ?_⟩
          split <;> omega
        obtain ⟨buf, m₂, m₃, hrealloc, hstore, hchange, -⟩ := BlockChange.grow hb hx hgrow
        simp only [hnewCap, hrealloc, Option.bind_some, hstore]
        refine ⟨m₃, ss, _, rfl, ?_, ?_, ?_, hchange.load_self, hone, hle.trans hfit,
          hchange.hasText rfl, ?_, ?_⟩
        · refine h.change hchange ?_ fun _ _ => rfl
          rw [hrefs, if_neg (by omega), Option.map_some]
        · rw [hchange.strings, hs]
        · intro s' _
          rw [hchange.strings]
        · intro s' y v hne hy hv
          exact hchange.text_kept h (hkept hne hy) hv
        · intro c cs hc hown
          refine (hchange.chars_kept hc fun b' hb' hbuf => hown ⟨ss, b, hs, hb, ?_, by omega⟩).2
          cases hb'
          exact hbuf.symm

/-! ## Modifying -/

/-- The string `s` has this text now; every other string is as before. -/
structure Modified (m m' : StringMem) (texts : Texts) (s : Nat) (w : Bytes) : Prop where
  inv : StringsInv m' texts []
  text : ∃ x, m'.strings.load s = some x ∧ HasText m' x w
  others : ∀ s', s' ≠ s → m'.strings.load s' = m.strings.load s'
  kept : ∀ {s' y v}, s' ≠ s → m.strings.load s' = some y → HasText m y v → HasText m' y v

section Modify

variable {s ss minCap : Nat} {b : SharedString} {w : Bytes}

/-- The buffer of a prepared string. -/
theorem Prepared.buf (h : Prepared m m' texts s ss b w minCap) : ∃ rest : Chars,
    m'.chars.load b.buf = some ((w ++ [0]).map some ++ rest) ∧ b.len = w.length ∧
      b.cap = w.length + 1 + rest.length := by
  obtain ⟨-, -, -, hblock, -, -, htext, -, -⟩ := h
  cases htext with
  | @shared _ b' _ rest hb hbuf hlen hcap =>
    rw [hblock, Option.some.injEq] at hb
    subst hb
    exact ⟨rest, hbuf, hlen, hcap⟩

theorem Prepared.sharedOf (h : Prepared m m' texts s ss b w minCap) :
    sharedOf m' s = some (ss, b) := by
  simp only [Util.sharedOf, h.string, Option.bind_eq_bind, Option.bind_some, h.block]

/-- **Writing to a prepared string modifies it alone.** -/
theorem Prepared.write (h : Prepared m m' texts s ss b w minCap) (w' : Bytes) (rest : Chars)
    (hcap : b.cap = w'.length + 1 + rest.length) :
    Modified m { m' with
      chars := m'.chars.put b.buf (some ((w' ++ [0]).map some ++ rest))
      sharedStrings := m'.sharedStrings.put ss (some { b with len := w'.length }) } texts s w' := by
  obtain ⟨_, hbuf, -, -⟩ := h.buf
  have hchange := BlockChange.write h.block hbuf hcap
  have hcount := h.inv.counted (.shared ss)
  rw [refCountOf, h.block] at hcount
  refine ⟨h.inv.change hchange hcount fun _ _ => rfl, ⟨.shared ss, h.string, hchange.hasText rfl⟩,
    h.others, ?_⟩
  intro s' y v hne hy hv
  have hy' : m'.strings.load s' = some y := (h.others s' hne).trans hy
  exact hchange.text_kept h.inv (h.inv.ne_of_single h.block h.single h.string hne hy')
    (h.kept hne hy hv)

variable {x : StringT}

theorem sAppendChar_spec (h : StringsInv m texts []) (hs : m.strings.load s = some x)
    (hx : HasText m x w) (c : UInt8) :
    ∃ m', sAppendChar m s c = some m' ∧ Modified m m' texts s (w ++ [c]) := by
  obtain ⟨m₁, ss, b, hprepare, hprepared⟩ := sPrepareModify_spec h hs hx (w.length + 2)
  obtain ⟨rest, hbuf, hlen, hcap⟩ := hprepared.buf
  have hroom := hprepared.room
  obtain ⟨r, rest, rfl⟩ : ∃ r rest', rest = r :: rest' :=
    List.exists_cons_of_length_pos (by omega)
  simp only [List.length_cons] at hcap
  have hcells : m₁.chars.load b.buf = some (w.map some ++ [some 0] ++ r :: rest) := by
    rw [hbuf]
    simp
  have hstore := storeChars_eq (p := ⟨b.buf, w.length⟩) [some c] hcells (by simp) rfl
  have hself : (m₁.chars.put b.buf (some (w.map some ++ [some c] ++ r :: rest))).load b.buf =
      some ((w ++ [c]).map some ++ [r] ++ rest) := by
    rw [Heap.load_put_self hbuf]
    simp
  have hstore' := storeChars_eq
    (m := { m₁ with chars := m₁.chars.put b.buf (some (w.map some ++ [some c] ++ r :: rest)) })
    (p := ⟨b.buf, w.length + 1⟩) [some 0] hself (by simp) rfl
  have hmodified := hprepared.write (w ++ [c]) rest (by simp; omega)
  refine ⟨_, ?_, hmodified⟩
  simp only [sAppendChar, sLen_eq hs hx, Option.bind_eq_bind, Option.bind_some, hprepare,
    hprepared.sharedOf, hlen, hstore, hstore', Heap.put_put, StringMem.storeShared,
    Heap.store_eq hprepared.block]
  simp

theorem sSetChar_spec (h : StringsInv m texts []) (hs : m.strings.load s = some x)
    (hx : HasText m x w) {i : Nat} (hi : i < w.length) (c : UInt8) :
    ∃ m', sSetChar m s i c = some m' ∧ Modified m m' texts s (w.set i c) := by
  obtain ⟨pre, d, post, rfl, rfl⟩ : ∃ pre d post, w = pre ++ d :: post ∧ pre.length = i :=
    ⟨w.take i, w[i], w.drop (i + 1), by rw [← List.drop_eq_getElem_cons hi, List.take_append_drop],
      by simp; omega⟩
  obtain ⟨m₁, ss, b, hprepare, hprepared⟩ :=
    sPrepareModify_spec h hs hx ((pre ++ d :: post).length + 1)
  obtain ⟨rest, hbuf, hlen, hcap⟩ := hprepared.buf
  have hset : (pre ++ d :: post).set pre.length c = pre ++ c :: post := by simp
  have hcells : m₁.chars.load b.buf =
      some (pre.map some ++ [some d] ++ ((post ++ [0]).map some ++ rest)) := by
    rw [hbuf]
    simp
  have hstore := storeChars_eq (p := ⟨b.buf, pre.length⟩) [some c] hcells (by simp) rfl
  have hsame : { b with len := (pre ++ c :: post).length } = b := by
    rw [show (pre ++ c :: post).length = b.len by rw [hlen]; simp]
  have hmodified := hprepared.write (pre ++ c :: post) rest (by
    rw [hcap]
    simp)
  rw [hsame, Heap.put_self hprepared.block] at hmodified
  rw [hset]
  refine ⟨_, ?_, hmodified⟩
  simp only [sSetChar, sLen_eq hs hx, Option.bind_eq_bind, Option.bind_some, hprepare,
    hprepared.sharedOf, hstore]
  simp

/-- The text to append is not in the buffer that is written to. -/
theorem sAppendCstr_spec (h : StringsInv m texts []) (hs : m.strings.load s = some x)
    (hx : HasText m x w) {addition : CharPtr} {t : Bytes} (ht : m.cstr addition = some t)
    (hown : ¬OwnBuffer m s addition.block) :
    ∃ m', sAppendCstr m s addition = some m' ∧ Modified m m' texts s (w ++ t) := by
  obtain ⟨m₁, ss, b, hprepare, hprepared⟩ :=
    sPrepareModify_spec h hs hx (w.length + t.length + 1)
  obtain ⟨rest, hbuf, hlen, hcap⟩ := hprepared.buf
  have hroom := hprepared.room
  have hread : m₁.cstr addition = some t := by
    obtain ⟨block, hblock, hcstr⟩ := Option.bind_eq_some_iff.mp ht
    simp only [StringMem.cstr, hprepared.chars hblock hown, Option.bind_eq_bind, Option.bind_some,
      hcstr]
  have hcells : m₁.chars.load b.buf = some (w.map some ++ (some 0 :: rest.take t.length) ++
      rest.drop t.length) := by
    rw [hbuf, List.append_assoc, List.cons_append, List.take_append_drop]
    simp
  have hstore := storeChars_eq (p := ⟨b.buf, w.length⟩) ((t ++ [0]).map some) hcells (by simp)
    (by simp; omega)
  have hmodified := hprepared.write (w ++ t) (rest.drop t.length) (by simp; omega)
  refine ⟨_, ?_, hmodified⟩
  simp only [sAppendCstr, sLen_eq hs hx, StringMem.strlen, ht, Option.map_some,
    Option.bind_eq_bind, Option.bind_some, hprepare, hprepared.sharedOf, hread, hstore,
    StringMem.storeShared, Heap.store_eq hprepared.block]
  simp

/-- The buffer of another string is not written to. -/
theorem StringsInv.not_ownBuffer (h : StringsInv m texts []) {s' : Nat} {y : StringT}
    (hne : s' ≠ s) (hs' : m.strings.load s' = some y) {p : CharPtr} (hp : sGetCstr m s' = some p) : ¬OwnBuffer m s p.block := by
  rintro ⟨ss, b, hss, hb, hbuf, hle⟩
  simp only [sGetCstr, hs', Option.bind_eq_bind, Option.bind_some] at hp
  cases y with
  | literal sl =>
    obtain ⟨l, hl, rfl⟩ := Option.map_eq_some_iff.mp hp
    obtain ⟨bs, hbs⟩ := h.literal_text hl
    exact h.buf_notText hb bs (hbuf ▸ hbs)
  | shared ss' =>
    obtain ⟨b', hb', rfl⟩ := Option.map_eq_some_iff.mp hp
    have hsame : ss = ss' := h.buf_inj hb hb' hbuf
    have hpos := (h.refCount_eq (x := .shared ss) (n := b.refCount)
      (by rw [refCountOf, hb, Option.map_some])).2
    exact h.ne_of_single hb (by omega) hss hne hs' (by rw [hsame])

theorem sAppendString_spec (h : StringsInv m texts []) (hs : m.strings.load s = some x)
    (hx : HasText m x w) {s' : Nat} {y : StringT} {v : Bytes} (hne : s' ≠ s)
    (hs' : m.strings.load s' = some y) (hy : HasText m y v) :
    ∃ m', sAppendString m s s' = some m' ∧ Modified m m' texts s (w ++ cString v) := by
  obtain ⟨p, hp, htext⟩ := cstr_sGetCstr hs' hy
  obtain ⟨m', happend, hmodified⟩ :=
    sAppendCstr_spec h hs hx htext (h.not_ownBuffer hne hs' hp)
  refine ⟨m', ?_, hmodified⟩
  simp only [sAppendString, hp, Option.bind_eq_bind, Option.bind_some, happend]

end Modify

end Chlibs.Util

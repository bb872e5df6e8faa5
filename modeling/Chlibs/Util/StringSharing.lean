import Chlibs.Util.String

/-!
# The blocks that strings share

* `HasText` — the text that a string gets through what it points to.
* `StringsInv` — each block counts its references and is there exactly as long as it has any;
  no two blocks have a buffer in common, and the callers' texts are nobody's buffer.
* `StringsInv.change`, `StringsInv.changeLiteral` — what may happen to a block, with the cases
  that occur: it is made, counted anew, freed, written to and reallocated.

While a function works, it holds references of its own: the list `held`.
-/

namespace Chlibs.Util

open Infra

/-! ## What strings point to -/

/-- The text of a block. -/
inductive HasText (m : StringMem) : StringT → Bytes → Prop
  | literal {sl : Nat} {l : SharedLiteral} {w : Bytes} (hl : m.sharedLiterals.load sl = some l)
      (htext : m.cstr l.literal = some w) (hlen : l.len = w.length) : HasText m (.literal sl) w
  | shared {ss : Nat} {b : SharedString} {w : Bytes} {rest : Chars}
      (hb : m.sharedStrings.load ss = some b)
      (hbuf : m.chars.load b.buf = some ((w ++ [0]).map some ++ rest)) (hlen : b.len = w.length)
      (hcap : b.cap = w.length + 1 + rest.length) : HasText m (.shared ss) w

/-- The count in a block, `none` without the block. -/
def refCountOf (m : StringMem) : StringT → Option Nat
  | .literal sl => (m.sharedLiterals.load sl).map SharedLiteral.refCount
  | .shared ss => (m.sharedStrings.load ss).map SharedString.refCount

/-- The references to a block: those of strings, and those held. -/
def refs (m : StringMem) (held : List StringT) (x : StringT) : Nat :=
  m.strings.count (· == x) + held.count x

/-- The callers' texts, by block. -/
abbrev Texts := List (Nat × Bytes)

structure StringsInv (m : StringMem) (texts : Texts) (held : List StringT) : Prop where
  /-- a block is there as long as it is referred to, and counts its references -/
  counted : ∀ x, refCountOf m x = if refs m held x = 0 then none else some (refs m held x)
  formed : ∀ x n, refCountOf m x = some n → ∃ w, HasText m x w
  buf_inj : ∀ {ss ss' b b'}, m.sharedStrings.load ss = some b →
    m.sharedStrings.load ss' = some b' → b.buf = b'.buf → ss = ss'
  buf_notText : ∀ {ss b}, m.sharedStrings.load ss = some b → ∀ bs, (b.buf, bs) ∉ texts
  literal_text : ∀ {sl l}, m.sharedLiterals.load sl = some l → ∃ bs, (l.literal.block, bs) ∈ texts
  text_kept : ∀ {t bs}, (t, bs) ∈ texts → m.chars.load t = some (bs.map some)
  /-- no buffer is lost -/
  accounted : ∀ {c cs}, m.chars.load c = some cs →
    (∃ bs, (c, bs) ∈ texts) ∨ ∃ ss b, m.sharedStrings.load ss = some b ∧ b.buf = c

section Inv

variable {m m' : StringMem} {texts : Texts} {held held' : List StringT}

/-- What is referred to is there. -/
theorem StringsInv.exists_text (h : StringsInv m texts held) {x : StringT}
    (hx : refs m held x ≠ 0) : ∃ w, HasText m x w :=
  h.formed x _ ((h.counted x).trans (if_neg hx))

theorem StringsInv.refCount_eq (h : StringsInv m texts held) {x : StringT} {n : Nat}
    (hx : refCountOf m x = some n) : refs m held x = n ∧ 0 < n := by
  rw [h.counted x] at hx
  split at hx
  · simp at hx
  · next hne =>
    cases hx
    exact ⟨rfl, Nat.pos_of_ne_zero hne⟩

theorem refs_pos_of_load {s : Nat} {x : StringT} (hs : m.strings.load s = some x) :
    0 < m.strings.count (· == x) := Heap.count_pos hs (by simp)

/-- A text that nothing is known of but the blocks it goes through. -/
theorem HasText.congr {x : StringT} {w : Bytes} (h : HasText m x w)
    (hstruct : ∀ ss, x = .shared ss → m'.sharedStrings.load ss = m.sharedStrings.load ss)
    (hliteral : ∀ sl, x = .literal sl → m'.sharedLiterals.load sl = m.sharedLiterals.load sl)
    (hbuf : ∀ {ss b cs}, x = .shared ss → m.sharedStrings.load ss = some b →
      m.chars.load b.buf = some cs → m'.chars.load b.buf = some cs)
    (htext : ∀ {sl l cs}, x = .literal sl → m.sharedLiterals.load sl = some l →
      m.chars.load l.literal.block = some cs → m'.chars.load l.literal.block = some cs) :
    HasText m' x w := by
  cases h with
  | @literal sl l _ hl hcstr hlen =>
    refine .literal (by rw [hliteral sl rfl, hl]) ?_ hlen
    unfold StringMem.cstr at hcstr ⊢
    obtain ⟨cs, hcs, hread⟩ := Option.bind_eq_some_iff.mp hcstr
    rw [htext rfl hl hcs]
    exact hread
  | @shared ss b _ rest hb hcs hlen hcap =>
    exact .shared (by rw [hstruct ss rfl, hb]) (hbuf rfl hb hcs) hlen hcap

/-- Only the text of a block is read, so it has one. -/
theorem HasText.unique {x : StringT} {w w' : Bytes} (h : HasText m x w) (h' : HasText m x w') :
    w = w' := by
  cases h with
  | literal hl htext _ =>
    cases h' with
    | literal hl' htext' _ =>
      rw [hl, Option.some.injEq] at hl'
      subst hl'
      rw [htext, Option.some.injEq] at htext'
      exact htext'
  | shared hb hbuf hlen _ =>
    cases h' with
    | shared hb' hbuf' hlen' _ =>
      rw [hb, Option.some.injEq] at hb'
      subst hb'
      rw [hbuf, Option.some.injEq, List.map_append, List.map_append, List.append_assoc,
        List.append_assoc] at hbuf'
      have hmap := (List.append_inj hbuf' (by simp [← hlen, hlen'])).1
      exact List.map_injective_iff.mpr (Option.some_injective _) hmap

/-- Strings may be changed as long as the references are the same. -/
theorem StringsInv.strings (h : StringsInv m texts held) {strings : Heap StringT}
    (hrefs : ∀ x, strings.count (· == x) + held'.count x = refs m held x) :
    StringsInv { m with strings := strings } texts held' where
  counted x := by
    have hsame : refs { m with strings := strings } held' x = refs m held x := hrefs x
    rw [hsame]
    exact h.counted x
  formed x n hx := by
    obtain ⟨w, hw⟩ := h.formed x n hx
    exact ⟨w, hw.congr (fun _ _ => rfl) (fun _ _ => rfl) (fun _ _ hcs => hcs) fun _ _ hcs => hcs⟩
  buf_inj := h.buf_inj
  buf_notText := h.buf_notText
  literal_text := h.literal_text
  text_kept := h.text_kept
  accounted := h.accounted

/-- A held reference goes to a new string. -/
theorem StringsInv.alloc {x : StringT} (h : StringsInv m texts (x :: held)) :
    StringsInv (m.newStringT x).2 texts held := by
  refine h.strings fun y => ?_
  have halloc := Heap.count_alloc m.strings x (· == y)
  show (m.strings.alloc x).2.count (· == y) + held.count y = _
  rw [halloc, refs, List.count_cons]
  omega

/-- A held reference goes to a string, which gives back the one it had. -/
theorem StringsInv.put {s : Nat} {x y : StringT} (h : StringsInv m texts (y :: held))
    (hs : m.strings.load s = some x) :
    StringsInv { m with strings := m.strings.put s (some y) } texts (x :: held) := by
  refine h.strings fun z => ?_
  have hput := Heap.count_put hs (some y) (· == z)
  simp only [Option.any_some] at hput
  simp only [refs, List.count_cons]
  omega

/-- A string that is freed gives back its reference. -/
theorem StringsInv.free {s : Nat} {x : StringT} (h : StringsInv m texts held)
    (hs : m.strings.load s = some x) :
    StringsInv { m with strings := m.strings.put s none } texts (x :: held) := by
  refine h.strings fun z => ?_
  have hput := Heap.count_put hs none (· == z)
  simp only [Option.any_none, Bool.false_eq_true, if_false] at hput
  simp only [refs, List.count_cons]
  omega

/-- The buffer of a block is there. -/
theorem StringsInv.buf_live (h : StringsInv m texts held) {ss : Nat} {b : SharedString}
    (hb : m.sharedStrings.load ss = some b) : ∃ cs, m.chars.load b.buf = some cs := by
  obtain ⟨w, hw⟩ := h.formed (.shared ss) b.refCount (by rw [refCountOf, hb, Option.map_some])
  cases hw with
  | shared hb' hbuf _ _ =>
    rw [hb, Option.some.injEq] at hb'
    exact ⟨_, hb' ▸ hbuf⟩

theorem StringsInv.refs_eq_zero (h : StringsInv m texts held) {x : StringT}
    (hx : refCountOf m x = none) : refs m held x = 0 := by
  rw [h.counted x] at hx
  by_contra hne
  rw [if_neg hne] at hx
  cases hx

end Inv

/-! ## One block changes -/

/-- A block is made, gets another structure, text or buffer, or is freed. `w` is its text
afterwards. -/
structure BlockChange (m m' : StringMem) (ss : Nat) (old new : Option SharedString) (w : Bytes) :
    Prop where
  old_eq : m.sharedStrings.load ss = old
  load : ∀ a, m'.sharedStrings.load a = if a = ss then new else m.sharedStrings.load a
  strings : m'.strings = m.strings
  sharedLiterals : m'.sharedLiterals = m.sharedLiterals
  kept : ∀ c, (∀ b, old = some b → c ≠ b.buf) → (∀ b, new = some b → c ≠ b.buf) →
    m'.chars.load c = m.chars.load c
  freed : ∀ b, old = some b → (∀ b', new = some b' → b'.buf ≠ b.buf) → m'.chars.load b.buf = none
  fresh : ∀ b', new = some b' → (∀ b, old = some b → b'.buf ≠ b.buf) → m.chars.load b'.buf = none
  text : ∀ b', new = some b' → ∃ rest : Chars,
    m'.chars.load b'.buf = some ((w ++ [0]).map some ++ rest) ∧ b'.len = w.length ∧
      b'.cap = w.length + 1 + rest.length

section Change

variable {m m' : StringMem} {texts : Texts} {held held' : List StringT} {ss : Nat}
  {old new : Option SharedString} {w : Bytes}

namespace BlockChange

theorem load_self (h : BlockChange m m' ss old new w) : m'.sharedStrings.load ss = new := by
  rw [h.load, if_pos rfl]

theorem load_of_ne (h : BlockChange m m' ss old new w) {a : Nat} (ha : a ≠ ss) :
    m'.sharedStrings.load a = m.sharedStrings.load a := by
  rw [h.load, if_neg ha]

/-- Characters in another buffer are as before. -/
theorem chars_kept (h : BlockChange m m' ss old new w) {c : Nat} {cs : Chars}
    (hc : m.chars.load c = some cs) (hne : ∀ b, old = some b → c ≠ b.buf) :
    (∀ b, new = some b → c ≠ b.buf) ∧ m'.chars.load c = some cs := by
  have hne' : ∀ b, new = some b → c ≠ b.buf := by
    rintro b hb rfl
    rw [h.fresh b hb hne] at hc
    cases hc
  exact ⟨hne', by rw [h.kept c hne hne', hc]⟩

theorem hasText (h : BlockChange m m' ss old new w) {b : SharedString} (hb : new = some b) :
    HasText m' (.shared ss) w := by
  obtain ⟨rest, hbuf, hlen, hcap⟩ := h.text b hb
  exact .shared (h.load_self.trans hb) hbuf hlen hcap

/-- A buffer of another block. -/
theorem buf_ne (h : BlockChange m m' ss old new w) (hinv : StringsInv m texts held) {a : Nat}
    {b : SharedString} (ha : a ≠ ss) (hb : m.sharedStrings.load a = some b) :
    (∀ b', old = some b' → b.buf ≠ b'.buf) ∧ ∀ b', new = some b' → b.buf ≠ b'.buf := by
  have hold : ∀ b', old = some b' → b.buf ≠ b'.buf := fun b' hb' hbuf =>
    ha (hinv.buf_inj hb (h.old_eq.trans hb') hbuf)
  obtain ⟨cs, hcs⟩ := hinv.buf_live hb
  exact ⟨hold, (h.chars_kept hcs hold).1⟩

/-- A caller's text is in no buffer. -/
theorem text_ne (h : BlockChange m m' ss old new w) (hinv : StringsInv m texts held) {t : Nat}
    {bs : Bytes} (ht : (t, bs) ∈ texts) : ∀ b, old = some b → t ≠ b.buf := by
  rintro b hb rfl
  exact hinv.buf_notText (h.old_eq.trans hb) bs ht

/-- The texts of other blocks are as before. -/
theorem text_kept (h : BlockChange m m' ss old new w) (hinv : StringsInv m texts held)
    {x : StringT} {v : Bytes} (hne : x ≠ .shared ss) (hx : HasText m x v) : HasText m' x v := by
  refine hx.congr ?_ (fun _ _ => by rw [h.sharedLiterals]) ?_ ?_
  · rintro ss' rfl
    exact h.load_of_ne fun hss => hne (by rw [hss])
  · rintro ss' b cs rfl hb hcs
    exact (h.chars_kept hcs (h.buf_ne hinv (fun hss => hne (by rw [hss])) hb).1).2
  · rintro sl l cs rfl hl hcs
    obtain ⟨bs, hbs⟩ := hinv.literal_text hl
    exact (h.chars_kept hcs (h.text_ne hinv hbs)).2

theorem refCountOf_of_ne (h : BlockChange m m' ss old new w) {x : StringT} (hx : x ≠ .shared ss) :
    refCountOf m' x = refCountOf m x := by
  cases x with
  | literal sl => rw [refCountOf, h.sharedLiterals, refCountOf]
  | shared a => rw [refCountOf, h.load_of_ne fun ha => hx (by rw [ha]), refCountOf]

end BlockChange

/-- **A block may change as long as its count is right.** -/
theorem StringsInv.change (hinv : StringsInv m texts held) (h : BlockChange m m' ss old new w)
    (hcount : new.map SharedString.refCount =
      if refs m held' (.shared ss) = 0 then none else some (refs m held' (.shared ss)))
    (hother : ∀ x, x ≠ .shared ss → refs m held' x = refs m held x) :
    StringsInv m' texts held' where
  counted x := by
    have hsame : refs m' held' x = refs m held' x := by rw [refs, h.strings, refs]
    rw [hsame]
    by_cases hx : x = .shared ss
    · rw [hx, refCountOf, h.load_self, hcount]
    · rw [hother x hx, ← hinv.counted x, h.refCountOf_of_ne hx]
  formed x n hx := by
    by_cases hss : x = .shared ss
    · rw [hss, refCountOf, h.load_self] at hx
      obtain ⟨b, hb, -⟩ := Option.map_eq_some_iff.mp hx
      exact ⟨w, hss ▸ h.hasText hb⟩
    · rw [h.refCountOf_of_ne hss] at hx
      obtain ⟨v, hv⟩ := hinv.formed x n hx
      exact ⟨v, h.text_kept hinv hss hv⟩
  buf_inj := by
    intro a₁ a₂ b₁ b₂ h₁ h₂ hbuf
    rw [h.load] at h₁ h₂
    split at h₁ <;> split at h₂
    · next ha₁ ha₂ => rw [ha₁, ha₂]
    · next ha₂ => exact absurd hbuf.symm ((h.buf_ne hinv ha₂ h₂).2 b₁ h₁)
    · next ha₁ _ => exact absurd hbuf ((h.buf_ne hinv ha₁ h₁).2 b₂ h₂)
    · exact hinv.buf_inj h₁ h₂ hbuf
  buf_notText := by
    intro a b hb bs hbs
    rw [h.load] at hb
    split at hb
    · exact (h.chars_kept (hinv.text_kept hbs) (h.text_ne hinv hbs)).1 b hb rfl
    · exact hinv.buf_notText hb bs hbs
  literal_text := by
    rw [h.sharedLiterals]
    exact hinv.literal_text
  text_kept hbs := (h.chars_kept (hinv.text_kept hbs) (h.text_ne hinv hbs)).2
  accounted := by
    intro c cs hc
    by_cases hnew : ∃ b, new = some b ∧ b.buf = c
    · obtain ⟨b, hb, hbuf⟩ := hnew
      exact .inr ⟨ss, b, h.load_self.trans hb, hbuf⟩
    -- Any other block was there before, and was not freed with the old buffer.
    · have hne : ∀ b, new = some b → c ≠ b.buf := fun b hb hbuf => hnew ⟨b, hb, hbuf.symm⟩
      have hold : ∀ b, old = some b → c ≠ b.buf := by
        rintro b hb rfl
        rw [h.freed b hb fun b' hb' => (hne b' hb').symm] at hc
        cases hc
      rw [h.kept c hold hne] at hc
      rcases hinv.accounted hc with htext | ⟨a, b, hb, hbuf⟩
      · exact .inl htext
      · have ha : a ≠ ss := by
          rintro rfl
          exact hold b (h.old_eq.symm.trans hb) hbuf.symm
        exact .inr ⟨a, b, by rw [h.load_of_ne ha, hb], hbuf⟩

end Change

/-! ## New blocks -/

section New

variable {m : StringMem} {texts : Texts} {held : List StringT}

theorem storeChars_eq {m : StringMem} {p : CharPtr} {a old b : Chars} (cs : Chars)
    (h : m.chars.load p.block = some (a ++ old ++ b)) (ha : a.length = p.off)
    (hlen : old.length = cs.length) :
    m.storeChars p cs = some { m with chars := m.chars.put p.block (some (a ++ cs ++ b)) } := by
  have hroom : p.off + cs.length ≤ (a ++ old ++ b).length := by
    simp only [List.length_append]
    omega
  simp only [StringMem.storeChars, h, Option.bind_eq_bind, Option.bind_some, if_pos hroom,
    Heap.store_eq h, Chars.splice_append ha hlen]

/-- The source of a new string: nothing, or the text at a place. -/
def IsSource (m : StringMem) (cstr : Option CharPtr) (w : Bytes) : Prop :=
  match cstr with
  | none => w = []
  | some p => m.loadChars p w.length = some (w.map some)

/-- The text of a source is copied to the front of a new buffer. -/
theorem copyCstr_eq {cstr : Option CharPtr} {w : Bytes} (hsrc : IsSource m cstr w)
    {chars : Heap Chars} {buf n : Nat} (hfresh : m.chars.load buf = none)
    (hload : ∀ c, chars.load c =
      if c = buf then some (List.replicate (w.length + n) none) else m.chars.load c) :
    ∃ chars', copyCstr { m with chars := chars } buf cstr w.length =
        some { m with chars := chars' } ∧
      ∀ c, chars'.load c =
        if c = buf then some (w.map some ++ List.replicate n none) else m.chars.load c := by
  by_cases hw : 0 < w.length
  · rw [copyCstr, if_pos hw]
    cases cstr with
    | none =>
      rw [show w = [] from hsrc] at hw
      exact absurd hw (Nat.lt_irrefl 0)
    | some p =>
      -- The source is another block than the new one, so it is still there.
      have hread : StringMem.loadChars { m with chars := chars } p w.length =
          some (w.map some) := by
        have hp : m.loadChars p w.length = some (w.map some) := hsrc
        unfold StringMem.loadChars at hp ⊢
        obtain ⟨block, hblock, -⟩ := Option.bind_eq_some_iff.mp hp
        have hne : p.block ≠ buf := by
          rintro rfl
          rw [hfresh] at hblock
          cases hblock
        show (do let block ← chars.load p.block; _) = _
        rw [hload p.block, if_neg hne]
        exact hp
      have hself : chars.load buf =
          some ([] ++ List.replicate w.length none ++ List.replicate n none) := by
        rw [hload buf, if_pos rfl, List.nil_append, List.replicate_append_replicate]
      have hstore := storeChars_eq (m := { m with chars := chars }) (p := ⟨buf, 0⟩)
        (w.map some) hself rfl (by simp)
      refine ⟨_, by
        simp only [hread, Option.bind_eq_bind, Option.bind_some]
        exact hstore, fun c => ?_⟩
      rw [Heap.load_put hself, hload c]
      split <;> rfl
  · have hnil : w = [] := List.length_eq_zero_iff.mp (by omega)
    rw [copyCstr, if_neg hw]
    refine ⟨chars, rfl, fun c => ?_⟩
    rw [hload c, hnil]
    simp

theorem allocShared_eq {cstr : Option CharPtr} {w : Bytes} {cap : Nat} (hcap : w.length + 1 ≤ cap)
    (hsrc : IsSource m cstr w) :
    ∃ ss b m', allocShared m cstr w.length cap = some (ss, m') ∧
      BlockChange m m' ss none (some b) w ∧ b.refCount = 1 ∧ b.cap = cap := by
  obtain ⟨n, rfl⟩ := Nat.exists_eq_add_of_le hcap
  obtain ⟨buf, chars, halloc⟩ : ∃ buf chars,
      m.chars.alloc (List.replicate (w.length + 1 + n) none) = (buf, chars) := ⟨_, _, rfl⟩
  have hfresh : m.chars.load buf = none := by
    have := Heap.load_alloc_fst m.chars (List.replicate (w.length + 1 + n) none)
    rwa [halloc] at this
  have hload := Heap.load_alloc m.chars (List.replicate (w.length + 1 + n) none)
  rw [halloc, Nat.add_assoc] at hload
  obtain ⟨chars₂, hcopy, hload₂⟩ := copyCstr_eq hsrc hfresh hload
  -- The NUL behind the text.
  have hself : chars₂.load buf =
      some (w.map some ++ List.replicate 1 none ++ List.replicate n none) := by
    rw [hload₂ buf, if_pos rfl, List.append_assoc, List.replicate_append_replicate]
  have hstore := storeChars_eq (m := { m with chars := chars₂ }) (p := ⟨buf, w.length⟩)
    [some 0] hself (by simp) rfl
  obtain ⟨b, hb⟩ : ∃ b : SharedString, b = ⟨1, w.length + 1 + n, w.length, buf⟩ := ⟨_, rfl⟩
  have heq : allocShared m cstr w.length (w.length + 1 + n) = some ((m.sharedStrings.alloc b).1,
      { m with
        chars := chars₂.put buf (some (w.map some ++ [some 0] ++ List.replicate n none))
        sharedStrings := (m.sharedStrings.alloc b).2 }) := by
    simp only [allocShared, StringMem.mallocChars, halloc, Option.bind_eq_bind]
    rw [hcopy, Option.bind_some, hstore, Option.bind_some, hb]
  refine ⟨_, b, _, heq, ⟨Heap.load_alloc_fst _ _, Heap.load_alloc _ _, rfl, rfl, ?_, ?_, ?_, ?_⟩,
    by rw [hb], by rw [hb]⟩
  · intro c _ hc
    have hne : c ≠ buf := by simpa [hb] using hc b rfl
    show (chars₂.put buf _).load c = _
    rw [Heap.load_put_of_ne _ hne, hload₂, if_neg hne]
  · intro b' hb'
    cases hb'
  · rintro b' hb' -
    cases hb'
    rw [hb]
    exact hfresh
  · intro b' hb'
    cases hb'
    refine ⟨List.replicate n none, ?_, by rw [hb], by simp [hb]⟩
    rw [hb, Heap.load_put_self hself]
    simp

theorem newSharedString_eq {cstr : Option CharPtr} {w : Bytes} {cap : Nat}
    (hnull : cstr = none → cap = 1) (hsrc : IsSource m cstr w) :
    ∃ ss b m', newSharedString m cstr w.length cap = some (ss, m') ∧
      BlockChange m m' ss none (some b) w ∧ b.refCount = 1 ∧ cap ≤ b.cap := by
  cases cstr with
  | none =>
    have hw : w = [] := hsrc
    subst hw
    rw [hnull rfl]
    obtain ⟨ss, b, m', heq, hnew, hone, hcap⟩ := allocShared_eq (Nat.le_refl 1) hsrc
    exact ⟨ss, b, m', heq, hnew, hone, hcap.ge⟩
  | some p =>
    have hsize : w.length + 1 ≤ (if cap < w.length + 1 then w.length + 1 else cap) ∧
        cap ≤ (if cap < w.length + 1 then w.length + 1 else cap) := by
      split <;> omega
    obtain ⟨ss, b, m', heq, hnew, hone, hcap⟩ := allocShared_eq hsize.1 hsrc
    exact ⟨ss, b, m', heq, hnew, hone, hcap ▸ hsize.2⟩

/-- **A new block has one reference.** -/
theorem StringsInv.newShared (hinv : StringsInv m texts held) {m' : StringMem} {ss : Nat}
    {b : SharedString} {w : Bytes} (h : BlockChange m m' ss none (some b) w)
    (hone : b.refCount = 1) : StringsInv m' texts (.shared ss :: held) := by
  have hzero : refs m held (.shared ss) = 0 := hinv.refs_eq_zero (by rw [refCountOf, h.old_eq]; rfl)
  have hrefs : refs m (.shared ss :: held) (.shared ss) = 1 := by
    rw [refs, List.count_cons_self, ← Nat.add_assoc]
    exact congrArg (· + 1) hzero
  refine hinv.change h ?_ fun x hx => ?_
  · rw [hrefs, if_neg Nat.one_ne_zero, Option.map_some, hone]
  · rw [refs, List.count_cons_of_ne (Ne.symm hx), refs]

end New

/-! ## Blocks that change -/

section Changes

variable {m : StringMem} {ss : Nat} {b : SharedString} {w : Bytes}

/-- Only the count changes. -/
theorem BlockChange.count (hb : m.sharedStrings.load ss = some b) (hw : HasText m (.shared ss) w)
    (n : Nat) : BlockChange m
      { m with sharedStrings := m.sharedStrings.put ss (some { b with refCount := n }) } ss (some b)
      (some { b with refCount := n }) w where
  old_eq := hb
  load a := Heap.load_put hb _ a
  strings := rfl
  sharedLiterals := rfl
  kept _ _ _ := rfl
  freed _ hold hne := by
    cases hold
    exact (hne _ rfl rfl).elim
  fresh _ hnew hne := by
    cases hnew
    exact (hne b rfl rfl).elim
  text _ hnew := by
    cases hnew
    cases hw with
    | shared hb' hbuf hlen hcap =>
      rw [hb, Option.some.injEq] at hb'
      subst hb'
      exact ⟨_, hbuf, hlen, hcap⟩

/-- The block is freed, with its buffer. -/
theorem BlockChange.free (hb : m.sharedStrings.load ss = some b) {cs : Chars}
    (hbuf : m.chars.load b.buf = some cs) {structs : Heap SharedString}
    (hload : ∀ a, structs.load a = if a = ss then none else m.sharedStrings.load a) :
    BlockChange m { m with chars := m.chars.put b.buf none, sharedStrings := structs } ss (some b)
      none [] where
  old_eq := hb
  load := hload
  strings := rfl
  sharedLiterals := rfl
  kept c hne _ := Heap.load_put_of_ne _ (hne b rfl) _
  freed _ hold _ := by
    cases hold
    exact Heap.load_put_self hbuf _
  fresh _ hnew _ := by cases hnew
  text _ hnew := by cases hnew

/-- The characters of the buffer change, and the length with them. -/
theorem BlockChange.write (hb : m.sharedStrings.load ss = some b) {cs : Chars}
    (hbuf : m.chars.load b.buf = some cs) {rest : Chars} (hcap : b.cap = w.length + 1 + rest.length) :
    BlockChange m
      { m with
        chars := m.chars.put b.buf (some ((w ++ [0]).map some ++ rest))
        sharedStrings := m.sharedStrings.put ss (some { b with len := w.length }) }
      ss (some b) (some { b with len := w.length }) w where
  old_eq := hb
  load a := Heap.load_put hb _ a
  strings := rfl
  sharedLiterals := rfl
  kept c hne _ := Heap.load_put_of_ne _ (hne b rfl) _
  freed _ hold hne := by
    cases hold
    exact (hne _ rfl rfl).elim
  fresh _ hnew hne := by
    cases hnew
    exact (hne b rfl rfl).elim
  text _ hnew := by
    cases hnew
    exact ⟨rest, Heap.load_put_self hbuf _, rfl, hcap⟩

/-- The buffer is reallocated. -/
theorem BlockChange.grow (hb : m.sharedStrings.load ss = some b) (hw : HasText m (.shared ss) w)
    {newCap : Nat} (hle : b.cap ≤ newCap) :
    ∃ buf m₁ m₂, m.reallocChars b.buf newCap = some (buf, m₁) ∧
      m₁.storeShared ss { b with buf := buf, cap := newCap } = some m₂ ∧
      BlockChange m m₂ ss (some b) (some { b with buf := buf, cap := newCap }) w ∧
      m.chars.load buf = none := by
  cases hw with
  | @shared _ _ _ rest hb' hbuf hlen hcap =>
    rw [hb, Option.some.injEq] at hb'
    subst hb'
    obtain ⟨block, hblock⟩ : ∃ block, (w ++ [0]).map some ++ rest = block := ⟨_, rfl⟩
    have hsize : block.length = b.cap := by
      rw [← hblock, hcap]
      simp
      omega
    obtain ⟨buf, chars, halloc⟩ : ∃ buf chars,
        m.chars.alloc (block ++ List.replicate (newCap - block.length) none) = (buf, chars) :=
      ⟨_, _, rfl⟩
    have hload := Heap.load_alloc m.chars (block ++ List.replicate (newCap - block.length) none)
    have hfresh := Heap.load_alloc_fst m.chars
      (block ++ List.replicate (newCap - block.length) none)
    rw [halloc] at hload hfresh
    rw [hblock] at hbuf
    -- The grown block is a new one: the old one is freed once its cells are copied.
    have hne : b.buf ≠ buf := by
      intro hsame
      rw [hsame, hfresh] at hbuf
      cases hbuf
    have hold : chars.load b.buf = some block := by rw [hload, if_neg hne, hbuf]
    have hrealloc : m.reallocChars b.buf newCap =
        some (buf, { m with chars := chars.put b.buf none }) := by
      simp only [StringMem.reallocChars, hbuf, Option.bind_eq_bind, Option.bind_some, halloc,
        Heap.free_eq hold]
    have hstore : StringMem.storeShared { m with chars := chars.put b.buf none } ss
        { b with buf := buf, cap := newCap } = some { m with
          chars := chars.put b.buf none
          sharedStrings := m.sharedStrings.put ss (some { b with buf := buf, cap := newCap }) } := by
      simp only [StringMem.storeShared, Heap.store_eq hb, Option.bind_eq_bind, Option.bind_some]
    refine ⟨buf, _, _, hrealloc, hstore, ⟨hb, Heap.load_put hb _, rfl, rfl, ?_, ?_, ?_, ?_⟩, hfresh⟩
    · intro c hc hc'
      show (chars.put b.buf none).load c = _
      rw [Heap.load_put_of_ne _ (hc b rfl), hload, if_neg (hc' _ rfl)]
    · intro b' hb' _
      cases hb'
      exact Heap.load_put_self hold _
    · intro b' hb' _
      cases hb'
      exact hfresh
    · intro b' hb'
      cases hb'
      refine ⟨rest ++ List.replicate (newCap - block.length) none, ?_, hlen, ?_⟩
      · show (chars.put b.buf none).load buf = _
        rw [Heap.load_put_of_ne _ (Ne.symm hne), hload, if_pos rfl, ← hblock, List.append_assoc]
      · simp only [List.length_append, List.length_replicate]
        omega

end Changes

/-! ## Literals -/

section Literal

variable {m : StringMem} {texts : Texts} {held held' : List StringT} {lits : Heap SharedLiteral}
  {sl : Nat}

/-- **A literal may change as long as its count is right.** -/
theorem StringsInv.changeLiteral (hinv : StringsInv m texts held) (held' : List StringT)
    (lits : Heap SharedLiteral) (sl : Nat)
    (hload : ∀ a, a ≠ sl → lits.load a = m.sharedLiterals.load a)
    (hself : ∀ l, lits.load sl = some l → (∃ w, m.cstr l.literal = some w ∧ l.len = w.length) ∧
      ∃ bs, (l.literal.block, bs) ∈ texts)
    (hcount : (lits.load sl).map SharedLiteral.refCount =
      if refs m held' (.literal sl) = 0 then none else some (refs m held' (.literal sl)))
    (hother : ∀ x, x ≠ .literal sl → refs m held' x = refs m held x) :
    StringsInv { m with sharedLiterals := lits } texts held' ∧
      ∀ x w, x ≠ .literal sl → HasText m x w → HasText { m with sharedLiterals := lits } x w := by
  have hsame : ∀ x, x ≠ .literal sl →
      refCountOf { m with sharedLiterals := lits } x = refCountOf m x := by
    intro x hx
    cases x with
    | literal a => rw [refCountOf, hload a fun ha => hx (by rw [ha]), refCountOf]
    | shared ss => rfl
  -- Other strings do not see the record that is written.
  have htexts : ∀ x w, x ≠ .literal sl → HasText m x w →
      HasText { m with sharedLiterals := lits } x w := by
    intro x w hx hw
    refine hw.congr (fun _ _ => rfl) ?_ (fun _ _ hcs => hcs) fun _ _ hcs => hcs
    rintro a rfl
    exact hload a fun ha => hx (by rw [ha])
  refine ⟨⟨fun x => ?_, fun x n hx => ?_, hinv.buf_inj, hinv.buf_notText, ?_, hinv.text_kept,
    hinv.accounted⟩, htexts⟩
  · show _ = if refs m held' x = 0 then none else some (refs m held' x)
    by_cases hx : x = .literal sl
    · rw [hx, refCountOf, hcount]
    · rw [hother x hx, ← hinv.counted x, hsame x hx]
  · by_cases hsl : x = .literal sl
    · rw [hsl, refCountOf] at hx
      obtain ⟨l, hl, -⟩ := Option.map_eq_some_iff.mp hx
      obtain ⟨⟨w, hw, hlen⟩, -⟩ := hself l hl
      exact ⟨w, hsl ▸ .literal hl hw hlen⟩
    · rw [hsame x hsl] at hx
      obtain ⟨w, hw⟩ := hinv.formed x n hx
      exact ⟨w, htexts x w hsl hw⟩
  · intro a l hl
    by_cases ha : a = sl
    · exact (hself l (ha ▸ hl)).2
    · exact hinv.literal_text ((hload a ha).symm.trans hl)

end Literal

end Chlibs.Util

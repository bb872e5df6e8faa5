import Chlibs.Infra.Transition
import Chlibs.Util.StringModify

/-!
# Strings are independent values

* `StringOp.exec_spec` — every operation does to the memory what it does to values.
* `strings_independent` — through any run of operations each string is a value of its own.
-/

namespace Chlibs.Util

open Infra

variable {m m' : StringMem} {texts : Texts} {held : List StringT}

/-! ## New strings -/

section Create

/-- **A new string** gets the reference that is held for it. -/
theorem StringsInv.newStringT {m₁ : StringMem} {x : StringT} {w : Bytes}
    (h : StringsInv m₁ texts [x]) (hstrings : m₁.strings = m.strings) (hx : HasText m₁ x w)
    (hkept : ∀ {y v}, HasText m y v → HasText m₁ y v) :
    m.strings.load (m₁.newStringT x).1 = none ∧
      Modified m (m₁.newStringT x).2 texts (m₁.newStringT x).1 w := by
  have hload : ∀ s, (m₁.newStringT x).2.strings.load s =
      if s = (m₁.newStringT x).1 then some x else m.strings.load s := by
    intro s
    rw [← hstrings]
    exact Heap.load_alloc _ _ _
  have hfresh : m.strings.load (m₁.newStringT x).1 = none := by
    rw [← hstrings]
    exact Heap.load_alloc_fst m₁.strings x
  refine ⟨hfresh, h.alloc, ⟨x, by rw [hload, if_pos rfl], hx.strings _⟩,
    fun s' hne => by rw [hload, if_neg hne], ?_⟩
  intro s' y v _ _ hv
  exact (hkept hv).strings _

/-- A new string with a block of its own. -/
theorem newShared_spec (h : StringsInv m texts []) {cstr : Option CharPtr} {w : Bytes} {cap : Nat}
    (hnull : cstr = none → cap = 1) (hsrc : IsSource m cstr w) :
    ∃ s m', (newSharedString m cstr w.length cap).map
        (fun r => r.2.newStringT (.shared r.1)) = some (s, m') ∧
      m.strings.load s = none ∧ Modified m m' texts s w := by
  obtain ⟨ss, b, m₁, hnew, hchange, hone, -⟩ := newSharedString_eq hnull hsrc
  refine ⟨_, _, by rw [hnew, Option.map_some], (h.newShared hchange hone).newStringT
    hchange.strings (hchange.hasText rfl) fun hv => hchange.text_kept h ?_ hv⟩
  rintro rfl
  cases hv with
  | shared hb _ _ _ =>
    rw [hchange.old_eq] at hb
    cases hb

theorem newString_spec (h : StringsInv m texts []) :
    ∃ s m', newString m = some (s, m') ∧ m.strings.load s = none ∧ Modified m m' texts s [] := by
  obtain ⟨s, m', hnew, hs, hmodified⟩ := newShared_spec h (fun _ => rfl)
    (show IsSource m none [] from rfl)
  refine ⟨s, m', ?_, hs, hmodified⟩
  rw [newString, ← hnew, Option.map_eq_bind]
  rfl

/-- The text at a place, for a `memcpy`. -/
theorem loadChars_of_cstr {p : CharPtr} {t : Bytes} (h : m.cstr p = some t) :
    m.loadChars p t.length = some (t.map some) := by
  obtain ⟨block, hblock, hcstr⟩ := Option.bind_eq_some_iff.mp h
  obtain ⟨rest, hrest⟩ := Chars.eq_of_cstr hcstr
  have hlen := congrArg List.length hrest
  simp only [List.length_drop, List.length_append, List.length_map, List.length_singleton] at hlen
  simp only [StringMem.loadChars, hblock, Option.bind_eq_bind, Option.bind_some]
  rw [if_pos (by omega), hrest, List.map_append, List.append_assoc, List.take_left' (by simp)]

theorem newStringFromCstr_spec (h : StringsInv m texts []) {p : CharPtr} {t : Bytes}
    (ht : m.cstr p = some t) : ∃ s m', newStringFromCstr m (some p) = some (s, m') ∧
      m.strings.load s = none ∧ Modified m m' texts s t := by
  have hnull : some p = none → t.length + 1 = 1 := fun h => by cases h
  obtain ⟨s, m', hnew, hs, hmodified⟩ := newShared_spec h hnull (loadChars_of_cstr ht)
  refine ⟨s, m', ?_, hs, hmodified⟩
  simp only [newStringFromCstr, StringMem.strlen, ht, Option.map_some, Option.bind_eq_bind,
    Option.bind_some]
  rw [← hnew, Option.map_eq_bind]
  rfl

theorem newStringFromLiteral_spec (h : StringsInv m texts []) {p : CharPtr} {t bs : Bytes}
    (hp : (p.block, bs) ∈ texts) (ht : m.cstr p = some t) :
    ∃ s m', newStringFromLiteral m (some p) = some (s, m') ∧
      m.strings.load s = none ∧ Modified m m' texts s t := by
  obtain ⟨sl, lits, halloc⟩ : ∃ sl lits, m.sharedLiterals.alloc ⟨1, t.length, p⟩ = (sl, lits) :=
    ⟨_, _, rfl⟩
  have hload := Heap.load_alloc m.sharedLiterals ⟨1, t.length, p⟩
  have hfresh := Heap.load_alloc_fst m.sharedLiterals ⟨1, t.length, p⟩
  rw [halloc] at hload hfresh
  have hself : lits.load sl = some ⟨1, t.length, p⟩ := by rw [hload, if_pos rfl]
  have hzero : refs m [] (.literal sl) = 0 :=
    h.refs_eq_zero (by rw [refCountOf, hfresh]; rfl)
  obtain ⟨hinv, hkept⟩ := h.changeLiteral [.literal sl] lits sl
    (fun a ha => by rw [hload, if_neg ha])
    (fun l hl => by
      rw [hself, Option.some.injEq] at hl
      rw [← hl]
      exact ⟨⟨t, ht, rfl⟩, bs, hp⟩)
    (by rw [hself, refs_cons_self, hzero]; rfl)
    fun x hx => refs_cons_of_ne m [] hx
  refine ⟨_, _, ?_, hinv.newStringT rfl (.literal hself ht rfl) fun hv => hkept _ _ ?_ hv⟩
  · simp only [newStringFromLiteral, StringMem.strlen, ht, Option.map_some, Option.bind_eq_bind,
      Option.bind_some, halloc]
  · rintro rfl
    cases hv with
    | literal hl _ _ =>
      rw [hfresh] at hl
      cases hl

/-- **A copy** is a second reference to the same block. -/
theorem sCopy_spec (h : StringsInv m texts []) {s : Nat} {x : StringT} {w : Bytes}
    (hs : m.strings.load s = some x) (hx : HasText m x w) :
    ∃ s' m', sCopy m s = some (s', m') ∧ m.strings.load s' = none ∧ Modified m m' texts s' w := by
  have hcounted := h.counted x
  rw [if_neg (refs_ne_zero hs [])] at hcounted
  simp only [sCopy, hs, Option.bind_eq_bind, Option.bind_some]
  cases x with
  | literal sl =>
    rw [refCountOf] at hcounted
    obtain ⟨l, hl, hcount⟩ := Option.map_eq_some_iff.mp hcounted
    have hsource := h.literal_text hl
    cases hx with
    | @literal _ l' _ hl' htext hlen =>
      rw [hl, Option.some.injEq] at hl'
      subst hl'
      -- The copy has a reference to the same literal, so the text is not copied.
      have hself := Heap.load_put_self hl (some { l with refCount := l.refCount + 1 })
      obtain ⟨hinv, hkept⟩ := h.changeLiteral [.literal sl]
        (m.sharedLiterals.put sl (some { l with refCount := l.refCount + 1 })) sl
        (fun a ha => Heap.load_put_of_ne _ ha _)
        (fun l' hl' => by
          rw [hself, Option.some.injEq] at hl'
          rw [← hl']
          exact ⟨⟨w, htext, hlen⟩, hsource⟩)
        (by rw [hself, refs_cons_self, if_neg (Nat.succ_ne_zero _), Option.map_some, hcount])
        fun y hy => refs_cons_of_ne m [] hy
      have htext' : HasText { m with
          sharedLiterals := m.sharedLiterals.put sl (some { l with refCount := l.refCount + 1 }) }
          (.literal sl) w := .literal hself htext hlen
      refine ⟨_, _, ?_, hinv.newStringT rfl htext' fun {y v} hv => ?_⟩
      · simp only [hl, Option.bind_some, StringMem.storeLiteral, Heap.store_eq hl,
          Option.bind_eq_bind]
      · by_cases hy : y = .literal sl
        · subst hy
          rw [hv.unique (.literal hl htext hlen)]
          exact htext'
        · exact hkept y v hy hv
  | shared ss =>
    rw [refCountOf] at hcounted
    obtain ⟨b, hb, hcount⟩ := Option.map_eq_some_iff.mp hcounted
    have hchange := BlockChange.count hb hx (b.refCount + 1)
    have hinv : StringsInv _ texts [.shared ss] := h.change hchange
      (by rw [refs_cons_self, if_neg (Nat.succ_ne_zero _), Option.map_some, hcount])
      fun y hy => refs_cons_of_ne m [] hy
    refine ⟨_, _, ?_, hinv.newStringT rfl (hchange.hasText rfl) fun {y v} hv => ?_⟩
    · simp only [hb, Option.bind_some, StringMem.storeShared, Heap.store_eq hb,
        Option.bind_eq_bind]
    · by_cases hy : y = .shared ss
      · subst hy
        rw [hv.unique hx]
        exact hchange.hasText rfl
      · exact hchange.text_kept h hy hv

theorem deleteString_spec (h : StringsInv m texts []) {s : Nat} {x : StringT}
    (hs : m.strings.load s = some x) :
    ∃ m', deleteString m s = some m' ∧ StringsInv m' texts [] ∧ m'.strings.load s = none ∧
      (∀ s', s' ≠ s → m'.strings.load s' = m.strings.load s') ∧
      ∀ {s' y v}, s' ≠ s → m.strings.load s' = some y → HasText m y v → HasText m' y v := by
  obtain ⟨m₁, hrelease, hstrings, hreleased⟩ := sReleaseShared_spec hs (h.free hs)
  have hother : ∀ s', s' ≠ s → (m.strings.put s none).load s' = m.strings.load s' :=
    fun s' hne => Heap.load_put_of_ne _ hne _
  refine ⟨_, ?_, hreleased.inv, Heap.load_put_self hs none, hother, fun {s' y v} hne hy hv => ?_⟩
  · simp only [deleteString, hrelease, Option.bind_eq_bind, Option.bind_some,
      StringMem.freeStringT, hstrings, Heap.free_eq hs]
  · have hy' : (m.strings.put s none).load s' = some y := (hother s' hne).trans hy
    exact hreleased.text_kept (refs_ne_zero hy' []) (hv.strings _)

end Create

/-! ## Runs -/

/-- The operations, less a caller's making a text of its own. -/
inductive StringOp where
  | newString
  | newStringFromCstr (cstr : Option CharPtr)
  | newStringFromLiteral (literal : Option CharPtr)
  | sCopy (s : Nat)
  | sAppendChar (s : Nat) (c : UInt8)
  | sAppendCstr (s : Nat) (addition : CharPtr)
  | sAppendString (s addition : Nat)
  | sSetChar (s i : Nat) (c : UInt8)
  | deleteString (s : Nat)

/-- The memory, what the callers' texts are, and what each string would be if strings were
values. -/
structure Strings where
  mem : StringMem
  texts : Texts
  values : Nat → Option Bytes

namespace StringOp

/-- The string that is made or changed, and the memory. -/
def exec (m : StringMem) : StringOp → Option (Nat × StringMem)
  | newString => Util.newString m
  | newStringFromCstr cstr => Util.newStringFromCstr m cstr
  | newStringFromLiteral literal => Util.newStringFromLiteral m literal
  | sCopy s => Util.sCopy m s
  | sAppendChar s c => (Util.sAppendChar m s c).map (s, ·)
  | sAppendCstr s addition => (Util.sAppendCstr m s addition).map (s, ·)
  | sAppendString s addition => (Util.sAppendString m s addition).map (s, ·)
  | sSetChar s i c => (Util.sSetChar m s i c).map (s, ·)
  | deleteString s => (Util.deleteString m s).map (s, ·)

/-- What the callers see to: strings are there, pointers are to C text, a literal is a text of
the caller, text to append is not in the buffer it is appended to, an index is in range. -/
def Allowed (σ : Strings) : StringOp → Prop
  | newString => True
  | newStringFromCstr none => True
  | newStringFromCstr (some cstr) => ∃ t, σ.mem.cstr cstr = some t
  | newStringFromLiteral none => True
  | newStringFromLiteral (some literal) =>
    (∃ bs, (literal.block, bs) ∈ σ.texts) ∧ ∃ t, σ.mem.cstr literal = some t
  | sCopy s => σ.values s ≠ none
  | sAppendChar s _ => σ.values s ≠ none
  | sAppendCstr s addition => σ.values s ≠ none ∧ (∃ t, σ.mem.cstr addition = some t) ∧
      ¬OwnBuffer σ.mem s addition.block
  | sAppendString s addition => σ.values s ≠ none ∧ σ.values addition ≠ none ∧ addition ≠ s
  | sSetChar s i _ => ∃ w, σ.values s = some w ∧ i < w.length
  | deleteString s => σ.values s ≠ none

/-- What the operation gives on values; `none` is a string that is gone. -/
def value (σ : Strings) : StringOp → Option Bytes
  | newString => some []
  | newStringFromCstr none => some []
  | newStringFromCstr (some cstr) => σ.mem.cstr cstr
  | newStringFromLiteral none => some []
  | newStringFromLiteral (some literal) => σ.mem.cstr literal
  | sCopy s => σ.values s
  | sAppendChar s c => (σ.values s).map (· ++ [c])
  | sAppendCstr s addition => do some ((← σ.values s) ++ (← σ.mem.cstr addition))
  | sAppendString s addition => do some ((← σ.values s) ++ cString (← σ.values addition))
  | sSetChar s i c => (σ.values s).map (·.set i c)
  | deleteString _ => none

end StringOp

/-- A caller makes a text, or an operation runs. -/
inductive Strings.Step (σ : Strings) : Strings → Prop
  | text (bs : Bytes) : Step σ
      { σ with
        mem := { σ.mem with chars := (σ.mem.chars.alloc (bs.map some)).2 }
        texts := ((σ.mem.chars.alloc (bs.map some)).1, bs) :: σ.texts }
  | op {op : StringOp} {s : Nat} {m : StringMem} (hallowed : op.Allowed σ)
      (hexec : op.exec σ.mem = some (s, m)) :
      Step σ { σ with mem := m, values := Function.update σ.values s (op.value σ) }

/-- From an empty memory on. -/
def stringSystem : TransitionSystem Strings where
  init σ := σ = ⟨.empty, [], fun _ => none⟩
  step := Strings.Step

/-- Each string is the value that it would be. -/
def Denotes (m : StringMem) (values : Nat → Option Bytes) : Prop :=
  ∀ s, match values s with
    | none => m.strings.load s = none
    | some w => ∃ x, m.strings.load s = some x ∧ HasText m x w

section Runs

variable {values : Nat → Option Bytes} {s : Nat} {w : Bytes}

theorem Denotes.load (h : Denotes m values) (hs : values s = some w) :
    ∃ x, m.strings.load s = some x ∧ HasText m x w := by
  have := h s
  rwa [hs] at this

/-- When the other strings are as before, they have the values that they had. -/
theorem Denotes.update (h : Denotes m values) {v : Option Bytes}
    (hself : match v with
      | none => m'.strings.load s = none
      | some w => ∃ x, m'.strings.load s = some x ∧ HasText m' x w)
    (hothers : ∀ s', s' ≠ s → m'.strings.load s' = m.strings.load s')
    (hkept : ∀ {s' y v}, s' ≠ s → m.strings.load s' = some y → HasText m y v →
      HasText m' y v) : Denotes m' (Function.update values s v) := by
  intro s'
  by_cases hne : s' = s
  · subst hne
    rw [Function.update_self]
    exact hself
  · rw [Function.update_of_ne hne]
    have hd := h s'
    cases hv : values s' with
    | none =>
      rw [hv] at hd
      exact (hothers s' hne).trans hd
    | some w =>
      rw [hv] at hd
      obtain ⟨x, hx, hw⟩ := hd
      exact ⟨x, (hothers s' hne).trans hx, hkept hne hx hw⟩

theorem Denotes.modified (h : Denotes m values) (hm : Modified m m' texts s w) :
    Denotes m' (Function.update values s (some w)) :=
  h.update hm.text hm.others hm.kept

/-- **Every allowed operation is defined**, and does to the memory what it does to values. -/
theorem StringOp.exec_spec {σ : Strings} (hinv : StringsInv σ.mem σ.texts [])
    (hd : Denotes σ.mem σ.values) {op : StringOp} (h : op.Allowed σ) :
    ∃ s m', op.exec σ.mem = some (s, m') ∧ StringsInv m' σ.texts [] ∧
      Denotes m' (Function.update σ.values s (op.value σ)) := by
  -- What modifies a string, or makes one.
  have hdone : ∀ {s m' w}, op.exec σ.mem = some (s, m') → op.value σ = some w →
      Modified σ.mem m' σ.texts s w → ∃ s m', op.exec σ.mem = some (s, m') ∧
        StringsInv m' σ.texts [] ∧ Denotes m' (Function.update σ.values s (op.value σ)) := by
    intro s m' w hexec hvalue hm
    rw [hvalue]
    exact ⟨s, m', hexec, hm.inv, hd.modified hm⟩
  cases op with
  | newString =>
    obtain ⟨s, m', hexec, -, hm⟩ := newString_spec hinv
    exact hdone hexec rfl hm
  | newStringFromCstr cstr =>
    cases cstr with
    | none =>
      obtain ⟨s, m', hexec, -, hm⟩ := newString_spec hinv
      exact hdone hexec rfl hm
    | some p =>
      obtain ⟨t, ht⟩ := h
      obtain ⟨s, m', hexec, -, hm⟩ := newStringFromCstr_spec hinv ht
      exact hdone hexec ht hm
  | newStringFromLiteral literal =>
    cases literal with
    | none =>
      obtain ⟨s, m', hexec, -, hm⟩ := newString_spec hinv
      exact hdone hexec rfl hm
    | some p =>
      obtain ⟨⟨bs, hbs⟩, t, ht⟩ := h
      obtain ⟨s, m', hexec, -, hm⟩ := newStringFromLiteral_spec hinv hbs ht
      exact hdone hexec ht hm
  | sCopy s =>
    obtain ⟨w, hw⟩ := Option.ne_none_iff_exists'.mp h
    obtain ⟨x, hs, hx⟩ := hd.load hw
    obtain ⟨s', m', hexec, -, hm⟩ := sCopy_spec hinv hs hx
    exact hdone hexec hw hm
  | sAppendChar s c =>
    obtain ⟨w, hw⟩ := Option.ne_none_iff_exists'.mp h
    obtain ⟨x, hs, hx⟩ := hd.load hw
    obtain ⟨m', hexec, hm⟩ := sAppendChar_spec hinv hs hx c
    exact hdone (s := s) (by rw [exec, hexec]; rfl) (by rw [value, hw]; rfl) hm
  | sAppendCstr s addition =>
    obtain ⟨hw, ⟨t, ht⟩, hown⟩ := h
    obtain ⟨w, hw⟩ := Option.ne_none_iff_exists'.mp hw
    obtain ⟨x, hs, hx⟩ := hd.load hw
    obtain ⟨m', hexec, hm⟩ := sAppendCstr_spec hinv hs hx ht hown
    exact hdone (s := s) (by rw [exec, hexec]; rfl) (by rw [value, hw, ht]; rfl) hm
  | sAppendString s addition =>
    obtain ⟨hw, hv, hne⟩ := h
    obtain ⟨w, hw⟩ := Option.ne_none_iff_exists'.mp hw
    obtain ⟨v, hv⟩ := Option.ne_none_iff_exists'.mp hv
    obtain ⟨x, hs, hx⟩ := hd.load hw
    obtain ⟨y, hs', hy⟩ := hd.load hv
    obtain ⟨m', hexec, hm⟩ := sAppendString_spec hinv hs hx hne hs' hy
    exact hdone (s := s) (by rw [exec, hexec]; rfl) (by rw [value, hw, hv]; rfl) hm
  | sSetChar s i c =>
    obtain ⟨w, hw, hi⟩ := h
    obtain ⟨x, hs, hx⟩ := hd.load hw
    obtain ⟨m', hexec, hm⟩ := sSetChar_spec hinv hs hx hi c
    exact hdone (s := s) (by rw [exec, hexec]; rfl) (by rw [value, hw]; rfl) hm
  | deleteString s =>
    obtain ⟨w, hw⟩ := Option.ne_none_iff_exists'.mp h
    obtain ⟨x, hs, hx⟩ := hd.load hw
    obtain ⟨m', hexec, hinv', hgone, hothers, hkept⟩ := deleteString_spec hinv hs
    exact ⟨s, m', by rw [exec, hexec]; rfl, hinv', hd.update hgone hothers hkept⟩

/-- A new block of characters is in nobody's way. -/
theorem load_allocChars {c : Nat} {cs : Chars} (hc : m.chars.load c = some cs) (block : Chars) :
    (m.chars.alloc block).2.load c = some cs := Heap.load_alloc_of_some hc block

theorem HasText.allocChars {x : StringT} (h : HasText m x w) (block : Chars) :
    HasText { m with chars := (m.chars.alloc block).2 } x w :=
  h.congr (fun _ _ => rfl) (fun _ _ => rfl) (fun _ _ hcs => load_allocChars hcs block)
    fun _ _ hcs => load_allocChars hcs block

/-- A caller's text is a block of its own. -/
theorem StringsInv.text (h : StringsInv m texts held) (bs : Bytes) :
    StringsInv { m with chars := (m.chars.alloc (bs.map some)).2 }
      (((m.chars.alloc (bs.map some)).1, bs) :: texts) held := by
  refine ⟨h.counted, fun x n hx => ?_, h.buf_inj, fun hb bs' hbs' => ?_, fun hl => ?_,
    fun {t bs'} hbs' => ?_, fun {c cs} hc => ?_⟩
  · obtain ⟨w, hw⟩ := h.formed x n hx
    exact ⟨w, hw.allocChars _⟩
  · rcases List.mem_cons.mp hbs' with heq | hmem
    · obtain ⟨cs, hcs⟩ := h.buf_live hb
      exact Heap.ne_alloc_fst hcs _ (Prod.mk.inj heq).1
    · exact h.buf_notText hb bs' hmem
  · obtain ⟨bs', hbs'⟩ := h.literal_text hl
    exact ⟨bs', List.mem_cons_of_mem _ hbs'⟩
  · rcases List.mem_cons.mp hbs' with heq | hmem
    · obtain ⟨rfl, rfl⟩ := Prod.mk.inj heq
      show (m.chars.alloc (bs'.map some)).2.load (m.chars.alloc (bs'.map some)).1 = _
      rw [Heap.load_alloc, if_pos rfl]
    · exact load_allocChars (h.text_kept hmem) _
  · have hc' : (m.chars.alloc (bs.map some)).2.load c = some cs := hc
    rw [Heap.load_alloc] at hc'
    split at hc'
    · next hblock => exact .inl ⟨bs, by rw [hblock]; exact List.mem_cons_self⟩
    · rcases h.accounted hc' with ⟨bs', hbs'⟩ | hbuf
      · exact .inl ⟨bs', List.mem_cons_of_mem _ hbs'⟩
      · exact .inr hbuf

end Runs

/-! ## Strings as values -/

/-- What is true of the memory and of the values at any time. -/
structure Independent (σ : Strings) : Prop where
  /-- contents and length are those of the value -/
  contents : ∀ s w, σ.values s = some w → sLen σ.mem s = some w.length ∧
    ∀ i (hi : i < w.length), sGetChar σ.mem s i = some w[i]
  deleted : ∀ s, σ.values s = none ↔ σ.mem.strings.load s = none
  /-- no literal has changed -/
  texts : ∀ t bs, (t, bs) ∈ σ.texts → σ.mem.chars.load t = some (bs.map some)
  /-- a block is there while strings point to it, and counts them -/
  counted : ∀ x, refCountOf σ.mem x =
    if σ.mem.strings.count (· == x) = 0 then none else some (σ.mem.strings.count (· == x))
  buffers : ∀ ss b, σ.mem.sharedStrings.load ss = some b → ∃ cs,
    σ.mem.chars.load b.buf = some cs ∧ cs.length = b.cap ∧ b.len + 1 ≤ b.cap ∧
      cs[b.len]? = some (some 0)
  /-- a buffer is there while its block is -/
  released : ∀ c cs, σ.mem.chars.load c = some cs → (∃ bs, (c, bs) ∈ σ.texts) ∨
    ∃ ss b, σ.mem.sharedStrings.load ss = some b ∧ b.buf = c
  /-- no operation meets anything undefined -/
  defined : ∀ op : StringOp, op.Allowed σ → ∃ s m, op.exec σ.mem = some (s, m)

theorem independent_of_inv {σ : Strings} (hinv : StringsInv σ.mem σ.texts [])
    (hd : Denotes σ.mem σ.values) : Independent σ where
  contents s w hw := by
    obtain ⟨x, hs, hx⟩ := hd.load hw
    exact ⟨sLen_eq hs hx, fun i hi => sGetChar_eq hs hx hi⟩
  deleted s := by
    constructor
    · intro hv
      have := hd s
      rwa [hv] at this
    · intro hs
      by_contra hv
      obtain ⟨w, hw⟩ := Option.ne_none_iff_exists'.mp hv
      obtain ⟨x, hx, -⟩ := hd.load hw
      rw [hs] at hx
      cases hx
  texts _ _ hbs := hinv.text_kept hbs
  counted := hinv.counted
  buffers ss b hb := by
    obtain ⟨w, hw⟩ := hinv.formed (.shared ss) b.refCount (by rw [refCountOf, hb, Option.map_some])
    cases hw with
    | @shared _ b' _ rest hb' hbuf hlen hcap =>
      rw [hb, Option.some.injEq] at hb'
      subst hb'
      refine ⟨_, hbuf, by rw [hcap]; simp; omega, by omega, ?_⟩
      rw [hlen, List.map_append, List.append_assoc, List.getElem?_append_right (by simp)]
      simp
  released _ _ hc := hinv.accounted hc
  defined op h := by
    obtain ⟨s, m, hexec, -, -⟩ := StringOp.exec_spec hinv hd h
    exact ⟨s, m, hexec⟩

/-- The invariant of the system. -/
theorem stringSystem_inductive :
    stringSystem.Inductive fun σ => StringsInv σ.mem σ.texts [] ∧ Denotes σ.mem σ.values where
  init := by
    rintro σ rfl
    refine ⟨⟨fun x => ?_, fun x n hx => ?_, ?_, ?_, ?_, ?_, ?_⟩, fun s => rfl⟩
    · cases x <;> rfl
    · cases x <;> cases hx
    all_goals
      intros
      simp_all [StringMem.empty]
  step := by
    rintro σ σ' ⟨hinv, hd⟩ hstep
    cases hstep with
    | text bs =>
      refine ⟨hinv.text bs, fun s => ?_⟩
      have hs := hd s
      cases hv : σ.values s with
      | none =>
        rw [hv] at hs
        exact hs
      | some w =>
        rw [hv] at hs
        obtain ⟨x, hx, hw⟩ := hs
        exact ⟨x, hx, hw.allocChars _⟩
    | op hallowed hexec =>
      obtain ⟨s, m, hexec', hinv', hd'⟩ := StringOp.exec_spec hinv hd hallowed
      rw [hexec, Option.some.injEq] at hexec'
      cases hexec'
      exact ⟨hinv', hd'⟩

end Chlibs.Util

import Chlibs.Util.StringValues

/-!
# Substrings

`s_substring` finds the end and the length of the slice, and copies that many characters. It copies
them from the front of the string, wherever the slice starts.

* `sSubstring_spec` — the string that is made, and that the others stay as they are.
* `stringApi` — runs of all operations, with substrings.
* `slicesString_iff` — when the string is the slice that was asked for.
-/

namespace Chlibs.Util

open Infra

variable {m m' : StringMem} {texts : Texts} {s start fin : Nat} {w : Bytes}

/-- `end` is `fin`, which is behind the last character of the slice. -/
def sSubstring (m : StringMem) (s start fin : Nat) : Option (Nat × StringMem) := do
  let cstrLen ← sLen m s
  let cstr ← sGetCstr m s
  let fin := if cstrLen < fin then cstrLen else fin
  if fin ≤ start then newString m
  else if start = 0 ∧ fin = cstrLen then sCopy m s
  else do
    let len := fin - start
    let (ss, m) ← newSharedString m (some cstr) len (len + 1)
    some (m.newStringT (.shared ss))

/-- What is copied: as many characters as the slice has, from the front on. -/
def frontOf (w : Bytes) (start fin : Nat) : Bytes := w.take (min fin w.length - start)

/-- What is asked for: the characters from `start` on, up to `fin` or to the last one. -/
def sliceOf (w : Bytes) (start fin : Nat) : Bytes := (w.take fin).drop start

/-- **The front of a string is as good as a slice of it** if that starts at the front, if it is
empty, or if the string repeats itself there. -/
theorem frontOf_eq_sliceOf (w : Bytes) (start fin : Nat) :
    frontOf w start fin = sliceOf w start fin ↔
      start = 0 ∨ min fin w.length ≤ start ∨ ∀ i, start + i < min fin w.length →
        w[i]? = w[start + i]? := by
  have hcond : (∀ i, start + i < min fin w.length → w[i]? = w[start + i]?) ↔
      start = 0 ∨ min fin w.length ≤ start ∨ ∀ i, start + i < min fin w.length →
        w[i]? = w[start + i]? := by
    constructor
    · exact fun h => Or.inr (Or.inr h)
    · rintro (rfl | hempty | h) i hi
      · rw [Nat.zero_add]
      · omega
      · exact h i hi
  rw [← hcond, List.ext_getElem?_iff]
  refine forall_congr' fun i => ?_
  rw [frontOf, sliceOf, List.getElem?_take, List.getElem?_drop, List.getElem?_take]
  by_cases hi : start + i < min fin w.length
  · rw [if_pos (by omega), if_pos (by omega)]
    exact ⟨fun h _ => h, fun h => h hi⟩
  · refine iff_of_true ?_ fun h => absurd h hi
    rw [if_neg (by omega)]
    by_cases hfin : start + i < fin
    · rw [if_pos hfin, List.getElem?_eq_none (by omega)]
    · rw [if_neg hfin]

/-! ## The memory -/

/-- The first characters, for a `memcpy`. -/
theorem loadChars_take {p : CharPtr} (h : m.loadChars p w.length = some (w.map some)) (n : Nat) :
    m.loadChars p (w.take n).length = some ((w.take n).map some) := by
  obtain ⟨block, hblock, hread⟩ := Option.bind_eq_some_iff.mp h
  obtain ⟨hroom, hread⟩ := (Option.ite_none_right_eq_some).mp hread
  have hlen := List.length_take_le' n w
  simp only [StringMem.loadChars, hblock, Option.bind_eq_bind, Option.bind_some]
  rw [if_pos (by omega), List.map_take, ← Option.some.inj hread, List.take_take, List.length_take]

/-- **The front of the string is a new string**, and all others are as before. -/
theorem sSubstring_spec (h : StringsInv m texts []) {x : StringT} (hs : m.strings.load s = some x)
    (hx : HasText m x w) (start fin : Nat) : ∃ s' m', sSubstring m s start fin = some (s', m') ∧
      m.strings.load s' = none ∧ Modified m m' texts s' (frontOf w start fin) := by
  obtain ⟨p, hp, hread⟩ := loadChars_sGetCstr hs hx
  have hfin : (if w.length < fin then w.length else fin) = min fin w.length := by
    split <;> omega
  simp only [sSubstring, sLen_eq hs hx, hp, Option.bind_eq_bind, Option.bind_some, hfin]
  unfold frontOf
  by_cases hempty : min fin w.length ≤ start
  · -- nothing is asked for
    rw [if_pos hempty, Nat.sub_eq_zero_of_le hempty, List.take_zero]
    exact newString_spec h
  rw [if_neg hempty]
  by_cases hwhole : start = 0 ∧ min fin w.length = w.length
  · -- the whole string is shared
    rw [if_pos hwhole, hwhole.1, hwhole.2, Nat.sub_zero, List.take_length]
    exact sCopy_spec h hs hx
  · rw [if_neg hwhole]
    have hlen : (w.take (min fin w.length - start)).length = min fin w.length - start := by
      rw [List.length_take]
      omega
    have hnull : some p = none → min fin w.length - start + 1 = 1 := fun hnull => by cases hnull
    obtain ⟨s', m', hnew, hfresh, hmodified⟩ := newShared_spec h hnull
      (show IsSource m (some p) _ from loadChars_take hread (min fin w.length - start))
    rw [hlen, Option.map_eq_bind] at hnew
    exact ⟨s', m', hnew, hfresh, hmodified⟩

/-! ## Runs -/

/-- A caller makes a text, an operation runs, or a substring is made. -/
inductive ApiOp where
  | text (bs : Bytes)
  | op (op : StringOp)
  | sSubstring (s start fin : Nat)

/-- What happens. The value of a substring is what is copied. -/
inductive ApiStep (σ : Strings) : ApiOp → Strings → Prop
  | text (bs : Bytes) : ApiStep σ (.text bs)
      { σ with
        mem := { σ.mem with chars := (σ.mem.chars.alloc (bs.map some)).2 }
        texts := ((σ.mem.chars.alloc (bs.map some)).1, bs) :: σ.texts }
  | op {op : StringOp} {s : Nat} {m : StringMem} (hallowed : op.Allowed σ)
      (hexec : op.exec σ.mem = some (s, m)) : ApiStep σ (.op op)
      { σ with mem := m, values := Function.update σ.values s (op.value σ) }
  | sSubstring {s start fin s' : Nat} {w : Bytes} {m : StringMem} (hs : σ.values s = some w)
      (hexec : Util.sSubstring σ.mem s start fin = some (s', m)) :
      ApiStep σ (.sSubstring s start fin)
      { σ with mem := m, values := Function.update σ.values s' (some (frontOf w start fin)) }

/-- Runs from an empty memory on, of steps that meet a condition. -/
def stringApi (P : ApiOp → Prop) : TransitionSystem Strings where
  init σ := σ = ⟨.empty, [], fun _ => none⟩
  step σ σ' := ∃ op, P op ∧ ApiStep σ op σ'

/-- The invariant of the strings is one with substrings as well. -/
theorem stringApi_inductive (P : ApiOp → Prop) :
    (stringApi P).Inductive fun σ => StringsInv σ.mem σ.texts [] ∧ Denotes σ.mem σ.values where
  init := stringSystem_inductive.init
  step := by
    rintro σ σ' ⟨hinv, hd⟩ ⟨op, -, hstep⟩
    cases hstep with
    | text bs => exact stringSystem_inductive.step σ _ ⟨hinv, hd⟩ (.text bs)
    | op hallowed hexec => exact stringSystem_inductive.step σ _ ⟨hinv, hd⟩ (.op hallowed hexec)
    | @sSubstring s start fin s' w m hs hexec =>
      obtain ⟨x, hload, hx⟩ := hd.load hs
      obtain ⟨s₁, m₁, hexec', -, hm⟩ := sSubstring_spec hinv hload hx start fin
      cases hexec.symm.trans hexec'
      exact ⟨hm.inv, hd.modified hm⟩

theorem stringApi_independent {P : ApiOp → Prop} {σ : Strings} (h : (stringApi P).Reachable σ) :
    Independent σ :=
  independent_of_inv ((stringApi_inductive P).reachable h).1 ((stringApi_inductive P).reachable h).2

/-- Any operations. -/
def anyOp (_ : ApiOp) : Prop := True

/--
The call makes a new string of the slice, and however a run goes on, both it and the string that
it is from are values of their own.
-/
def SlicesString (σ : Strings) (s start fin : Nat) (w : Bytes) : Prop :=
  ∃ s' m', sSubstring σ.mem s start fin = some (s', m') ∧ σ.values s' = none ∧
    ∀ σ', Relation.ReflTransGen (stringApi anyOp).step
      ⟨m', σ.texts, Function.update σ.values s' (some (sliceOf w start fin))⟩ σ' → Independent σ'

/-- The slice is made where the front is as good. -/
theorem slicesString_iff_frontOf {σ : Strings} (hσ : (stringApi anyOp).Reachable σ)
    (hs : σ.values s = some w) (start fin : Nat) :
    SlicesString σ s start fin w ↔ frontOf w start fin = sliceOf w start fin := by
  obtain ⟨hinv, hd⟩ := (stringApi_inductive anyOp).reachable hσ
  obtain ⟨x, hload, hx⟩ := hd.load hs
  obtain ⟨s', m', hexec, hfresh, hm⟩ := sSubstring_spec hinv hload hx start fin
  constructor
  · rintro ⟨s₁, m₁, hexec₁, -, hrun⟩
    cases hexec.symm.trans hexec₁
    -- The string has the contents of the slice, and those of the front.
    have hslice := (hrun _ .refl).contents s' (sliceOf w start fin) (Function.update_self ..)
    obtain ⟨y, hy, htext⟩ := hm.text
    have hlen : (frontOf w start fin).length = (sliceOf w start fin).length :=
      Option.some.inj ((sLen_eq hy htext).symm.trans hslice.1)
    refine List.ext_getElem hlen fun i hi hi' => ?_
    exact Option.some.inj ((sGetChar_eq hy htext hi).symm.trans (hslice.2 i hi'))
  · intro heq
    have hnext : (stringApi anyOp).Reachable
        ⟨m', σ.texts, Function.update σ.values s' (some (frontOf w start fin))⟩ :=
      hσ.step ⟨.sSubstring s start fin, trivial, .sSubstring hs hexec⟩
    have hnone : σ.values s' = none := by
      cases hv : σ.values s' with
      | none => rfl
      | some v =>
        obtain ⟨y, hy, -⟩ := hd.load hv
        exact absurd (hfresh.symm.trans hy) (by simp)
    refine ⟨s', m', hexec, hnone, fun σ' hσ' => ?_⟩
    rw [← heq] at hσ'
    exact stringApi_independent (hnext.steps hσ')

/-- **When a substring is the slice.** -/
theorem slicesString_iff {σ : Strings} (hσ : (stringApi anyOp).Reachable σ)
    (hs : σ.values s = some w) (start fin : Nat) :
    SlicesString σ s start fin w ↔ start = 0 ∨ min fin w.length ≤ start ∨
      ∀ i, start + i < min fin w.length → w[i]? = w[start + i]? :=
  (slicesString_iff_frontOf hσ hs start fin).trans (frontOf_eq_sliceOf w start fin)

/-- A string of two characters, from a literal. -/
theorem exists_literal : ∃ σ, (stringApi anyOp).Reachable σ ∧ σ.values 0 = some [72, 105] ∧
    (∃ s' m', sSubstring σ.mem 0 1 2 = some (s', m') ∧ sGetChar m' s' 0 = some 72) := by
  have h₁ := (TransitionSystem.Reachable.init (S := stringApi anyOp) rfl).step
    ⟨_, trivial, ApiStep.text [72, 105, 0]⟩
  have h₂ := h₁.step ⟨_, trivial, @ApiStep.op _ (.newStringFromLiteral (some ⟨0, 0⟩)) _ _
    ⟨⟨_, List.mem_cons_self⟩, [72, 105], rfl⟩ rfl⟩
  exact ⟨_, h₂, rfl, _, _, rfl, rfl⟩

theorem slicesString_iff_literal : ∃ σ, (stringApi anyOp).Reachable σ ∧
    σ.values 0 = some [72, 105] ∧ SlicesString σ 0 0 1 [72, 105] := by
  obtain ⟨σ, hσ, hs, -⟩ := exists_literal
  exact ⟨σ, hσ, hs, (slicesString_iff hσ hs 0 1).mpr (Or.inl rfl)⟩

/-- The second character is asked for, and the first one is copied. -/
theorem not_slicesString : ∃ σ, (stringApi anyOp).Reachable σ ∧ σ.values 0 = some [72, 105] ∧
    (∃ s' m', sSubstring σ.mem 0 1 2 = some (s', m') ∧ sGetChar m' s' 0 = some 72) ∧
    ¬ SlicesString σ 0 1 2 [72, 105] := by
  obtain ⟨σ, hσ, hs, hfirst⟩ := exists_literal
  exact ⟨σ, hσ, hs, hfirst, (slicesString_iff_frontOf hσ hs 1 2).not.mpr (by decide)⟩

end Chlibs.Util

import Chlibs.Infra.Calls

/-!
# Cursors

A container that keeps the place of its iteration in itself is walked by calls of one function,
until that returns nothing. The place is not told from outside: a relation says what the next calls
will return (`Walks`), and the loops over a container are known from it.

* `drain` — all that is left; `checkAll` — a loop that a failed test ends.
* `Walks.drain`, `Walks.checkAll` — what the loops return, also where the test has effects.
* `Walks.onBlock` — the walk over one of the containers in a heap.
-/

namespace Chlibs.Infra

variable {σ α : Type}

/-- `while (a = next())`, for a bounded number of turns. -/
def drain (next : CallM σ (Option α)) : Nat → CallM σ (List α)
  | 0 => failure
  | fuel + 1 => do
    match ← next with
    | none => pure []
    | some a => do
      let as ← drain next fuel
      pure (a :: as)

/-- `while (a = next()) if (!test(a)) return false`, for a bounded number of turns. -/
def checkAll (next : CallM σ (Option α)) (test : α → CallM σ Bool) : Nat → CallM σ Bool
  | 0 => failure
  | fuel + 1 => do
    match ← next with
    | none => pure true
    | some a => do
      if !(← test a) then pure false
      else checkAll next test fuel

/--
`At as s` says that in the state `s` the calls of `next` will return `as`. It may say more of the
state, as long as the calls keep it.
-/
structure Walks (next : CallM σ (Option α)) (At : List α → σ → Prop) : Prop where
  more : ∀ {a as s}, At (a :: as) s → ∃ s', next s = some (some a, s') ∧ At as s'
  done : ∀ {s}, At [] s → ∃ s', next s = some (none, s') ∧ At [] s'

namespace Walks

variable {next : CallM σ (Option α)} {At : List α → σ → Prop}

/-- **All that is left.** -/
theorem drain (h : Walks next At) : ∀ (as : List α) (fuel : Nat) {s : σ}, as.length < fuel →
    At as s → ∃ s', Infra.drain next fuel s = some (as, s') ∧ At [] s'
  | [], fuel + 1, s, _, hat => by
    obtain ⟨s', hrun, hat'⟩ := h.done hat
    exact ⟨s', by rw [Infra.drain, CallM.bind_of_some hrun]; rfl, hat'⟩
  | a :: as, fuel + 1, s, hfuel, hat => by
    obtain ⟨s₁, hrun, hat₁⟩ := h.more hat
    obtain ⟨s', hrest, hat'⟩ := h.drain as fuel (Nat.lt_of_succ_lt_succ hfuel) hat₁
    refine ⟨s', ?_, hat'⟩
    rw [Infra.drain, CallM.bind_of_some hrun]
    exact (CallM.bind_of_some hrest).trans rfl

/--
**A loop that tests what is left**, where the tests keep the place of the iteration. What they find
may depend on more than what they are given: on the `c` that the item is of.
-/
theorem checkAll {γ : Type} (h : Walks next At) (test : α → CallM σ Bool) (item : γ → α)
    (holds : γ → Bool) : ∀ (cs : List γ) (fuel : Nat) {s : σ}, cs.length < fuel →
      At (cs.map item) s →
      (∀ c ∈ cs, ∀ rest s, At rest s → ∃ s', test (item c) s = some (holds c, s') ∧ At rest s') →
      ∃ rest s', Infra.checkAll next test fuel s = some (cs.all holds, s') ∧ At rest s'
  | [], fuel + 1, s, _, hat, _ => by
    obtain ⟨s', hrun, hat'⟩ := h.done hat
    exact ⟨[], s', by rw [Infra.checkAll, CallM.bind_of_some hrun]; rfl, hat'⟩
  | c :: cs, fuel + 1, s, hfuel, hat, htest => by
    obtain ⟨hhead, htail⟩ := List.forall_mem_cons.mp htest
    obtain ⟨s₁, hrun, hat₁⟩ := h.more hat
    obtain ⟨s₂, hrun₂, hat₂⟩ := hhead (cs.map item) s₁ hat₁
    rw [Infra.checkAll, CallM.bind_of_some hrun]
    dsimp only
    rw [CallM.bind_of_some hrun₂, List.all_cons]
    cases holds c with
    | false => exact ⟨cs.map item, s₂, rfl, hat₂⟩
    | true => exact h.checkAll test item holds cs fuel (Nat.lt_of_succ_lt_succ hfuel) hat₂ htail

end Walks

/-- Walking a container in a heap. `Frame` is what is known of the state besides. -/
theorem Walks.onBlock {τ : Type} {next : CallM τ (Option α)} {At : List α → τ → Prop}
    (h : Walks next At) (part : Part σ (Heap τ)) (a : Nat) (Frame : σ → Prop)
    (hframe : ∀ s b b' as as', (part.get s).load a = some b → At as b → At as' b' → Frame s →
      Frame (part.put s a b')) :
    Walks (Infra.onBlock part a next) fun as s =>
      (∃ b, (part.get s).load a = some b ∧ At as b) ∧ Frame s where
  more := by
    rintro x as s ⟨⟨b, hload, hat⟩, hs⟩
    obtain ⟨b', hrun, hat'⟩ := h.more hat
    exact ⟨_, onBlock_of_some hload hrun, ⟨b', Part.load_put_self hload b', hat'⟩,
      hframe s b b' _ _ hload hat hat' hs⟩
  done := by
    rintro s ⟨⟨b, hload, hat⟩, hs⟩
    obtain ⟨b', hrun, hat'⟩ := h.done hat
    exact ⟨_, onBlock_of_some hload hrun, ⟨b', Part.load_put_self hload b', hat'⟩,
      hframe s b b' _ _ hload hat hat' hs⟩

end Chlibs.Infra

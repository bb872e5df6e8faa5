import Chlibs.Infra.Heap
import Chlibs.Infra.Transition

/-!
# Calls

Functions that change a state, and may be undefined.

* `CallM` — a call; `onBlock` — a call on one of the blocks in a heap, which may be a `Part` of the
  state.
* `runCalls` — calls one after the other.
* `runCalls_of_simulation` — if each call does what a machine does, so do any calls.
-/

namespace Chlibs.Infra

/-- A call that changes a state. It is undefined where it gives `none`. -/
abbrev CallM (σ : Type) := StateT σ Option

variable {σ τ α β ι ρ : Type}

theorem CallM.bind_of_some {p : CallM σ α} {f : α → CallM σ β} {s s' : σ} {a : α}
    (h : p s = some (a, s')) : (p >>= f) s = f a s' := by
  show StateT.bind p f s = f a s'
  rw [StateT.bind, h]
  rfl

/-! ## Blocks in a heap -/

/-- A part of a state. -/
structure Part (σ τ : Type) where
  get : σ → τ
  set : σ → τ → σ
  get_set : ∀ s t, get (set s t) = t
  set_get : ∀ s, set s (get s) = s

def Part.whole : Part σ σ where
  get s := s
  set _ t := t
  get_set _ _ := rfl
  set_get _ := rfl

/-- Another block at an address of a heap that is a part of the state. -/
def Part.put (part : Part σ (Heap τ)) (s : σ) (a : Nat) (b : τ) : σ :=
  part.set s ((part.get s).put a (some b))

theorem Part.load_put_self {part : Part σ (Heap τ)} {s : σ} {a : Nat} {b : τ}
    (h : (part.get s).load a = some b) (b' : τ) : (part.get (part.put s a b')).load a = some b' := by
  rw [put, part.get_set, Heap.load_put_self h]

theorem Part.load_put_of_ne (part : Part σ (Heap τ)) (s : σ) {a a' : Nat} (ha : a' ≠ a) (b : τ) :
    (part.get (part.put s a b)).load a' = (part.get s).load a' := by
  rw [put, part.get_set, Heap.load_put_of_ne _ ha]

theorem Part.put_self {part : Part σ (Heap τ)} {s : σ} {a : Nat} {b : τ}
    (h : (part.get s).load a = some b) : part.put s a b = s := by
  rw [put, Heap.put_self h, part.set_get]

/-- A call on the block at an address. -/
def onBlock (part : Part σ (Heap τ)) (a : Nat) (p : CallM τ α) : CallM σ α := fun s => do
  let (x, b) ← p (← (part.get s).load a)
  let h ← (part.get s).store a b
  some (x, part.set s h)

theorem onBlock_of_some {part : Part σ (Heap τ)} {s : σ} {a : Nat} {p : CallM τ α} {b b' : τ} {x : α}
    (hload : (part.get s).load a = some b) (hrun : p b = some (x, b')) :
    onBlock part a p s = some (x, part.put s a b') := by
  simp only [onBlock, hload, hrun, Heap.store_eq hload, Option.bind_eq_bind, Option.bind_some,
    Part.put]

/-! ## Runs -/

/-- The answers of calls that are made one after the other. -/
def runCalls (call : ι → CallM σ ρ) : List ι → CallM σ (List ρ)
  | [] => pure []
  | op :: ops => do
    let ans ← call op
    let anss ← runCalls call ops
    pure (ans :: anss)

/-- **Calls that do what a machine does**, one by one, do so in any run, and all are defined. -/
theorem runCalls_of_simulation {call : ι → CallM σ ρ} {step : τ → ι → ρ × τ} (R : σ → τ → Prop)
    (h : ∀ s t op, R s t → ∃ s', call op s = some ((step t op).1, s') ∧ R s' (step t op).2) :
    ∀ (ops : List ι) (s : σ) (t : τ), R s t →
      ∃ s', runCalls call ops s = some (answers step t ops, s') ∧ R s' (stateAfter step t ops)
  | [], s, _, hst => ⟨s, rfl, hst⟩
  | op :: ops, s, t, hst => by
    obtain ⟨s₁, hcall, hst₁⟩ := h s t op hst
    obtain ⟨s', hrest, hst'⟩ := runCalls_of_simulation R h ops s₁ _ hst₁
    refine ⟨s', ?_, hst'⟩
    rw [runCalls, CallM.bind_of_some hcall, CallM.bind_of_some hrest]
    rfl

end Chlibs.Infra

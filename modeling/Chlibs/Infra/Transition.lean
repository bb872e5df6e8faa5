import Mathlib

/-!
# Transition systems

Reachable states, inductive invariants, and the projection of one system onto another; and
machines that answer each operation, compared by what they answer.
-/

namespace Chlibs.Infra

/-- Initial states and steps. -/
structure TransitionSystem (σ : Type*) where
  init : σ → Prop
  step : σ → σ → Prop

namespace TransitionSystem

variable {σ τ : Type*}

/-- The states that a run from an initial state gets to. -/
inductive Reachable (S : TransitionSystem σ) : σ → Prop
  | init {s : σ} (h : S.init s) : Reachable S s
  | step {s s' : σ} (h : Reachable S s) (hs : S.step s s') : Reachable S s'

/-- A run goes on. -/
theorem Reachable.steps {S : TransitionSystem σ} {s s' : σ} (h : S.Reachable s)
    (hs : Relation.ReflTransGen S.step s s') : S.Reachable s' := by
  induction hs with
  | refl => exact h
  | tail _ hstep ih => exact ih.step hstep

/-- True at the start and kept by every step. -/
structure Inductive (S : TransitionSystem σ) (I : σ → Prop) : Prop where
  init : ∀ s, S.init s → I s
  step : ∀ s s', I s → S.step s s' → I s'

/-- **An inductive property holds of every reachable state.** -/
theorem Inductive.reachable {S : TransitionSystem σ} {I : σ → Prop} (h : S.Inductive I) {s : σ}
    (hs : S.Reachable s) : I s := by
  induction hs with
  | init h0 => exact h.init _ h0
  | step _ hstep ih => exact h.step _ _ ih hstep

/-- A property that is inductive given another one. -/
theorem Inductive.and {S : TransitionSystem σ} {I J : σ → Prop} (hI : S.Inductive I)
    (hinit : ∀ s, S.init s → J s) (hstep : ∀ s s', I s → J s → S.step s s' → J s') :
    S.Inductive fun s => I s ∧ J s where
  init s h := ⟨hI.init s h, hinit s h⟩
  step s s' h hs := ⟨hI.step s s' h.1 hs, hstep s s' h.1 h.2 hs⟩

/-- **A map that takes starts to starts and steps to steps or stutters preserves reachability.** -/
theorem Reachable.map {S : TransitionSystem σ} {T : TransitionSystem τ} {f : σ → τ}
    (hinit : ∀ s, S.init s → T.init (f s))
    (hstep : ∀ s s', S.Reachable s → S.step s s' → T.step (f s) (f s') ∨ f s' = f s) {s : σ}
    (hs : S.Reachable s) : T.Reachable (f s) := by
  induction hs with
  | init h0 => exact .init (hinit _ h0)
  | step h hst ih =>
    rcases hstep _ _ h hst with hst' | he
    · exact .step ih hst'
    · rwa [he]

end TransitionSystem

/-! ## Machines that answer -/

section Answers

variable {σ τ ι ρ : Type*}

/-- The answers to a sequence of operations. -/
def answers (step : σ → ι → ρ × σ) : σ → List ι → List ρ
  | _, [] => []
  | s, op :: ops => (step s op).1 :: answers step (step s op).2 ops

/-- The operations, each with its answer. -/
def events (step : σ → ι → ρ × σ) : σ → List ι → List (ι × ρ)
  | _, [] => []
  | s, op :: ops => (op, (step s op).1) :: events step (step s op).2 ops

/-- The state that a sequence of operations leads to. -/
def stateAfter (step : σ → ι → ρ × σ) (s : σ) (ops : List ι) : σ :=
  ops.foldl (fun s op => (step s op).2) s

theorem stateAfter_append (step : σ → ι → ρ × σ) (s : σ) (ops ops' : List ι) :
    stateAfter step s (ops ++ ops') = stateAfter step (stateAfter step s ops) ops' :=
  List.foldl_append

theorem events_append (step : σ → ι → ρ × σ) : ∀ (s : σ) (ops ops' : List ι),
    events step s (ops ++ ops') = events step s ops ++ events step (stateAfter step s ops) ops'
  | _, [], _ => rfl
  | s, op :: ops, ops' => by
    rw [List.cons_append, events, events, events_append step _ ops ops']
    rfl

theorem events_snoc (step : σ → ι → ρ × σ) (s : σ) (ops : List ι) (op : ι) :
    events step s (ops ++ [op])
      = events step s ops ++ [(op, (step (stateAfter step s ops) op).1)] :=
  events_append step s ops [op]

/-- **Machines whose steps stay related and answer alike cannot be told apart.** -/
theorem answers_eq_of_simulation {step : σ → ι → ρ × σ} {step' : τ → ι → ρ × τ}
    (R : σ → τ → Prop)
    (h : ∀ s t op, R s t → (step s op).1 = (step' t op).1 ∧ R (step s op).2 (step' t op).2) :
    ∀ (ops : List ι) (s : σ) (t : τ), R s t → answers step s ops = answers step' t ops
  | [], _, _, _ => rfl
  | op :: ops, s, t, hst => by
    obtain ⟨hans, hnext⟩ := h s t op hst
    rw [answers, answers, hans, answers_eq_of_simulation R h ops _ _ hnext]

/-- They stay related all the way. -/
theorem stateAfter_of_simulation {step : σ → ι → ρ × σ} {step' : τ → ι → ρ × τ}
    (R : σ → τ → Prop)
    (h : ∀ s t op, R s t → (step s op).1 = (step' t op).1 ∧ R (step s op).2 (step' t op).2) :
    ∀ (ops : List ι) (s : σ) (t : τ), R s t → R (stateAfter step s ops) (stateAfter step' t ops)
  | [], _, _, hst => hst
  | op :: ops, s, t, hst => stateAfter_of_simulation R h ops _ _ (h s t op hst).2

end Answers

end Chlibs.Infra

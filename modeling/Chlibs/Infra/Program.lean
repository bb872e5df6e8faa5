import Mathlib

/-!
# Programs that talk to an environment

A program performs operations one at a time and goes on as their answers tell it. It ends with
a result, or in behaviour that the C standard leaves undefined. Another thread can take a
step between any two operations, so a program is what a small-step system interleaves;
`Prog.run` is the uninterrupted run against one environment, and `Prog.Yields` what it makes of
given answers.
-/

namespace Chlibs.Infra

/-- `Ans o` are the answers to operation `o`. -/
inductive Prog (Op : Type) (Ans : Op → Type) (α : Type) where
  | done (a : α)
  | fault
  | perform (o : Op) (k : Ans o → Prog Op Ans α)

namespace Prog

variable {Op : Type} {Ans : Op → Type} {α β : Type}

protected def bind : Prog Op Ans α → (α → Prog Op Ans β) → Prog Op Ans β
  | done a, f => f a
  | fault, _ => fault
  | perform o k, f => perform o fun ans => (k ans).bind f

instance : Monad (Prog Op Ans) where
  pure := done
  bind := Prog.bind

@[simp] theorem pure_eq (a : α) : (pure a : Prog Op Ans α) = done a := rfl

@[simp] theorem done_bind (a : α) (f : α → Prog Op Ans β) : (done a >>= f) = f a := rfl

@[simp] theorem fault_bind (f : α → Prog Op Ans β) : ((fault : Prog Op Ans α) >>= f) = fault := rfl

@[simp] theorem perform_bind (o : Op) (k : Ans o → Prog Op Ans α) (f : α → Prog Op Ans β) :
    (perform o k >>= f) = perform o fun ans => k ans >>= f := rfl

theorem bind_done (p : Prog Op Ans α) : (p >>= done) = p := by
  induction p with
  | done a => rfl
  | fault => rfl
  | perform o k ih => rw [perform_bind, funext ih]

/-- Every operation that the program may perform is one of these. -/
def Only (P : Op → Prop) : Prog Op Ans α → Prop
  | done _ => True
  | fault => True
  | perform o k => P o ∧ ∀ ans, (k ans).Only P

theorem Only.bind {P : Op → Prop} {p : Prog Op Ans α} {f : α → Prog Op Ans β} (hp : p.Only P)
    (hf : ∀ a, (f a).Only P) : (p >>= f).Only P := by
  induction p with
  | done a => exact hf a
  | fault => trivial
  | perform o k ih => exact ⟨hp.1, fun ans => ih ans (hp.2 ans)⟩

/-- One operation. -/
def call (o : Op) : Prog Op Ans (Ans o) := perform o done

@[simp] theorem call_bind (o : Op) (f : Ans o → Prog Op Ans β) :
    (call o >>= f) = perform o f := rfl

theorem Only.call {P : Op → Prop} {o : Op} {f : Ans o → Prog Op Ans β} (ho : P o)
    (hf : ∀ ans, (f ans).Only P) : (Prog.call o >>= f).Only P := ⟨ho, hf⟩

/-- The program performs no more operations than this, however they are answered. -/
def AtMost : Prog Op Ans α → Nat → Prop
  | done _, _ => True
  | fault, _ => True
  | perform _ _, 0 => False
  | perform _ k, n + 1 => ∀ ans, (k ans).AtMost n

theorem AtMost.mono {p : Prog Op Ans α} {n m : Nat} (h : p.AtMost n) (hle : n ≤ m) :
    p.AtMost m := by
  induction p generalizing n m with
  | done a => trivial
  | fault => trivial
  | perform o k ih =>
    cases n with
    | zero => exact h.elim
    | succ n =>
      obtain ⟨m, rfl⟩ := Nat.exists_eq_add_of_lt (Nat.lt_of_succ_le hle)
      exact fun ans => ih ans (h ans) (Nat.le_add_right n m)

theorem AtMost.bind {p : Prog Op Ans α} {f : α → Prog Op Ans β} {n m : Nat} (hp : p.AtMost n)
    (hf : ∀ a, (f a).AtMost m) : (p >>= f).AtMost (n + m) := by
  induction p generalizing n with
  | done a => exact (hf a).mono (Nat.le_add_left m n)
  | fault => trivial
  | perform o k ih =>
    cases n with
    | zero => exact hp.elim
    | succ n =>
      rw [Nat.succ_add]
      exact fun ans => ih ans (hp ans)

/-- What an operation was and how it was answered. -/
abbrev Event (Op : Type) (Ans : Op → Type) := (o : Op) × Ans o

/-- The outcome of a run: the result (`none` if undefined), and what was performed. -/
structure Outcome (Op : Type) (Ans : Op → Type) (σ α : Type) where
  result : Option α
  trace : List (Event Op Ans)
  state : σ

variable {σ : Type}

/-- An environment answers an operation and changes its own state. -/
abbrev Env (Op : Type) (Ans : Op → Type) (σ : Type) := (o : Op) → σ → Ans o × σ

/-- Run to the end. -/
def run (env : Env Op Ans σ) : Prog Op Ans α → σ → Outcome Op Ans σ α
  | done a, s => ⟨some a, [], s⟩
  | fault, s => ⟨none, [], s⟩
  | perform o k, s =>
    let (ans, s') := env o s
    let r := (k ans).run env s'
    { r with trace := ⟨o, ans⟩ :: r.trace }

section Run

variable (env : Env Op Ans σ) (s : σ)

@[simp] theorem run_done (a : α) : (done a : Prog Op Ans α).run env s = ⟨some a, [], s⟩ := rfl

@[simp] theorem run_fault : (fault : Prog Op Ans α).run env s = ⟨none, [], s⟩ := rfl

@[simp] theorem run_perform (o : Op) (k : Ans o → Prog Op Ans α) :
    (perform o k).run env s =
      ⟨((k (env o s).1).run env (env o s).2).result,
        ⟨o, (env o s).1⟩ :: ((k (env o s).1).run env (env o s).2).trace,
        ((k (env o s).1).run env (env o s).2).state⟩ := rfl

/-- A run performs only what its program may perform. -/
theorem Only.trace {P : Op → Prop} {p : Prog Op Ans α} (h : p.Only P) :
    ∀ e ∈ (p.run env s).trace, P e.1 := by
  induction p generalizing s with
  | done a => simp
  | fault => simp
  | perform o k ih =>
    rw [run_perform, List.forall_mem_cons]
    exact ⟨h.1, ih _ _ (h.2 _)⟩

end Run

/-! ## Traces -/

section Traces

/-- The program ends with `a` where its operations are answered as in the trace. -/
inductive Yields : Prog Op Ans α → List (Event Op Ans) → α → Prop
  | done (a : α) : Yields (done a) [] a
  | perform {o : Op} {k : Ans o → Prog Op Ans α} {ans : Ans o} {trace : List (Event Op Ans)} {a : α}
      (h : Yields (k ans) trace a) : Yields (perform o k) (⟨o, ans⟩ :: trace) a

@[simp] theorem yields_done {a b : α} {trace : List (Event Op Ans)} :
    (done a : Prog Op Ans α).Yields trace b ↔ trace = [] ∧ b = a := by
  constructor
  · rintro ⟨⟩
    exact ⟨rfl, rfl⟩
  · rintro ⟨rfl, rfl⟩
    exact .done _

@[simp] theorem not_yields_fault {a : α} {trace : List (Event Op Ans)} :
    ¬(fault : Prog Op Ans α).Yields trace a := by
  rintro ⟨⟩

theorem yields_perform {o : Op} {k : Ans o → Prog Op Ans α} {a : α}
    {trace : List (Event Op Ans)} :
    (perform o k).Yields trace a ↔ ∃ ans rest, trace = ⟨o, ans⟩ :: rest ∧ (k ans).Yields rest a := by
  constructor
  · rintro ⟨⟩
    exact ⟨_, _, rfl, ‹_›⟩
  · rintro ⟨ans, rest, rfl, h⟩
    exact .perform h

theorem yields_call {o : Op} {f : Ans o → Prog Op Ans β} {b : β} {trace : List (Event Op Ans)} :
    (call o >>= f).Yields trace b ↔ ∃ ans rest, trace = ⟨o, ans⟩ :: rest ∧ (f ans).Yields rest b :=
  yields_perform

/-- A trace goes through the first part and then through the second. -/
theorem yields_bind {p : Prog Op Ans α} {f : α → Prog Op Ans β} {b : β}
    {trace : List (Event Op Ans)} :
    (p >>= f).Yields trace b ↔
      ∃ t₁ t₂ a, trace = t₁ ++ t₂ ∧ p.Yields t₁ a ∧ (f a).Yields t₂ b := by
  constructor
  · intro h
    induction p generalizing trace with
    | done a => exact ⟨[], trace, a, rfl, .done a, h⟩
    | fault => exact absurd h not_yields_fault
    | perform o k ih =>
      obtain ⟨ans, rest, rfl, hrest⟩ := yields_perform.mp h
      obtain ⟨t₁, t₂, a, rfl, h₁, h₂⟩ := ih ans hrest
      exact ⟨⟨o, ans⟩ :: t₁, t₂, a, rfl, .perform h₁, h₂⟩
  · rintro ⟨t₁, t₂, a, rfl, h₁, h₂⟩
    induction h₁ with
    | done a => exact h₂
    | perform _ ih => exact .perform (ih h₂)

/-- A trace holds only what the program may perform. -/
theorem Only.yields {P : Op → Prop} {p : Prog Op Ans α} {trace : List (Event Op Ans)} {a : α}
    (hp : p.Only P) (h : p.Yields trace a) : ∀ e ∈ trace, P e.1 := by
  induction h with
  | done a => simp
  | perform _ ih =>
    rw [List.forall_mem_cons]
    exact ⟨hp.1, ih (hp.2 _)⟩

/-- `rest` is what is left of `p` after it has performed `trace`. -/
def Leaves (p : Prog Op Ans α) (trace : List (Event Op Ans)) (rest : Prog Op Ans α) : Prop :=
  ∀ trace' a, rest.Yields trace' a → p.Yields (trace ++ trace') a

theorem Leaves.perform {p : Prog Op Ans α} {trace : List (Event Op Ans)} {o : Op}
    {k : Ans o → Prog Op Ans α} (h : p.Leaves trace (perform o k)) (ans : Ans o) :
    p.Leaves (trace ++ [⟨o, ans⟩]) (k ans) := by
  intro trace' a hrest
  rw [List.append_assoc]
  exact h _ a (.perform hrest)

end Traces

end Prog

end Chlibs.Infra

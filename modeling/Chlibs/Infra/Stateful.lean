import Mathlib

/-!
# Calls that change a state and may fail

A call of type `EStateM ε σ α` ends with a result or with an error, and with a state either way.

* `Ends` — the weakest precondition: what holds of the result, and what holds of the error.
* `Ends.bind` — one call after another.
-/

namespace Chlibs.Infra

variable {ε σ α β : Type}

/-- From `s` the call ends with `ok` of its result, or with `err` of its error. -/
def Ends (p : EStateM ε σ α) (s : σ) (ok : α → σ → Prop) (err : ε → Prop) : Prop :=
  match p s with
  | .ok a s' => ok a s'
  | .error e _ => err e

section Ends

variable {p : EStateM ε σ α} {f : α → EStateM ε σ β} {s s' : σ} {a : α} {ok ok' : α → σ → Prop}
  {err err' : ε → Prop}

theorem Ends.of_ok (h : p s = .ok a s') (hok : ok a s') : Ends p s ok err := by
  rw [Ends, h]
  exact hok

theorem Ends.of_error {e : ε} (h : p s = .error e s') (herr : err e) : Ends p s ok err := by
  rw [Ends, h]
  exact herr

/-- What a result satisfies. -/
theorem Ends.ok_of (h : Ends p s ok err) (hrun : p s = .ok a s') : ok a s' := by
  rwa [Ends, hrun] at h

theorem Ends.err_of {e : ε} (h : Ends p s ok err) (hrun : p s = .error e s') : err e := by
  rwa [Ends, hrun] at h

theorem Ends.mono (h : Ends p s ok err) (hok : ∀ a s', ok a s' → ok' a s')
    (herr : ∀ e, err e → err' e) : Ends p s ok' err' := by
  unfold Ends at h ⊢
  cases hrun : p s with
  | ok a s' =>
    rw [hrun] at h
    exact hok a s' h
  | error e s' =>
    rw [hrun] at h
    exact herr e h

/-- **One call after another.** -/
theorem Ends.bind {ok : β → σ → Prop}
    (h : Ends p s (fun a s' => Ends (f a) s' ok err) err) : Ends (p >>= f) s ok err := by
  unfold Ends at h ⊢
  show match EStateM.bind p f s with | .ok b s' => ok b s' | .error e _ => err e
  unfold EStateM.bind
  cases hrun : p s with
  | ok a s' =>
    rw [hrun] at h
    exact h
  | error e s' =>
    rw [hrun] at h
    exact h

theorem Ends.pure (h : ok a s) : Ends (pure a : EStateM ε σ α) s ok err := h

theorem Ends.throw {e : ε} (h : err e) : Ends (throw e : EStateM ε σ α) s ok err := h

/-- A first call that succeeds. -/
theorem bind_of_ok (h : p s = .ok a s') : (p >>= f) s = f a s' := by
  show EStateM.bind p f s = f a s'
  rw [EStateM.bind, h]

theorem bind_of_error {e : ε} (h : p s = .error e s') : (p >>= f) s = .error e s' := by
  show EStateM.bind p f s = .error e s'
  rw [EStateM.bind, h]

theorem bind_eq_ok {b : β} {s'' : σ} :
    (p >>= f) s = .ok b s'' ↔ ∃ a s', p s = .ok a s' ∧ f a s' = .ok b s'' := by
  cases hp : p s with
  | ok a s' => simp [bind_of_ok hp]
  | error e s' => simp [bind_of_error hp]

end Ends

end Chlibs.Infra

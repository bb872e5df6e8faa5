import Mathlib.Data.List.Count

/-!
# Threads with a mutex

A list of threads, each at a place, and one mutex.

* `MutexOk` — the mutex is held by the thread whose place says so: what a step, a lock, an unlock
  and a new thread do to it.
* `countP_set_add` — how many threads are at places of a kind, after a step.
-/

namespace Chlibs.Infra

variable {π : Type} {threads : List π} {t : Nat} {pl : π}

/-- A step of thread `t`. -/
theorem getElem?_set_at (pl' : π) (hat : threads[t]? = some pl) (i : Nat) :
    (threads.set t pl')[i]? = if i = t then some pl' else threads[i]? := by
  obtain ⟨ht, -⟩ := List.getElem?_eq_some_iff.mp hat
  by_cases hi : i = t
  · simp [hi, ht]
  · simp [List.getElem?_set_ne (Ne.symm hi), hi]

/-- **One thread leaves its place for another.** -/
theorem countP_set_add (f : π → Bool) (pl' : π) (hat : threads[t]? = some pl) :
    (threads.set t pl').countP f + (f pl).toNat = threads.countP f + (f pl').toNat := by
  obtain ⟨ht, hpl⟩ := List.getElem?_eq_some_iff.mp hat
  have hset := List.countP_set (p := f) (a := pl') ht
  have hpos : (f pl).toNat ≤ threads.countP f := by
    cases hf : f pl with
    | false => exact Nat.zero_le _
    | true => exact List.countP_pos_iff.mpr ⟨pl, List.mem_of_getElem? hat, hf⟩
  rw [hset, hpl]
  generalize threads.countP f = n at hpos ⊢
  cases hold : f pl <;> cases hnew : f pl' <;>
    simp only [hold, Bool.toNat_true, Bool.toNat_false, if_true, if_false, Bool.false_eq_true]
      at hpos ⊢ <;> omega

/-- A thread has the mutex if and only if it is at a place where one has. -/
structure MutexOk (hasLock : π → Bool) (lock : Option Nat) (threads : List π) : Prop where
  has : ∀ {t pl}, threads[t]? = some pl → (hasLock pl = true ↔ lock = some t)
  held : ∀ {t}, lock = some t → t < threads.length

namespace MutexOk

variable {hasLock : π → Bool} {lock : Option Nat}

/-- **A step without lock or unlock.** -/
theorem set (h : MutexOk hasLock lock threads) (pl' : π) (hat : threads[t]? = some pl)
    (hsame : hasLock pl' = hasLock pl) : MutexOk hasLock lock (threads.set t pl') where
  has {i pl₁} hi := by
    rw [getElem?_set_at _ hat] at hi
    by_cases hit : i = t
    · rw [if_pos hit] at hi
      cases hi
      rw [hit, hsame]
      exact h.has hat
    · rw [if_neg hit] at hi
      exact h.has hi
  held hi := by
    rw [List.length_set]
    exact h.held hi

theorem locks (h : MutexOk hasLock none threads) {pl' : π} (hat : threads[t]? = some pl)
    (hhas : hasLock pl' = true) : MutexOk hasLock (some t) (threads.set t pl') where
  has {i pl₁} hi := by
    rw [getElem?_set_at _ hat] at hi
    by_cases hit : i = t
    · rw [if_pos hit] at hi
      cases hi
      simp [hhas, hit]
    · rw [if_neg hit] at hi
      have hnot := h.has hi
      simp only [reduceCtorEq, iff_false] at hnot
      simp [hnot, Ne.symm hit]
  held {i} hi := by
    cases hi
    obtain ⟨ht, -⟩ := List.getElem?_eq_some_iff.mp hat
    rwa [List.length_set]

theorem unlocks (h : MutexOk hasLock lock threads) {pl' : π} (hat : threads[t]? = some pl)
    (hhas : hasLock pl = true) (hnot : hasLock pl' = false) :
    MutexOk hasLock none (threads.set t pl') where
  has {i pl₁} hi := by
    rw [getElem?_set_at _ hat] at hi
    by_cases hit : i = t
    · rw [if_pos hit] at hi
      cases hi
      simp [hnot]
    · rw [if_neg hit] at hi
      have hiff := h.has hi
      rw [(h.has hat).mp hhas] at hiff
      simp [hiff, Ne.symm hit]
  held hi := by cases hi

/-- Another thread. -/
theorem snoc (h : MutexOk hasLock lock threads) (hnot : hasLock pl = false) :
    MutexOk hasLock lock (threads ++ [pl]) where
  has {i pl₁} hi := by
    rcases Nat.lt_or_ge i threads.length with hlt | hge
    · rw [List.getElem?_append_left hlt] at hi
      exact h.has hi
    · rw [List.getElem?_append_right hge] at hi
      obtain ⟨hzero, rfl⟩ : i - threads.length = 0 ∧ pl = pl₁ := by
        rcases Nat.eq_zero_or_pos (i - threads.length) with h0 | hpos
        · rw [h0] at hi
          exact ⟨h0, by simpa using hi⟩
        · rw [List.getElem?_eq_none (by rw [List.length_singleton]; exact hpos)] at hi
          cases hi
      constructor
      · intro hhas
        rw [hnot] at hhas
        cases hhas
      · intro hlock
        exact absurd (h.held hlock) (by omega)
  held hi := by
    have hlt := h.held hi
    rw [List.length_append]
    omega

/-- **Mutual exclusion.** -/
theorem unique (h : MutexOk hasLock lock threads) {u : Nat} {pl' : π} (hat : threads[t]? = some pl)
    (hu : threads[u]? = some pl') (hhas : hasLock pl = true) (hhas' : hasLock pl' = true) :
    t = u := by
  have hlock := (h.has hat).mp hhas
  rw [(h.has hu).mp hhas'] at hlock
  exact (Option.some.inj hlock).symm

end MutexOk

end Chlibs.Infra

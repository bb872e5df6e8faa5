import Chlibs.Infra.Mutex
import Chlibs.Infra.Transition

/-!
# The allocation counter

`mem.c`, and the counter of `sys.c`: `safe_malloc_p`, `safe_realloc_p` and `safe_free_p` in any number
of threads. `malloc`, `realloc` and `free` keep a heap of their own, without the system lock.

* `MemPlace` — where a thread is in them; `MemStep` — one step of one thread.
* `Memory` — the counter, the heap, the blocks that the program has, and where its threads are.
* `MemoryInv` — every block of the heap is counted, but for those on their way.
* `mallocCount_exact` — **when no call is under way, the counter is the number of blocks.**
* `mallocCount_in_range` — neither `"Malloc overflow"` nor `"Malloc underflow"` is ever logged.
* `realloc_zero_stuck` — `safe_realloc_p(false, mem, 0)` never returns, and the lock stays held.

A pointer is the address of a block, or `none` for `NULL`. The program frees and reallocates what it
has, and calls a function with `false` only where it has the lock.
-/

namespace Chlibs.Sys

open Infra

def sizeMax : Nat := 2 ^ 64 - 1

/-- Where a thread is in the functions of `mem.c`. `locked` is whether it had the system lock when it
called them, and `acquireLock` their argument. -/
inductive MemPlace where
  /-- the program's own code, after `sys_lock` or without it -/
  | user (locked : Bool)
  | sysLock
  | safeMalloc (locked acquireLock : Bool) (s : Nat)
  | safeRealloc (locked acquireLock : Bool) (mem : Option Nat) (s : Nat)
  | safeFree (locked acquireLock : Bool) (mem : Option Nat)
  /-- `log_fatal_p`, for there is no memory: the process ends -/
  | outOfMemory (locked : Bool) (mem : Option Nat)
  -- `sys_inc_malloc_count_p`
  | incLock (locked acquireLock : Bool) (a : Nat)
  | incRead (acquireLock : Bool) (a : Nat)
  | incWrite (acquireLock : Bool) (a mallocCount : Nat)
  | incUnlock (a : Nat)
  -- `sys_dec_malloc_count_p`, then `free`
  | decLock (locked acquireLock : Bool) (a : Nat)
  | decRead (acquireLock : Bool) (a : Nat)
  | decWrite (acquireLock : Bool) (a mallocCount : Nat)
  | decUnlock (a : Nat)
  | free (acquireLock : Bool) (a : Nat)
  /-- `log_fatal_p` of the counter -/
  | fatal
  deriving DecidableEq

namespace MemPlace

/-- The thread has the system lock. -/
def hasLock : MemPlace → Bool
  | user locked => locked
  | safeMalloc locked _ _ | safeRealloc locked _ _ _ | safeFree locked _ _ => locked
  | outOfMemory locked _ => locked
  | incLock locked _ _ | decLock locked _ _ => locked
  | incRead _ _ | incWrite _ _ _ | incUnlock _ => true
  | decRead _ _ | decWrite _ _ _ | decUnlock _ => true
  | free acquireLock _ => !acquireLock
  | _ => false

/-- The block that is on its way between the heap and the program. -/
def block : MemPlace → Option Nat
  | safeRealloc _ _ mem _ | safeFree _ _ mem | outOfMemory _ mem => mem
  | incLock _ _ a | incRead _ a | incWrite _ a _ | incUnlock a => some a
  | decLock _ _ a | decRead _ a | decWrite _ a _ | decUnlock a | free _ a => some a
  | _ => none

/-- It is in the heap, and not counted. -/
def uncounted : MemPlace → Bool
  | incLock _ _ _ | incRead _ _ | incWrite _ _ _ => true
  | decUnlock _ | free _ _ => true
  | _ => false

/-- It is counted, and the program does not have it. -/
def counted : MemPlace → Bool
  | safeRealloc _ _ mem _ | safeFree _ _ mem | outOfMemory _ mem => mem.isSome
  | incUnlock _ => true
  | decLock _ _ _ | decRead _ _ | decWrite _ _ _ => true
  | _ => false

/-- What the thread has read from the counter. -/
def readCount : MemPlace → Option Nat
  | incWrite _ _ n | decWrite _ _ n => some n
  | _ => none

end MemPlace

structure Memory where
  lock : Option Nat
  mallocCount : Nat
  /-- what `malloc` has given out, and `free` has not got back -/
  heap : List Nat
  /-- what `safe_malloc` and `safe_realloc` have returned, and have not been given again -/
  has : List Nat
  threads : List MemPlace

/-- Thread `t` is at this place next. -/
def Memory.goTo (m : Memory) (t : Nat) (pl : MemPlace) : Memory :=
  { m with threads := m.threads.set t pl }

/-- `malloc` gives out what is not given out yet. -/
def Memory.Fresh (m : Memory) (a : Nat) : Prop := 0 < a ∧ a ≤ sizeMax ∧ a ∉ m.heap

/-- What the program has left when it has passed a pointer. -/
def Memory.passes (m : Memory) : Option Nat → List Nat
  | none => m.has
  | some a => m.has.erase a

/-- One step of thread `t`. -/
inductive MemStep (t : Nat) : Memory → Memory → Prop
  | spawns {m : Memory} {locked : Bool} (hat : m.threads[t]? = some (.user locked)) :
      MemStep t m { m with threads := m.threads ++ [.user false] }
  | callsLock {m : Memory} (hat : m.threads[t]? = some (.user false)) :
      MemStep t m (m.goTo t .sysLock)
  | unlocks {m : Memory} (hat : m.threads[t]? = some (.user true)) :
      MemStep t m { m.goTo t (.user false) with lock := none }
  | locks {m : Memory} (hat : m.threads[t]? = some .sysLock) (hfree : m.lock = none) :
      MemStep t m { m.goTo t (.user true) with lock := some t }
  | callsMalloc {m : Memory} {locked : Bool} (acquireLock : Bool) (s : Nat)
      (hat : m.threads[t]? = some (.user locked)) (hlock : acquireLock = false → locked = true) :
      MemStep t m (m.goTo t (.safeMalloc locked acquireLock s))
  | callsRealloc {m : Memory} {locked : Bool} (acquireLock : Bool) (mem : Option Nat) (s : Nat)
      (hat : m.threads[t]? = some (.user locked)) (hlock : acquireLock = false → locked = true)
      (hmem : ∀ a ∈ mem, a ∈ m.has) :
      MemStep t m { m.goTo t (.safeRealloc locked acquireLock mem s) with has := m.passes mem }
  | callsFree {m : Memory} {locked : Bool} (acquireLock : Bool) (mem : Option Nat)
      (hat : m.threads[t]? = some (.user locked)) (hlock : acquireLock = false → locked = true)
      (hmem : ∀ a ∈ mem, a ∈ m.has) :
      MemStep t m { m.goTo t (.safeFree locked acquireLock mem) with has := m.passes mem }
  -- `safe_malloc_p`
  | mallocZero {m : Memory} {locked acquireLock : Bool}
      (hat : m.threads[t]? = some (.safeMalloc locked acquireLock 0)) :
      MemStep t m (m.goTo t (.user locked))
  | malloc {m : Memory} {locked acquireLock : Bool} {s a : Nat}
      (hat : m.threads[t]? = some (.safeMalloc locked acquireLock s)) (hs : s ≠ 0)
      (ha : m.Fresh a) :
      MemStep t m { m.goTo t (.incLock locked acquireLock a) with heap := a :: m.heap }
  | mallocFails {m : Memory} {locked acquireLock : Bool} {s : Nat}
      (hat : m.threads[t]? = some (.safeMalloc locked acquireLock s)) (hs : s ≠ 0) :
      MemStep t m (m.goTo t (.outOfMemory locked none))
  -- `safe_realloc_p`
  /-- `safe_free` takes the lock, whatever `acquireLock` is -/
  | reallocZero {m : Memory} {locked acquireLock : Bool} {mem : Option Nat}
      (hat : m.threads[t]? = some (.safeRealloc locked acquireLock mem 0)) :
      MemStep t m (m.goTo t (.safeFree locked true mem))
  | reallocNull {m : Memory} {locked acquireLock : Bool} {s : Nat}
      (hat : m.threads[t]? = some (.safeRealloc locked acquireLock none s)) (hs : s ≠ 0) :
      MemStep t m (m.goTo t (.safeMalloc locked acquireLock s))
  /-- the block stays, or moves -/
  | reallocs {m : Memory} {locked acquireLock : Bool} {s a a' : Nat}
      (hat : m.threads[t]? = some (.safeRealloc locked acquireLock (some a) s)) (hs : s ≠ 0)
      (ha' : a' = a ∨ m.Fresh a') :
      MemStep t m
        { m.goTo t (.user locked) with heap := a' :: m.heap.erase a, has := a' :: m.has }
  | reallocFails {m : Memory} {locked acquireLock : Bool} {s a : Nat}
      (hat : m.threads[t]? = some (.safeRealloc locked acquireLock (some a) s)) (hs : s ≠ 0) :
      MemStep t m (m.goTo t (.outOfMemory locked (some a)))
  -- `safe_free_p`
  | freeNull {m : Memory} {locked acquireLock : Bool}
      (hat : m.threads[t]? = some (.safeFree locked acquireLock none)) :
      MemStep t m (m.goTo t (.user locked))
  | frees {m : Memory} {locked acquireLock : Bool} {a : Nat}
      (hat : m.threads[t]? = some (.safeFree locked acquireLock (some a))) :
      MemStep t m (m.goTo t (.decLock locked acquireLock a))
  | freed {m : Memory} {acquireLock : Bool} {a : Nat}
      (hat : m.threads[t]? = some (.free acquireLock a)) :
      MemStep t m { m.goTo t (.user !acquireLock) with heap := m.heap.erase a }
  -- `sys_inc_malloc_count_p`
  | incLocks {m : Memory} {locked : Bool} {a : Nat}
      (hat : m.threads[t]? = some (.incLock locked true a)) (hfree : m.lock = none) :
      MemStep t m { m.goTo t (.incRead true a) with lock := some t }
  | incHasLock {m : Memory} {a : Nat} (hat : m.threads[t]? = some (.incLock true false a)) :
      MemStep t m (m.goTo t (.incRead false a))
  | incReads {m : Memory} {acquireLock : Bool} {a : Nat}
      (hat : m.threads[t]? = some (.incRead acquireLock a)) (hmax : m.mallocCount ≠ sizeMax) :
      MemStep t m (m.goTo t (.incWrite acquireLock a m.mallocCount))
  | overflows {m : Memory} {acquireLock : Bool} {a : Nat}
      (hat : m.threads[t]? = some (.incRead acquireLock a)) (hmax : m.mallocCount = sizeMax) :
      MemStep t m (m.goTo t .fatal)
  | incWrites {m : Memory} {a n : Nat} (hat : m.threads[t]? = some (.incWrite true a n)) :
      MemStep t m { m.goTo t (.incUnlock a) with mallocCount := n + 1 }
  | incUnlocks {m : Memory} {a : Nat} (hat : m.threads[t]? = some (.incUnlock a)) :
      MemStep t m { m.goTo t (.user false) with lock := none, has := a :: m.has }
  | lockedIncWrites {m : Memory} {a n : Nat} (hat : m.threads[t]? = some (.incWrite false a n)) :
      MemStep t m { m.goTo t (.user true) with mallocCount := n + 1, has := a :: m.has }
  -- `sys_dec_malloc_count_p`
  | decLocks {m : Memory} {locked : Bool} {a : Nat}
      (hat : m.threads[t]? = some (.decLock locked true a)) (hfree : m.lock = none) :
      MemStep t m { m.goTo t (.decRead true a) with lock := some t }
  | decHasLock {m : Memory} {a : Nat} (hat : m.threads[t]? = some (.decLock true false a)) :
      MemStep t m (m.goTo t (.decRead false a))
  | decReads {m : Memory} {acquireLock : Bool} {a : Nat}
      (hat : m.threads[t]? = some (.decRead acquireLock a)) (hpos : m.mallocCount ≠ 0) :
      MemStep t m (m.goTo t (.decWrite acquireLock a m.mallocCount))
  | underflows {m : Memory} {acquireLock : Bool} {a : Nat}
      (hat : m.threads[t]? = some (.decRead acquireLock a)) (hzero : m.mallocCount = 0) :
      MemStep t m (m.goTo t .fatal)
  | decWrites {m : Memory} {a n : Nat} (hat : m.threads[t]? = some (.decWrite true a n)) :
      MemStep t m { m.goTo t (.decUnlock a) with mallocCount := n - 1 }
  | decUnlocks {m : Memory} {a : Nat} (hat : m.threads[t]? = some (.decUnlock a)) :
      MemStep t m { m.goTo t (.free true a) with lock := none }
  | lockedDecWrites {m : Memory} {a n : Nat} (hat : m.threads[t]? = some (.decWrite false a n)) :
      MemStep t m { m.goTo t (.free false a) with mallocCount := n - 1 }

/-- One thread, and no blocks. -/
def memorySystem : TransitionSystem Memory where
  init m := m = ⟨none, 0, [], [], [.user false]⟩
  step m m' := ∃ t, MemStep t m m'

/-! ## Every block is counted -/

/-- The blocks of the heap are those that the program has, and those on their way. All are counted
that the program has. -/
structure MemoryInv (m : Memory) : Prop where
  lock : MutexOk MemPlace.hasLock m.lock m.threads
  nodup : m.heap.Nodup
  range : ∀ a ∈ m.heap, 0 < a ∧ a ≤ sizeMax
  blocks : ∀ a, m.heap.count a
    = m.has.count a + m.threads.countP fun pl => pl.block == some a
  total : m.heap.length = m.mallocCount + m.threads.countP MemPlace.uncounted
  count : m.mallocCount = m.has.length + m.threads.countP MemPlace.counted
  read : ∀ {t : Nat} {pl : MemPlace} {n : Nat}, m.threads[t]? = some pl → pl.readCount = some n →
    n = m.mallocCount

section Inv

variable {m m' : Memory} {t : Nat} {pl pl' : MemPlace}

theorem MemPlace.hasLock_of_readCount {n : Nat} (h : pl.readCount = some n) : pl.hasLock = true := by
  cases pl <;> first | rfl | cases h

/-- A thread that counts has a block on its way. -/
theorem MemPlace.counted_eq_false (h : pl.block = none) : pl.counted = false := by
  cases pl <;> simp_all [MemPlace.block, MemPlace.counted]

/-- **One thread goes on.** What changes in the heap, in the program and in the counter is what
changes on the way. -/
theorem MemoryInv.move (h : MemoryInv m) (pl' : MemPlace) (hat : m.threads[t]? = some pl)
    (hthreads : m'.threads = m.threads.set t pl')
    (hlock : MutexOk MemPlace.hasLock m'.lock (m.threads.set t pl'))
    (hnodup : m'.heap.Nodup) (hrange : ∀ a ∈ m'.heap, 0 < a ∧ a ≤ sizeMax)
    (hblocks : ∀ a, m'.heap.count a + m.has.count a + (pl.block == some a).toNat
      = m.heap.count a + m'.has.count a + (pl'.block == some a).toNat)
    (htotal : m'.heap.length + m.mallocCount + pl.uncounted.toNat
      = m.heap.length + m'.mallocCount + pl'.uncounted.toNat)
    (hcount : m'.mallocCount + m.has.length + pl.counted.toNat
      = m.mallocCount + m'.has.length + pl'.counted.toNat)
    (hread : ∀ n, pl'.readCount = some n → n = m'.mallocCount)
    (hwrite : m'.mallocCount = m.mallocCount ∨ pl.hasLock = true) : MemoryInv m' where
  lock := hthreads ▸ hlock
  nodup := hnodup
  range := hrange
  blocks a := by
    have hset := countP_set_add (fun pl => pl.block == some a) pl' hat
    have hold := h.blocks a
    have hnew := hblocks a
    rw [hthreads]
    omega
  total := by
    have hset := countP_set_add MemPlace.uncounted pl' hat
    have hold := h.total
    rw [hthreads]
    omega
  count := by
    have hset := countP_set_add MemPlace.counted pl' hat
    have hold := h.count
    rw [hthreads]
    omega
  read {i pl₁ n} hi hn := by
    rw [hthreads, getElem?_set_at _ hat] at hi
    by_cases hit : i = t
    · rw [if_pos hit] at hi
      cases hi
      exact hread n hn
    · rw [if_neg hit] at hi
      rw [h.read hi hn]
      -- Who writes the counter has the lock, and so has who has read it.
      rcases hwrite with hsame | hhas
      · exact hsame.symm
      · exact absurd (h.lock.unique hi hat (MemPlace.hasLock_of_readCount hn) hhas) hit

/-- There are no more blocks than addresses. -/
theorem MemoryInv.length_le (h : MemoryInv m) : m.heap.length ≤ sizeMax := by
  have hsub : m.heap ⊆ List.range' 1 sizeMax := by
    intro a ha
    have hrange := h.range a ha
    exact List.mem_range'_1.mpr ⟨hrange.1, by omega⟩
  have hle := (List.subperm_of_subset h.nodup hsub).length_le
  rwa [List.length_range'] at hle

/-- **The counter does not overflow** when it counts a block that it has not counted. -/
theorem MemoryInv.lt_sizeMax (h : MemoryInv m) (hat : m.threads[t]? = some pl)
    (hpl : pl.uncounted = true) : m.mallocCount < sizeMax := by
  have hpos : 0 < m.threads.countP MemPlace.uncounted :=
    List.countP_pos_iff.mpr ⟨pl, List.mem_of_getElem? hat, hpl⟩
  have hle := h.length_le
  have htotal := h.total
  omega

/-- **It does not underflow** when it has counted the block. -/
theorem MemoryInv.pos (h : MemoryInv m) (hat : m.threads[t]? = some pl)
    (hpl : pl.counted = true) : 0 < m.mallocCount := by
  have hpos : 0 < m.threads.countP MemPlace.counted :=
    List.countP_pos_iff.mpr ⟨pl, List.mem_of_getElem? hat, hpl⟩
  have hcount := h.count
  omega

/-- **A step that neither the heap nor the counter notices.** -/
theorem MemoryInv.quiet (h : MemoryInv m) (pl' : MemPlace) (hat : m.threads[t]? = some pl)
    (hthreads : m'.threads = m.threads.set t pl')
    (hlock : MutexOk MemPlace.hasLock m'.lock (m.threads.set t pl')) (hheap : m'.heap = m.heap)
    (hhas : m'.has = m.has) (hcount : m'.mallocCount = m.mallocCount)
    (hblock : pl'.block = pl.block) (huncounted : pl'.uncounted = pl.uncounted)
    (hcounted : pl'.counted = pl.counted)
    (hread : ∀ n, pl'.readCount = some n → n = m.mallocCount) : MemoryInv m' := by
  refine h.move pl' hat hthreads hlock (hheap ▸ h.nodup) (hheap ▸ h.range) (fun a => ?_) ?_ ?_
    (fun n hn => (hread n hn).trans hcount.symm) (.inl hcount)
  · rw [hheap, hhas, hblock]
  · rw [hheap, hcount, huncounted]
  · rw [hhas, hcount, hcounted]

/-- The lock is taken. -/
theorem MemoryInv.mutex_locks (h : MemoryInv m) (pl' : MemPlace) (hat : m.threads[t]? = some pl)
    (hfree : m.lock = none) (hhas : pl'.hasLock = true) :
    MutexOk MemPlace.hasLock (some t) (m.threads.set t pl') :=
  MutexOk.locks (hfree ▸ h.lock) hat hhas

/-- **A block is given out by `malloc`.** -/
theorem MemoryInv.malloc (h : MemoryInv m) (pl' : MemPlace) {a : Nat} (ha : m.Fresh a)
    (hat : m.threads[t]? = some pl) (hsame : pl'.hasLock = pl.hasLock) (hnone : pl.block = none)
    (hblock : pl'.block = some a) (huncounted : pl'.uncounted = true) (hcounted : pl'.counted = false)
    (hold : pl.uncounted = false) (hold' : pl.counted = false) (hread : pl'.readCount = none) :
    MemoryInv { m.goTo t pl' with heap := a :: m.heap } := by
  obtain ⟨hpos, hle, hfresh⟩ := ha
  refine h.move pl' hat rfl (h.lock.set pl' hat hsame) (List.nodup_cons.mpr ⟨hfresh, h.nodup⟩)
    (fun x hx => ?_) (fun x => ?_) ?_ ?_ (fun n hn => ?_) (.inl rfl)
  · rcases List.mem_cons.mp hx with rfl | hx
    · exact ⟨hpos, hle⟩
    · exact h.range x hx
  · show (a :: m.heap).count x + m.has.count x + _ = m.heap.count x + m.has.count x + _
    rw [List.count_cons, hnone, hblock]
    by_cases hxa : a = x
    · simp only [hxa, BEq.rfl, if_true, Bool.toNat_true]
      simp
      omega
    · simp [hxa]
  · show (a :: m.heap).length + m.mallocCount + _ = m.heap.length + m.mallocCount + _
    rw [List.length_cons, huncounted, hold, Bool.toNat_true, Bool.toNat_false]
    omega
  · show m.mallocCount + m.has.length + _ = m.mallocCount + m.has.length + _
    rw [hcounted, hold']
  · rw [hread] at hn
    cases hn

/-- A block on its way is in the heap. -/
theorem MemoryInv.mem_heap (h : MemoryInv m) {a : Nat} (hat : m.threads[t]? = some pl)
    (hblock : pl.block = some a) : a ∈ m.heap := by
  have hpos : 0 < m.threads.countP fun pl => pl.block == some a :=
    List.countP_pos_iff.mpr ⟨_, List.mem_of_getElem? hat, by simp [hblock]⟩
  have hblocks := h.blocks a
  exact List.count_pos_iff.mp (by omega)

/-- **A block is given back to the heap.** -/
theorem MemoryInv.free (h : MemoryInv m) {acquireLock : Bool} {a : Nat}
    (hat : m.threads[t]? = some (.free acquireLock a)) :
    MemoryInv { m.goTo t (.user !acquireLock) with heap := m.heap.erase a } := by
  have hmem := h.mem_heap hat rfl
  refine h.move (.user !acquireLock) hat rfl (h.lock.set _ hat rfl) (h.nodup.erase a)
    (fun x hx => h.range x (List.mem_of_mem_erase hx)) (fun x => ?_) ?_ rfl nofun (.inl rfl)
  · show (m.heap.erase a).count x + m.has.count x + _ = m.heap.count x + m.has.count x + _
    have hpos : 0 < m.heap.count a := List.count_pos_iff.mpr hmem
    rw [List.count_erase]
    by_cases hxa : a = x
    · subst hxa
      simp only [MemPlace.block, BEq.rfl, if_true, Bool.toNat_true]
      simp
      omega
    · simp [MemPlace.block, hxa]
  · show (m.heap.erase a).length + m.mallocCount + _ = m.heap.length + m.mallocCount + _
    have hpos := List.length_pos_of_mem hmem
    rw [List.length_erase_of_mem hmem]
    simp only [MemPlace.uncounted, Bool.toNat_true, Bool.toNat_false]
    omega

/-- **The program passes a pointer**, to a block that it has. -/
theorem MemoryInv.passes (h : MemoryInv m) (pl' : MemPlace) {mem : Option Nat}
    (hmem : ∀ a ∈ mem, a ∈ m.has) (hat : m.threads[t]? = some pl)
    (hsame : pl'.hasLock = pl.hasLock) (hnone : pl.block = none) (hblock : pl'.block = mem)
    (hcounted : pl'.counted = mem.isSome) (huncounted : pl'.uncounted = false)
    (hold : pl.uncounted = false) (hold' : pl.counted = false) (hread : pl'.readCount = none) :
    MemoryInv { m.goTo t pl' with has := m.passes mem } := by
  have hread' : ∀ n, pl'.readCount = some n → n = m.mallocCount := by simp [hread]
  cases mem with
  | none =>
    exact h.quiet pl' hat rfl (h.lock.set pl' hat hsame) rfl rfl rfl (hblock.trans hnone.symm)
      (huncounted.trans hold.symm) (hcounted.trans hold'.symm) hread'
  | some a =>
    have ha := hmem a rfl
    refine h.move pl' hat rfl (h.lock.set pl' hat hsame) h.nodup h.range (fun x => ?_) ?_ ?_
      hread' (.inl rfl)
    · show m.heap.count x + m.has.count x + _ = m.heap.count x + (m.has.erase a).count x + _
      have hpos : 0 < m.has.count a := List.count_pos_iff.mpr ha
      rw [List.count_erase, hnone, hblock]
      by_cases hxa : a = x
      · subst hxa
        simp only [BEq.rfl, if_true, Bool.toNat_true]
        simp
        omega
      · simp [hxa]
    · show m.heap.length + m.mallocCount + _ = m.heap.length + m.mallocCount + _
      rw [huncounted, hold]
    · show m.mallocCount + m.has.length + _ = m.mallocCount + (m.has.erase a).length + _
      have hpos := List.length_pos_of_mem ha
      rw [List.length_erase_of_mem ha, hcounted, hold', Option.isSome_some, Bool.toNat_true,
        Bool.toNat_false]
      omega

/-- **The program gets a block**, which has been counted or is counted now. -/
theorem MemoryInv.gets (h : MemoryInv m) (pl' : MemPlace) {a : Nat} {lock : Option Nat}
    {mallocCount : Nat} (hat : m.threads[t]? = some pl)
    (hlock : MutexOk MemPlace.hasLock lock (m.threads.set t pl')) (hblock : pl.block = some a)
    (hnone : pl'.block = none) (hhas : pl.hasLock = true)
    (htotal : m.mallocCount + pl.uncounted.toNat = mallocCount + pl'.uncounted.toNat)
    (hcount : mallocCount + pl.counted.toNat = m.mallocCount + 1 + pl'.counted.toNat)
    (hread : pl'.readCount = none) :
    MemoryInv { m.goTo t pl' with
      lock := lock
      mallocCount := mallocCount
      has := a :: m.has } := by
  refine h.move pl' hat rfl hlock h.nodup h.range (fun x => ?_) ?_ ?_ (fun n hn => ?_) (.inr hhas)
  · show m.heap.count x + m.has.count x + _ = m.heap.count x + (a :: m.has).count x + _
    rw [List.count_cons, hnone, hblock]
    by_cases hxa : a = x
    · simp only [hxa, BEq.rfl, if_true, Bool.toNat_true]
      simp
      omega
    · simp [hxa]
  · show m.heap.length + m.mallocCount + _ = m.heap.length + mallocCount + _
    omega
  · show mallocCount + m.has.length + _ = m.mallocCount + (a :: m.has).length + _
    rw [List.length_cons]
    omega
  · rw [hread] at hn
    cases hn

/-- **The counter is written** by the thread that has read it. -/
theorem MemoryInv.writes (h : MemoryInv m) (pl' : MemPlace) {mallocCount : Nat}
    (hat : m.threads[t]? = some pl) (hsame : pl'.hasLock = pl.hasLock) (hhas : pl.hasLock = true)
    (hblock : pl'.block = pl.block)
    (htotal : m.mallocCount + pl.uncounted.toNat = mallocCount + pl'.uncounted.toNat)
    (hcount : mallocCount + pl.counted.toNat = m.mallocCount + pl'.counted.toNat)
    (hread : pl'.readCount = none) :
    MemoryInv { m.goTo t pl' with mallocCount := mallocCount } := by
  refine h.move pl' hat rfl (h.lock.set pl' hat hsame) h.nodup h.range (fun x => ?_) ?_ ?_
    (fun n hn => ?_) (.inr hhas)
  · rw [hblock]
    rfl
  · show m.heap.length + m.mallocCount + _ = m.heap.length + mallocCount + _
    omega
  · show mallocCount + m.has.length + _ = m.mallocCount + m.has.length + _
    omega
  · rw [hread] at hn
    cases hn

/-- **A block stays, or moves**, and the program has it again. -/
theorem MemoryInv.reallocs (h : MemoryInv m) {locked acquireLock : Bool} {s a a' : Nat}
    (hat : m.threads[t]? = some (.safeRealloc locked acquireLock (some a) s))
    (ha' : a' = a ∨ m.Fresh a') :
    MemoryInv { m.goTo t (.user locked) with heap := a' :: m.heap.erase a, has := a' :: m.has } := by
  have hmem := h.mem_heap hat rfl
  refine h.move (.user locked) hat rfl (h.lock.set _ hat rfl)
    (List.nodup_cons.mpr ⟨?_, h.nodup.erase a⟩) (fun x hx => ?_) (fun x => ?_) ?_ ?_ nofun (.inl rfl)
  · rcases ha' with rfl | ⟨-, -, hfresh⟩
    · exact h.nodup.not_mem_erase
    · exact fun hx => hfresh (List.mem_of_mem_erase hx)
  · rcases List.mem_cons.mp hx with rfl | hx
    · rcases ha' with rfl | ⟨hpos, hle, -⟩
      · exact h.range x hmem
      · exact ⟨hpos, hle⟩
    · exact h.range x (List.mem_of_mem_erase hx)
  · show (a' :: m.heap.erase a).count x + m.has.count x + _
      = m.heap.count x + (a' :: m.has).count x + _
    have hpos : 0 < m.heap.count a := List.count_pos_iff.mpr hmem
    simp only [List.count_cons, List.count_erase, MemPlace.block]
    by_cases hxa : a = x
    · subst hxa
      simp only [BEq.rfl, if_true, Bool.toNat_true]
      simp
      omega
    · have hne : (some a == some x) = false := by simpa using hxa
      rw [hne]
      simp [hxa]
      omega
  · show (a' :: m.heap.erase a).length + m.mallocCount + _ = m.heap.length + m.mallocCount + _
    have hpos := List.length_pos_of_mem hmem
    rw [List.length_cons, List.length_erase_of_mem hmem]
    simp only [MemPlace.uncounted]
    omega
  · show m.mallocCount + m.has.length + _ = m.mallocCount + (a' :: m.has).length + _
    rw [List.length_cons]
    simp only [MemPlace.counted, Option.isSome_some, Bool.toNat_true, Bool.toNat_false]
    omega

/-- A thread goes on in its function, with or without the lock as before. -/
theorem MemoryInv.goes (h : MemoryInv m) (pl' : MemPlace) (hat : m.threads[t]? = some pl)
    (hsame : pl'.hasLock = pl.hasLock) (hblock : pl'.block = pl.block)
    (huncounted : pl'.uncounted = pl.uncounted) (hcounted : pl'.counted = pl.counted)
    (hread : ∀ n, pl'.readCount = some n → n = m.mallocCount) : MemoryInv (m.goTo t pl') :=
  h.quiet pl' hat rfl (h.lock.set pl' hat hsame) rfl rfl rfl hblock huncounted hcounted hread

/-- **Every step keeps account of every block.** -/
theorem MemoryInv.step (h : MemoryInv m) (hs : MemStep t m m') : MemoryInv m' := by
  cases hs with
  | spawns hat =>
    refine ⟨h.lock.snoc rfl, h.nodup, h.range, fun a => ?_, ?_, ?_, fun {i pl n} hi hn => ?_⟩
    · simpa [List.countP_append, MemPlace.block] using h.blocks a
    · simpa [List.countP_append, MemPlace.uncounted] using h.total
    · simpa [List.countP_append, MemPlace.counted] using h.count
    · rcases Nat.lt_or_ge i m.threads.length with hlt | hge
      · exact h.read ((List.getElem?_append_left hlt).symm.trans hi) hn
      · have hmem := List.mem_of_getElem? ((List.getElem?_append_right hge).symm.trans hi)
        rw [List.mem_singleton.mp hmem] at hn
        cases hn
  | callsLock hat => exact h.goes _ hat rfl rfl rfl rfl nofun
  | unlocks hat =>
    exact h.quiet (.user false) hat rfl (h.lock.unlocks hat rfl rfl) rfl rfl rfl rfl rfl rfl nofun
  | locks hat hfree =>
    exact h.quiet (.user true) hat rfl (h.mutex_locks _ hat hfree rfl) rfl rfl rfl rfl rfl rfl nofun
  | callsMalloc acquireLock s hat hlock => exact h.goes _ hat rfl rfl rfl rfl nofun
  | callsRealloc acquireLock mem s hat hlock hmem =>
    exact h.passes _ hmem hat rfl rfl rfl rfl rfl rfl rfl rfl
  | callsFree acquireLock mem hat hlock hmem =>
    exact h.passes _ hmem hat rfl rfl rfl rfl rfl rfl rfl rfl
  | mallocZero hat => exact h.goes _ hat rfl rfl rfl rfl nofun
  | malloc hat hs ha => exact h.malloc _ ha hat rfl rfl rfl rfl rfl rfl rfl rfl
  | mallocFails hat hs => exact h.goes _ hat rfl rfl rfl rfl nofun
  | reallocZero hat => exact h.goes _ hat rfl rfl rfl rfl nofun
  | reallocNull hat hs => exact h.goes _ hat rfl rfl rfl rfl nofun
  | reallocs hat hs ha' => exact h.reallocs hat ha'
  | reallocFails hat hs => exact h.goes _ hat rfl rfl rfl rfl nofun
  | freeNull hat => exact h.goes _ hat rfl rfl rfl rfl nofun
  | frees hat => exact h.goes _ hat rfl rfl rfl rfl nofun
  | freed hat => exact h.free hat
  | incLocks hat hfree =>
    exact h.quiet (.incRead true _) hat rfl (h.mutex_locks _ hat hfree rfl) rfl rfl rfl rfl rfl rfl
      nofun
  | incHasLock hat => exact h.goes _ hat rfl rfl rfl rfl nofun
  | incReads hat hmax =>
    exact h.goes (.incWrite _ _ m.mallocCount) hat rfl rfl rfl rfl fun n hn =>
      (Option.some.inj hn).symm
  | overflows hat hmax => exact absurd hmax (h.lt_sizeMax hat rfl).ne
  | incWrites hat =>
    have hn := h.read hat rfl
    exact h.writes (.incUnlock _) hat rfl rfl rfl (by rw [hn]; rfl) (by rw [hn]; rfl) rfl
  | incUnlocks hat =>
    exact h.gets (.user false) hat (h.lock.unlocks hat rfl rfl) rfl rfl rfl rfl rfl rfl
  | lockedIncWrites hat =>
    have hn := h.read hat rfl
    exact h.gets (.user true) hat (h.lock.set _ hat rfl) rfl rfl rfl (by rw [hn]; rfl)
      (by rw [hn]; rfl) rfl
  | decLocks hat hfree =>
    exact h.quiet (.decRead true _) hat rfl (h.mutex_locks _ hat hfree rfl) rfl rfl rfl rfl rfl rfl
      nofun
  | decHasLock hat => exact h.goes _ hat rfl rfl rfl rfl nofun
  | decReads hat hpos =>
    exact h.goes (.decWrite _ _ m.mallocCount) hat rfl rfl rfl rfl fun n hn =>
      (Option.some.inj hn).symm
  | underflows hat hzero => exact absurd hzero (h.pos hat rfl).ne'
  | decWrites hat =>
    have hn := h.read hat rfl
    have hpos := h.pos hat rfl
    exact h.writes (.decUnlock _) hat rfl rfl rfl (by simp [MemPlace.uncounted]; omega)
      (by simp [MemPlace.counted]; omega) rfl
  | decUnlocks hat =>
    exact h.quiet (.free true _) hat rfl (h.lock.unlocks hat rfl rfl) rfl rfl rfl rfl rfl rfl nofun
  | lockedDecWrites hat =>
    have hn := h.read hat rfl
    have hpos := h.pos hat rfl
    exact h.writes (.free false _) hat rfl rfl rfl (by simp [MemPlace.uncounted]; omega)
      (by simp [MemPlace.counted]; omega) rfl

theorem memoryInv_reachable (h : memorySystem.Reachable m) : MemoryInv m := by
  induction h with
  | init hs =>
    rw [show _ = _ from hs]
    refine ⟨⟨fun {t pl} hat => ?_, nofun⟩, List.nodup_nil, nofun, fun _ => rfl, rfl, rfl,
      fun {t pl n} hat hn => ?_⟩
    · rw [List.mem_singleton.mp (List.mem_of_getElem? hat)]
      simp [MemPlace.hasLock]
    · rw [List.mem_singleton.mp (List.mem_of_getElem? hat)] at hn
      cases hn
  | step _ hs ih =>
    obtain ⟨t, hstep⟩ := hs
    exact ih.step hstep

end Inv

/-! ## The counter -/

/-- One thread has called `safe_malloc`, and is given block 16. -/
theorem malloc_reachable : memorySystem.Reachable ⟨none, 1, [16], [16], [.user false]⟩ := by
  have hinit : memorySystem.Reachable ⟨none, 0, [], [], [.user false]⟩ := .init rfl
  have hfresh : Memory.Fresh ⟨none, 0, [], [], [.user false]⟩ 16 := by
    simp [Memory.Fresh, sizeMax]
  have hcalls := hinit.step ⟨0, .callsMalloc true 8 rfl nofun⟩
  have hmalloc := hcalls.step ⟨0, .malloc rfl (by decide) hfresh⟩
  have hlocks := hmalloc.step ⟨0, .incLocks rfl rfl⟩
  have hreads := hlocks.step ⟨0, .incReads rfl nofun⟩
  have hwrites := hreads.step ⟨0, .incWrites rfl⟩
  exact hwrites.step ⟨0, .incUnlocks rfl⟩

section Main

variable {m m' : Memory} {t : Nat}

/-- **The counter is exact** in every order of the threads: it counts what the program has, and
blocks on their way, but no more than the heap holds. When none is on its way, it is the number of
blocks of the program, which are those of the heap. -/
theorem mallocCount_exact (h : memorySystem.Reachable m) :
    m.has.length ≤ m.mallocCount ∧ m.mallocCount ≤ m.heap.length ∧
      ((∀ pl ∈ m.threads, pl.block = none) →
        m.mallocCount = m.has.length ∧ m.heap.Perm m.has) := by
  have hinv := memoryInv_reachable h
  have htotal := hinv.total
  have hcount := hinv.count
  refine ⟨by omega, by omega, fun hidle => ⟨?_, List.perm_iff_count.mpr fun a => ?_⟩⟩
  · have hzero : m.threads.countP MemPlace.counted = 0 :=
      List.countP_eq_zero.mpr fun pl hpl => by
        simp [MemPlace.counted_eq_false (hidle pl hpl)]
    omega
  · have hzero : (m.threads.countP fun pl => pl.block == some a) = 0 :=
      List.countP_eq_zero.mpr fun pl hpl => by simp [hidle pl hpl]
    have hblocks := hinv.blocks a
    omega

theorem mallocCount_exact_malloc :
    (Memory.mk none 1 [16] [16] [.user false]).mallocCount = [16].length :=
  ((mallocCount_exact malloc_reachable).2.2 (by simp [MemPlace.block])).1

/-- **The counter neither overflows nor underflows**: no thread gets to `log_fatal`. -/
theorem mallocCount_in_range (h : memorySystem.Reachable m) : .fatal ∉ m.threads := by
  induction h with
  | init hs =>
    rw [show _ = _ from hs]
    simp
  | @step m m' hr hs ih =>
    have hinv := memoryInv_reachable hr
    have hset : ∀ {t pl}, pl ≠ .fatal → .fatal ∉ m.threads.set t pl := by
      intro t pl hne hmem
      rcases List.mem_or_eq_of_mem_set hmem with hold | hnew
      · exact ih hold
      · exact hne hnew.symm
    obtain ⟨t, hstep⟩ := hs
    cases hstep with
    | spawns hat => simpa using ih
    | overflows hat hmax => exact absurd hmax (hinv.lt_sizeMax hat rfl).ne
    | underflows hat hzero => exact absurd hzero (hinv.pos hat rfl).ne'
    | _ => exact hset nofun

theorem mallocCount_in_range_malloc :
    .fatal ∉ (Memory.mk none 1 [16] [16] [.user false]).threads :=
  mallocCount_in_range malloc_reachable

/-- A step is one of its thread, or makes another thread. -/
theorem memStep_other {u : Nat} (hs : MemStep u m m') (hut : u ≠ t) (ht : t < m.threads.length) :
    m'.threads[t]? = m.threads[t]? := by
  cases hs with
  | spawns hat => exact List.getElem?_append_left ht
  | _ => exact List.getElem?_set_ne hut

/-- Where a thread is that has called `safe_realloc_p(false, mem, 0)` with the lock. -/
def ReallocsZero (a : Nat) (pl : MemPlace) : Prop :=
  pl = .safeRealloc true false (some a) 0 ∨ pl = .safeFree true true (some a) ∨
    pl = .decLock true true a

/-- **The thread goes on to the lock**, which it has, and no further. -/
theorem reallocsZero_step (h : MemoryInv m) {a : Nat} {pl : MemPlace}
    (hat : m.threads[t]? = some pl) (hpl : ReallocsZero a pl) (hs : MemStep t m m') :
    ∃ pl', m'.threads[t]? = some pl' ∧ ReallocsZero a pl' := by
  obtain ⟨ht, -⟩ := List.getElem?_eq_some_iff.mp hat
  have hself : ∀ pl', (m.goTo t pl').threads[t]? = some pl' := fun pl' =>
    List.getElem?_set_self ht
  rcases hpl with rfl | rfl | rfl
  · cases hs with
    | reallocZero hat' =>
      cases hat.symm.trans hat'
      exact ⟨_, hself _, .inr (.inl rfl)⟩
    | _ => simp_all
  · cases hs with
    | frees hat' =>
      cases hat.symm.trans hat'
      exact ⟨_, hself _, .inr (.inr rfl)⟩
    | _ => simp_all
  · -- The lock is not free, so there is no step.
    have hheld := (h.lock.has hat).mp rfl
    cases hs <;> simp_all

/-- **`safe_realloc_p(false, mem, 0)` never returns** where `mem` is not `NULL`, for it calls
`safe_free`, which waits for the lock that the thread has. The lock is never given back. -/
theorem realloc_zero_stuck (h : memorySystem.Reachable m) {a : Nat}
    (hat : m.threads[t]? = some (.safeRealloc true false (some a) 0))
    (hsteps : Relation.ReflTransGen memorySystem.step m m') :
    (∃ pl, m'.threads[t]? = some pl ∧ ReallocsZero a pl) ∧ m'.lock = some t := by
  have hplace : memorySystem.Reachable m' ∧ ∃ pl, m'.threads[t]? = some pl ∧ ReallocsZero a pl := by
    induction hsteps with
    | refl => exact ⟨h, _, hat, .inl rfl⟩
    | tail _ hs ih =>
      obtain ⟨hr, pl, hat', hpl⟩ := ih
      refine ⟨hr.step hs, ?_⟩
      obtain ⟨u, hstep⟩ := hs
      by_cases hut : u = t
      · subst hut
        exact reallocsZero_step (memoryInv_reachable hr) hat' hpl hstep
      · obtain ⟨ht, -⟩ := List.getElem?_eq_some_iff.mp hat'
        exact ⟨pl, (memStep_other hstep hut ht).trans hat', hpl⟩
  obtain ⟨hr, pl, hat', hpl⟩ := hplace
  have hhas : pl.hasLock = true := by
    rcases hpl with rfl | rfl | rfl <;> rfl
  exact ⟨⟨pl, hat', hpl⟩, ((memoryInv_reachable hr).lock.has hat').mp hhas⟩

/-- Thread 0 locks, and reallocates block 16 to a size of 0; it comes to the lock that it has. -/
theorem realloc_zero_stuck_malloc : ∃ m m', memorySystem.Reachable m ∧
    Relation.ReflTransGen memorySystem.step m m' ∧
    m'.threads[0]? = some (.decLock true true 16) ∧ m'.lock = some 0 := by
  have hcalls := malloc_reachable.step ⟨0, .callsLock rfl⟩
  have hlocks := hcalls.step ⟨0, .locks rfl rfl⟩
  have hreallocs : memorySystem.Reachable
      ⟨some 0, 1, [16], [], [.safeRealloc true false (some 16) 0]⟩ :=
    hlocks.step ⟨0, .callsRealloc false (some 16) 0 rfl (fun _ => rfl)
      fun a ha => by cases ha; exact List.mem_cons_self⟩
  have hzero : memorySystem.step ⟨some 0, 1, [16], [], [.safeRealloc true false (some 16) 0]⟩
      ⟨some 0, 1, [16], [], [.safeFree true true (some 16)]⟩ := ⟨0, .reallocZero rfl⟩
  have hfrees : memorySystem.step ⟨some 0, 1, [16], [], [.safeFree true true (some 16)]⟩
      ⟨some 0, 1, [16], [], [.decLock true true 16]⟩ := ⟨0, .frees rfl⟩
  have hsteps := (Relation.ReflTransGen.single hzero).tail hfrees
  obtain ⟨-, hlock⟩ := realloc_zero_stuck (t := 0) hreallocs rfl hsteps
  exact ⟨_, _, hreallocs, hsteps, rfl, hlock⟩

end Main

end Chlibs.Sys

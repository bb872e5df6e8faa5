import Chlibs.Infra.Stateful
import Chlibs.Infra.Writer

/-!
# Blocks of memory

An allocator that gives every block a number of its own and records which blocks were freed. What
a call does to the blocks is said by what its caller has to own before it and owns after it.

* `Moves` — the blocks that a run takes over, and those that it leaves.
* `Tracks` — a call that allocates, compared with one that only reads.
-/

namespace Chlibs.Infra

variable {σ α β γ δ : Type}

/-- The blocks below `next` were handed out. `freed` are those that were freed, the latest first,
one that was freed twice among them twice. -/
structure Alloc where
  next : Nat
  freed : List Nat

/-- A block, or `NULL`. -/
abbrev Ptr := Option Nat

/-- A call that may allocate. -/
abbrev AllocM (σ : Type) := EStateM (Err σ) Alloc

/-- One up for a block that is handed out, one down for a block that is freed. -/
def Alloc.mallocCount (m : Alloc) : Int := m.next - m.freed.length

/-- `NULL` for no bytes. -/
def safeMalloc (s : Nat) : AllocM σ Ptr := fun m =>
  if s = 0 then .ok none m else .ok (some m.next) { m with next := m.next + 1 }

def safeFree : Ptr → AllocM σ Unit
  | none => pure ()
  | some p => fun m => .ok () { m with freed := p :: m.freed }

/-- A call that only reads. -/
def readOnly (r : Res σ α) : AllocM σ α := fun m =>
  match r with
  | .ok a => .ok a m
  | .error e => .error e m

/-- A call whose status is looked at. -/
def attempt (p : AllocM σ α) : AllocM σ (Except σ α) := fun m =>
  match p m with
  | .ok a m' => .ok (.ok a) m'
  | .error (.status st) m' => .ok (.error st) m'
  | .error .fault m' => .error .fault m'

/-! ## What a run does to the blocks -/

/-- From `m` to `m'`, a run that takes over the blocks `before` leaves the blocks `after`: all other
blocks that were there or that it allocated are freed, each once. -/
def Moves (m : Alloc) (before : List Nat) (m' : Alloc) (after : List Nat) : Prop :=
  ∃ n fs, m' = ⟨m.next + n, fs ++ m.freed⟩ ∧
    (after ++ fs).Perm (before ++ List.range' m.next n)

namespace Moves

variable {m m' m'' : Alloc} {a b c d : List Nat}

theorem of_perm (h : a.Perm b) : Moves m a m b :=
  ⟨0, [], rfl, by simpa using h.symm⟩

theorem trans (h : Moves m a m' b) (h' : Moves m' b m'' c) : Moves m a m'' c := by
  obtain ⟨n, fs, rfl, hperm⟩ := h
  obtain ⟨n', fs', rfl, hperm'⟩ := h'
  refine ⟨n + n', fs' ++ fs, by simp [Nat.add_assoc], ?_⟩
  have hrange : List.range' m.next (n + n')
      = List.range' m.next n ++ List.range' (m.next + n) n' := List.range'_append_1.symm
  rw [hrange]
  rw [List.perm_iff_count] at hperm hperm' ⊢
  intro x
  have h1 := hperm x
  have h2 := hperm' x
  simp only [List.count_append] at h1 h2 ⊢
  omega

/-- The rest of the memory stays as it is. -/
theorem frame (h : Moves m a m' b) (c : List Nat) : Moves m (a ++ c) m' (b ++ c) := by
  obtain ⟨n, fs, rfl, hperm⟩ := h
  refine ⟨n, fs, rfl, ?_⟩
  rw [List.perm_iff_count] at hperm ⊢
  intro x
  have h1 := hperm x
  simp only [List.count_append] at h1 ⊢
  omega

theorem malloc : Moves m [] ⟨m.next + 1, m.freed⟩ [m.next] :=
  ⟨1, [], rfl, by simp⟩

theorem free {p : Nat} : Moves m [p] ⟨m.next, p :: m.freed⟩ [] :=
  ⟨0, [p], rfl, by simp⟩

/-- **The counter.** -/
theorem mallocCount (h : Moves m a m' b) :
    m'.mallocCount + a.length = m.mallocCount + b.length := by
  obtain ⟨n, fs, rfl, hperm⟩ := h
  have hlen := hperm.length_eq
  simp only [List.length_append, List.length_range'] at hlen
  simp only [Alloc.mallocCount, List.length_append]
  omega

end Moves

/-- Each block that was handed out since `m` was freed since, once, and no other block was. -/
def Released (m m' : Alloc) : Prop :=
  m.next ≤ m'.next ∧ ∃ fs, m'.freed = fs ++ m.freed ∧
    ∀ p, fs.count p = if m.next ≤ p ∧ p < m'.next then 1 else 0

theorem Moves.released {m m' : Alloc} (h : Moves m [] m' []) : Released m m' := by
  obtain ⟨n, fs, rfl, hperm⟩ := h
  refine ⟨Nat.le_add_right _ _, fs, rfl, fun p => ?_⟩
  rw [List.nil_append, List.nil_append] at hperm
  rw [hperm.count_eq]
  by_cases hp : m.next ≤ p ∧ p < m.next + n
  · rw [if_pos hp, List.count_eq_one_of_mem List.nodup_range' (List.mem_range'_1.mpr hp)]
  · rw [if_neg hp, List.count_eq_zero]
    exact fun hmem => hp (List.mem_range'_1.mp hmem)

/-! ## Calls that allocate -/

/--
An outcome of a run that took over the blocks `before` in the state `m`, and that of a call which
only reads: results that are related by `post`, or the same error. With a result the run leaves the
blocks `own` of it, and with a status the blocks `left`.
-/
def Agree (m : Alloc) (before : List Nat) (out : EStateM.Result (Err σ) Alloc α) (r : Res σ β)
    (post : α → β → Prop) (own : α → List Nat) (left : List Nat) : Prop :=
  match r with
  | .ok b => ∃ a m', out = .ok a m' ∧ post a b ∧ Moves m before m' (own a)
  | .error e => ∃ m', out = .error e m' ∧ (e ≠ .fault → Moves m before m' left)

/-- The calls agree from every state. -/
def Tracks (before : List Nat) (p : AllocM σ α) (r : Res σ β) (post : α → β → Prop)
    (own : α → List Nat) (left : List Nat) : Prop :=
  ∀ m, Agree m before (p m) r post own left

section Rules

variable {before before' left left' : List Nat} {p : AllocM σ α} {r : Res σ β}
  {post : α → β → Prop} {own own₂ : α → List Nat} {f : α → AllocM σ γ} {g : β → Res σ δ}
  {post' : γ → δ → Prop} {own' : γ → List Nat} {a : α} {b : β} {st : σ}

/-- What happened before. -/
theorem Agree.trans {m m' : Alloc} {out : EStateM.Result (Err σ) Alloc α}
    (hm : Moves m before m' before') (h : Agree m' before' out r post own left) :
    Agree m before out r post own left := by
  cases r with
  | ok b =>
    obtain ⟨a, m'', hout, hpost, hmoves⟩ := h
    exact ⟨a, m'', hout, hpost, hm.trans hmoves⟩
  | error e =>
    obtain ⟨m'', hout, hmoves⟩ := h
    exact ⟨m'', hout, fun he => hm.trans (hmoves he)⟩

namespace Tracks

theorem ret (hpost : post a b) (hown : before.Perm (own a)) :
    Tracks before (pure a : AllocM σ α) (.ok b) post own left :=
  fun m => ⟨a, m, rfl, hpost, Moves.of_perm hown⟩

theorem fail (h : before.Perm left) :
    Tracks before (throw (.status st) : AllocM σ α) (.error (.status st) : Res σ β) post own left :=
  fun m => ⟨m, rfl, fun _ => Moves.of_perm h⟩

theorem fault :
    Tracks before (throw .fault : AllocM σ α) (.error .fault : Res σ β) post own left :=
  fun m => ⟨m, rfl, fun h => absurd rfl h⟩

/-- A call with more blocks around, which it does not touch. -/
theorem frame (h : Tracks before p r post own left) (rest : List Nat) :
    Tracks (before ++ rest) p r post (fun a => own a ++ rest) (left ++ rest) := by
  intro m
  have hm := h m
  cases r with
  | ok b =>
    obtain ⟨a, m', hrun, hpost, hmoves⟩ := hm
    exact ⟨a, m', hrun, hpost, hmoves.frame rest⟩
  | error e =>
    obtain ⟨m', hrun, hmoves⟩ := hm
    exact ⟨m', hrun, fun he => (hmoves he).frame rest⟩

/-- The blocks in another order. -/
theorem perm (h : Tracks before p r post own left) (hbefore : before'.Perm before)
    (hown : ∀ a, (own a).Perm (own₂ a)) (hleft : left.Perm left') :
    Tracks before' p r post own₂ left' := by
  intro m
  have hm := (h m).trans (Moves.of_perm hbefore)
  cases r with
  | ok b =>
    obtain ⟨a, m', hrun, hpost, hmoves⟩ := hm
    exact ⟨a, m', hrun, hpost, hmoves.trans (Moves.of_perm (hown a))⟩
  | error e =>
    obtain ⟨m', hrun, hmoves⟩ := hm
    exact ⟨m', hrun, fun he => (hmoves he).trans (Moves.of_perm hleft)⟩

/-- A weaker relation of the results. -/
theorem mono {post₂ : α → β → Prop} (h : Tracks before p r post own left)
    (hpost : ∀ a b, post a b → post₂ a b) : Tracks before p r post₂ own left := by
  intro m
  have hm := h m
  cases r with
  | ok b =>
    obtain ⟨a, m', hrun, ha, hmoves⟩ := hm
    exact ⟨a, m', hrun, hpost a b ha, hmoves⟩
  | error e => exact hm

/-- **One call after another**, where a failure of the first is one of both. -/
theorem bind (hp : Tracks before p r post own left)
    (hf : ∀ a b, r = .ok b → post a b → Tracks (own a) (f a) (g b) post' own' left) :
    Tracks before (p >>= f) (r >>= g) post' own' left := by
  intro m
  have hm := hp m
  cases r with
  | ok b =>
    obtain ⟨a, m', hrun, hpost, hmoves⟩ := hm
    rw [bind_of_ok hrun]
    exact (hf a b rfl hpost m').trans hmoves
  | error e =>
    obtain ⟨m', hrun, hmoves⟩ := hm
    exact ⟨m', bind_of_error hrun, hmoves⟩

/-- **A call whose status is looked at.** -/
theorem attempt (hp : Tracks before p r post own left) {k : Except σ α → AllocM σ γ}
    {out : Res σ δ}
    (hok : ∀ a b, r = .ok b → post a b → Tracks (own a) (k (.ok a)) out post' own' left')
    (herr : ∀ st, r = .error (.status st) → Tracks left (k (.error st)) out post' own' left')
    (hfault : r = .error .fault → out = .error .fault) :
    Tracks before (Infra.attempt p >>= k) out post' own' left' := by
  intro m
  have hm := hp m
  cases hr : r with
  | ok b =>
    rw [hr] at hm
    obtain ⟨a, m', hrun, hpost, hmoves⟩ := hm
    have hattempt : Infra.attempt p m = .ok (.ok a) m' := by rw [Infra.attempt, hrun]
    rw [bind_of_ok hattempt]
    exact (hok a b hr hpost m').trans hmoves
  | error e =>
    rw [hr] at hm
    obtain ⟨m', hrun, hmoves⟩ := hm
    cases e with
    | status st =>
      have hattempt : Infra.attempt p m = .ok (.error st) m' := by rw [Infra.attempt, hrun]
      rw [bind_of_ok hattempt]
      exact (herr st hr m').trans (hmoves (by simp))
    | fault =>
      have hattempt : Infra.attempt p m = .error .fault m' := by rw [Infra.attempt, hrun]
      rw [hfault hr]
      exact ⟨m', bind_of_error hattempt, fun he => absurd rfl he⟩

/-- A read that fails in no other way than by being undefined. -/
theorem read {r : Res σ α} {g : α → Res σ δ} (hst : ∀ st, r ≠ .error (.status st))
    (hf : ∀ a, r = .ok a → Tracks before (f a) (g a) post' own' left) :
    Tracks before (readOnly r >>= f) (r >>= g) post' own' left := by
  intro m
  cases r with
  | ok a => exact hf a rfl m
  | error e =>
    cases e with
    | status st => exact absurd rfl (hst st)
    | fault => exact ⟨m, rfl, fun h => absurd rfl h⟩

/-- One block more, or none for no bytes. -/
theorem malloc {s : Nat} {f : Ptr → AllocM σ α}
    (hf : ∀ ptr : Ptr, Tracks (ptr.toList ++ before) (f ptr) r post own left) :
    Tracks before (safeMalloc s >>= f) r post own left := by
  intro m
  by_cases hs : s = 0
  · have hrun : safeMalloc (σ := σ) s m = .ok none m := by rw [safeMalloc, if_pos hs]
    rw [bind_of_ok hrun]
    exact hf none m
  · have hrun : safeMalloc (σ := σ) s m = .ok (some m.next) ⟨m.next + 1, m.freed⟩ := by
      rw [safeMalloc, if_neg hs]
    rw [bind_of_ok hrun]
    exact (hf (some m.next) _).trans (Moves.malloc.frame before)

/-- One block less, or none for `NULL`. -/
theorem free {ptr : Ptr} {f : Unit → AllocM σ α} (hf : Tracks before (f ()) r post own left) :
    Tracks (ptr.toList ++ before) (safeFree ptr >>= f) r post own left := by
  intro m
  cases ptr with
  | none => exact hf m
  | some p =>
    have hrun : safeFree (σ := σ) (some p) m = .ok () ⟨m.next, p :: m.freed⟩ := rfl
    rw [bind_of_ok hrun]
    exact (hf _).trans (Moves.free.frame before)

/-- What only the reading call does with its result. -/
theorem map_right {h : β → δ} {post : α → δ → Prop}
    (hp : Tracks before p r (fun a b => post a (h b)) own left) :
    Tracks before p (r >>= fun b => .ok (h b)) post own left := by
  intro m
  have hm := hp m
  cases r with
  | ok b => exact hm
  | error e => exact hm

/-- A failure of the first call is handled, and then one of both. -/
theorem attempt_bind (hp : Tracks before p r post own left) {k : Except σ α → AllocM σ γ}
    (hok : ∀ a b, r = .ok b → post a b → Tracks (own a) (k (.ok a)) (g b) post' own' left')
    (herr : ∀ st, Tracks left (k (.error st)) (.error (.status st)) post' own' left') :
    Tracks before (Infra.attempt p >>= k) (r >>= g) post' own' left' := by
  refine attempt hp (fun a b hr hpost => ?_) (fun st hr => ?_) fun hr => ?_
  · rw [hr]
    exact hok a b hr hpost
  · rw [hr]
    exact herr st
  · rw [hr]
    rfl

end Tracks

/-! ## Calls that free -/

/-- The outcome of a run that frees the blocks `before`, as far as it is defined. -/
def Frees.At (m : Alloc) (before : List Nat) (out : EStateM.Result (Err σ) Alloc Unit)
    (r : Res σ Unit) : Prop :=
  match r with
  | .ok _ => ∃ m', out = .ok () m' ∧ Moves m before m' []
  | .error (.status _) => False
  | .error .fault => ∃ m', out = .error .fault m'

/-- A call that frees the blocks `before`. -/
def Frees (before : List Nat) (p : AllocM σ Unit) (r : Res σ Unit) : Prop :=
  ∀ m, Frees.At m before (p m) r

namespace Frees

variable {p q : AllocM σ Unit} {r r' : Res σ Unit}

theorem At.trans {m m' : Alloc} {out : EStateM.Result (Err σ) Alloc Unit}
    (hm : Moves m before m' before') (h : At m' before' out r) : At m before out r := by
  match r with
  | .ok _ =>
    obtain ⟨m'', hout, hmoves⟩ := h
    exact ⟨m'', hout, hm.trans hmoves⟩
  | .error (.status _) => exact h
  | .error .fault => exact h

theorem nil : Frees [] (pure () : AllocM σ Unit) (.ok ()) :=
  fun m => ⟨m, rfl, Moves.of_perm (.refl [])⟩

theorem ptr (ptr : Ptr) : Frees ptr.toList (safeFree ptr : AllocM σ Unit) (.ok ()) := by
  intro m
  cases ptr with
  | none => exact nil m
  | some p => exact ⟨_, rfl, Moves.free⟩

theorem andThen (hp : Frees before p r) (hq : Frees before' q r') :
    Frees (before ++ before') (do p; q) (do r; r') := by
  intro m
  have hm := hp m
  match r with
  | .ok _ =>
    obtain ⟨m₁, hrun, hmoves⟩ := hm
    rw [bind_of_ok hrun]
    exact (hq m₁).trans (hmoves.frame before')
  | .error (.status _) => exact hm
  | .error .fault =>
    obtain ⟨m', hrun⟩ := hm
    exact ⟨m', bind_of_error hrun⟩

/-- A read that fails in no other way than by being undefined. -/
theorem read {r : Res σ α} {f : α → AllocM σ Unit} {g : α → Res σ Unit}
    (hst : ∀ st, r ≠ .error (.status st)) (hf : ∀ a, Frees before (f a) (g a)) :
    Frees before (readOnly r >>= f) (r >>= g) := by
  intro m
  match r with
  | .ok a => exact hf a m
  | .error (.status st) => exact absurd rfl (hst st)
  | .error .fault => exact ⟨m, rfl⟩

/-- What follows is defined. -/
theorem andThenOk (hp : Frees before p r) (hq : Frees before' q (.ok ())) :
    Frees (before ++ before') (do p; q) r := by
  have h := hp.andThen hq
  cases r <;> exact h

/-- A block that is freed last. -/
theorem thenFree (hp : Frees before p r) (last : Ptr) :
    Frees (before ++ last.toList) (do p; safeFree last) r := hp.andThenOk (ptr last)

/-- Blocks that are freed before another call. -/
theorem andThenTracks {r : Res σ Unit} {f : Unit → AllocM σ α} {g : Unit → Res σ β}
    (hp : Frees before q r) (hf : Tracks before' (f ()) (g ()) post own left) :
    Tracks (before ++ before') (q >>= f) (r >>= g) post own left := by
  intro m
  have hm := hp m
  match r with
  | .ok _ =>
    obtain ⟨m₁, hrun, hmoves⟩ := hm
    rw [bind_of_ok hrun]
    exact (hf m₁).trans (hmoves.frame before')
  | .error (.status _) => exact hm.elim
  | .error .fault =>
    obtain ⟨m', hrun⟩ := hm
    exact ⟨m', bind_of_error hrun, fun h => absurd rfl h⟩

/-- What is left is freed, and then the call fails. -/
theorem thenFail {r : Res σ Unit} (hp : Frees before q r) :
    Tracks before (q >>= fun _ => throw (.status st)) (r >>= fun _ => .error (.status st))
      post own [] := by
  have hfail : Tracks [] (throw (.status st) : AllocM σ α) (.error (.status st)) post own [] :=
    Tracks.fail (.refl [])
  have h := hp.andThenTracks (f := fun _ => throw (.status st)) (g := fun _ => .error (.status st))
    hfail
  rwa [List.append_nil] at h

end Frees

end Rules

end Chlibs.Infra

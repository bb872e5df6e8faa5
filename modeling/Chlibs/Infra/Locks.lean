import Chlibs.Infra.Calls
import Chlibs.Infra.Program

/-!
# Programs under locks

Data that have a shape and parts, under a readers-writer lock for the shape and a mutex for each
part.

* `Guarded` — accesses to such data; `Guarded.Lawful` — that they touch no more than they say.
* `Guarded.solo` — the uninterrupted run of a program.
* `Phase.next` — the discipline: the readers-writer lock first, under it for reading no more than
  one mutex, and a part only under its mutex. `EndsIn`, `Follows` — a program keeps to it.
* `Locks.attempt` — what becomes of an operation of one thread beside the locks of the others.
* `LockInv.step`, `LockInv.defined` — threads that keep to the discipline own what they think
  they do, and no lock operation of theirs is undefined.
-/

namespace Chlibs.Infra

/-- What a program performs. -/
inductive LockOp (Acc κ : Type) where
  | rdlock
  | wrlock
  | rwunlock
  | lock (k : κ)
  | unlock (k : κ)
  | access (a : Acc)

/-- Only an access has an answer. -/
@[reducible] def LockOp.Ans {Acc κ : Type} (Ans : Acc → Type) : LockOp Acc κ → Type
  | .access a => Ans a
  | _ => Unit

/-- What an access touches: it reads the shape, it also changes one part, or it changes anything. -/
inductive Footprint (κ : Type) where
  | reads
  | part (k : κ)
  | writes
  deriving DecidableEq

/-- Data of type `σ`, with a shape in `γ` and for each `k : κ` a part in `π`. An access is
undefined where it gives `none`. -/
structure Guarded (Acc : Type) (Ans : Acc → Type) (κ σ γ π : Type) where
  access : (a : Acc) → σ → Option (Ans a × σ)
  footprint : Acc → Footprint κ
  shape : σ → γ
  part : σ → κ → π
  /-- the part is there, and its mutex with it -/
  live : γ → κ → Bool

variable {Acc : Type} {Ans : Acc → Type} {κ σ γ π τ ρ : Type}

abbrev LockProg (κ : Type) (Ans : Acc → Type) (ρ : Type) := Prog (LockOp Acc κ) (LockOp.Ans Ans) ρ

namespace Guarded

variable (D : Guarded Acc Ans κ σ γ π)

/-- The states agree on the shape and on a part. -/
def Agree (k : κ) (s s' : σ) : Prop := D.shape s = D.shape s' ∧ D.part s k = D.part s' k

/-- No more than one part is different. -/
def Changes (k : κ) (s s' : σ) : Prop :=
  D.shape s' = D.shape s ∧ ∀ j, j ≠ k → D.part s' j = D.part s j

/-- Accesses keep to their footprints. -/
structure Lawful : Prop where
  ext : ∀ s s', D.shape s = D.shape s' → (∀ k, D.part s k = D.part s' k) → s = s'
  reads : ∀ {a s s' x s₁}, D.footprint a = .reads → D.shape s = D.shape s' →
    D.access a s = some (x, s₁) → D.access a s' = some (x, s')
  part : ∀ {a k s s' x s₁}, D.footprint a = .part k → D.Agree k s s' →
    D.access a s = some (x, s₁) →
    ∃ s₁', D.access a s' = some (x, s₁') ∧ D.part s₁' k = D.part s₁ k ∧ D.Changes k s' s₁'

theorem Changes.refl (k : κ) (s : σ) : D.Changes k s s := ⟨rfl, fun _ _ => rfl⟩

variable {D} in
theorem Changes.trans {k : κ} {s s' s'' : σ} (h : D.Changes k s s') (h' : D.Changes k s' s'') :
    D.Changes k s s'' :=
  ⟨h'.1.trans h.1, fun j hj => (h'.2 j hj).trans (h.2 j hj)⟩

/-- An operation with nobody else there. To use the mutex of a part that is gone is undefined. -/
def soloOp : (o : LockOp Acc κ) → σ → Option (LockOp.Ans Ans o × σ)
  | .access a, s => D.access a s
  | .lock k, s => if D.live (D.shape s) k then some ((), s) else none
  | .unlock k, s => if D.live (D.shape s) k then some ((), s) else none
  | .rdlock, s => some ((), s)
  | .wrlock, s => some ((), s)
  | .rwunlock, s => some ((), s)

/-- **An uninterrupted run.** -/
def solo : LockProg κ Ans ρ → CallM σ ρ
  | .done a, s => some (a, s)
  | .fault, _ => none
  | .perform o k, s => (D.soloOp o s).bind fun r => solo (k r.1) r.2

@[simp] theorem solo_done (a : ρ) (s : σ) : D.solo (.done a) s = some (a, s) := rfl

@[simp] theorem solo_fault (s : σ) : D.solo (.fault : LockProg κ Ans ρ) s = none := rfl

theorem solo_perform (o : LockOp Acc κ) (k : LockOp.Ans Ans o → LockProg κ Ans ρ) (s : σ) :
    D.solo (.perform o k) s = (D.soloOp o s).bind fun r => D.solo (k r.1) r.2 := rfl

/-- A run goes through the first part of a program and then through the second. -/
theorem solo_bind {ρ' : Type} (p : LockProg κ Ans ρ) (f : ρ → LockProg κ Ans ρ') (s : σ) :
    D.solo (p >>= f) s = (D.solo p s).bind fun r => D.solo (f r.1) r.2 := by
  induction p generalizing s with
  | done a => rfl
  | fault => rfl
  | perform o k ih =>
    rw [Prog.perform_bind, solo_perform, solo_perform, Option.bind_assoc]
    exact congrArg _ (funext fun r => ih r.1 r.2)

end Guarded

/-! ## The discipline -/

/-- How far a program is, by the locks that it has. -/
inductive Phase (κ : Type) where
  | before
  /-- the lock for reading, no mutex so far -/
  | reading
  /-- the lock for reading and a mutex -/
  | inPart (k : κ)
  /-- the lock for reading, the mutex was given back -/
  | leaving
  /-- the lock for writing, perhaps a mutex -/
  | writing (k : Option κ)
  | after

namespace Phase

def IsReader : Phase κ → Prop
  | reading => True
  | inPart _ => True
  | leaving => True
  | _ => False

def IsWriter : Phase κ → Prop
  | writing _ => True
  | _ => False

/-- The mutex that it has. -/
def mutex : Phase κ → Option κ
  | inPart k => some k
  | writing k => k
  | _ => none

/-- Where an operation leads, if it may be performed. -/
def next [DecidableEq κ] (footprint : Acc → Footprint κ) : Phase κ → LockOp Acc κ → Option (Phase κ)
  | before, .rdlock => some reading
  | before, .wrlock => some (writing none)
  | reading, .access a => if footprint a = .reads then some reading else none
  | reading, .lock k => some (inPart k)
  | reading, .rwunlock => some after
  | inPart k, .access a =>
    if footprint a = .reads ∨ footprint a = .part k then some (inPart k) else none
  | inPart k, .unlock k' => if k' = k then some leaving else none
  | leaving, .access a => if footprint a = .reads then some leaving else none
  | leaving, .rwunlock => some after
  | writing none, .access a =>
    if footprint a = .reads ∨ footprint a = .writes then some (writing none) else none
  | writing none, .lock k => some (writing (some k))
  | writing none, .rwunlock => some after
  | writing (some k), .access a =>
    if footprint a = .reads ∨ footprint a = .part k then some (writing (some k)) else none
  | writing (some k), .unlock k' => if k' = k then some (writing none) else none
  | _, _ => none

end Phase

/-- The program keeps to the discipline, whatever its accesses are answered, and ends in a phase
of these. -/
def EndsIn [DecidableEq κ] (footprint : Acc → Footprint κ) (Q : Phase κ → Prop) :
    LockProg κ Ans ρ → Phase κ → Prop
  | .done _, ph => Q ph
  | .fault, _ => True
  | .perform o k, ph =>
    ∃ ph', ph.next footprint o = some ph' ∧ ∀ x, EndsIn footprint Q (k x) ph'

/-- No lock is held. -/
def Phase.IsOutside : Phase κ → Prop
  | before => True
  | after => True
  | _ => False

/-- The program keeps to the discipline, and gives its locks back. -/
abbrev Follows [DecidableEq κ] (footprint : Acc → Footprint κ) (p : LockProg κ Ans ρ)
    (ph : Phase κ) : Prop :=
  EndsIn footprint Phase.IsOutside p ph

section EndsIn

variable [DecidableEq κ] {footprint : Acc → Footprint κ} {Q Q' : Phase κ → Prop} {ph ph' : Phase κ}

theorem endsIn_pure (a : ρ) (h : Q ph) :
    EndsIn footprint Q (pure a : LockProg κ Ans ρ) ph := h

theorem EndsIn.bind {ρ' : Type} {p : LockProg κ Ans ρ} {f : ρ → LockProg κ Ans ρ'}
    (hp : EndsIn footprint Q p ph) (hf : ∀ a ph, Q ph → EndsIn footprint Q' (f a) ph) :
    EndsIn footprint Q' (p >>= f) ph := by
  induction p generalizing ph with
  | done a => exact hf a ph hp
  | fault => trivial
  | perform o k ih =>
    obtain ⟨ph', hnext, hk⟩ := hp
    exact ⟨ph', hnext, fun x => ih x (hk x)⟩

/-- One operation. -/
theorem endsIn_perform {o : LockOp Acc κ} {k : LockOp.Ans Ans o → LockProg κ Ans ρ}
    (h : ph.next footprint o = some ph') (hk : ∀ x, EndsIn footprint Q (k x) ph') :
    EndsIn footprint Q (.perform o k) ph := ⟨ph', h, hk⟩

end EndsIn

theorem Phase.holds_of_mutex {ph : Phase κ} {k : κ} (h : ph.mutex = some k) :
    ph.IsReader ∨ ph.IsWriter := by
  cases ph with
  | inPart j => exact .inl trivial
  | writing m => exact .inr trivial
  | before => cases h
  | reading => cases h
  | leaving => cases h
  | after => cases h

/-! ## Uninterrupted runs in the phases of a reader -/

section Reader

variable {D : Guarded Acc Ans κ σ γ π} {p : LockProg κ Ans ρ}

theorem Guarded.Lawful.reads_self (hD : D.Lawful) {a : Acc} {s s₁ : σ} {x : Ans a}
    (hf : D.footprint a = .reads) (h : D.access a s = some (x, s₁)) : s₁ = s := by
  have hself := hD.reads hf rfl h
  rw [h] at hself
  simpa using hself

theorem Guarded.Lawful.part_self (hD : D.Lawful) {a : Acc} {k : κ} {s s₁ : σ} {x : Ans a}
    (hf : D.footprint a = .part k) (h : D.access a s = some (x, s₁)) : D.Changes k s s₁ := by
  obtain ⟨s₁', haccess, -, hchanges⟩ := hD.part hf ⟨rfl, rfl⟩ h
  rw [h] at haccess
  cases haccess
  exact hchanges

variable [DecidableEq κ]

/-- All that is left in the phase `after` is the result. -/
theorem Follows.after (h : Follows D.footprint p .after) : p = .fault ∨ ∃ a, p = .done a := by
  cases p with
  | done a => exact .inr ⟨a, rfl⟩
  | fault => exact .inl rfl
  | perform o k =>
    obtain ⟨ph', hnext, -⟩ := h
    cases o <;> cases hnext

/-- **A program that only reads on** depends on the shape only, and changes nothing. -/
theorem solo_leaving (hD : D.Lawful) {a : ρ} {s s' s₁ : σ} {ph : Phase κ}
    (hph : ph = .leaving ∨ ph = .after) (hp : Follows D.footprint p ph)
    (hshape : D.shape s = D.shape s') (h : D.solo p s = some (a, s₁)) :
    D.solo p s' = some (a, s') := by
  induction p generalizing s s' ph with
  | done b => cases h; rfl
  | fault => cases h
  | perform o k ih =>
    obtain ⟨ph', hnext, hk⟩ := hp
    rw [Guarded.solo_perform] at h ⊢
    rcases hph with rfl | rfl
    · cases o with
      | access b =>
        obtain ⟨⟨x, s₂⟩, hacc, hrest⟩ := Option.bind_eq_some_iff.mp h
        simp only [Phase.next] at hnext
        split at hnext
        · next hf =>
          cases hnext
          obtain rfl := hD.reads_self hf hacc
          have hacc' : D.soloOp (.access b) s' = some (x, s') := hD.reads hf hshape hacc
          rw [hacc']
          exact ih x (.inl rfl) (hk x) hshape hrest
        · cases hnext
      | rwunlock =>
        cases hnext
        exact ih () (.inr rfl) (hk ()) hshape h
      | rdlock => cases hnext
      | wrlock => cases hnext
      | lock j => cases hnext
      | unlock j => cases hnext
    · cases o <;> cases hnext

/-- **A program under a mutex** depends on the shape and on its part, and changes no other part. -/
theorem solo_inPart (hD : D.Lawful) {a : ρ} {k : κ} {s s' s₁ : σ}
    (hp : Follows D.footprint p (.inPart k)) (hagree : D.Agree k s s')
    (h : D.solo p s = some (a, s₁)) :
    ∃ s₁', D.solo p s' = some (a, s₁') ∧ D.part s₁' k = D.part s₁ k ∧ D.Changes k s' s₁' := by
  induction p generalizing s s' with
  | done b => exact hp.elim
  | fault => cases h
  | perform o q ih =>
    obtain ⟨ph', hnext, hq⟩ := hp
    rw [Guarded.solo_perform] at h ⊢
    cases o with
    | access b =>
      obtain ⟨⟨x, s₂⟩, hacc, hrest⟩ := Option.bind_eq_some_iff.mp h
      simp only [Phase.next] at hnext
      split at hnext
      · next hf =>
        cases hnext
        rcases hf with hf | hf
        · obtain rfl := hD.reads_self hf hacc
          have hacc' : D.soloOp (.access b) s' = some (x, s') := hD.reads hf hagree.1 hacc
          rw [hacc']
          exact ih x (hq x) hagree hrest
        · obtain ⟨s₂', hacc', hpart, hchanges⟩ := hD.part hf hagree hacc
          have hacc'' : D.soloOp (.access b) s' = some (x, s₂') := hacc'
          have hagree' : D.Agree k s₂ s₂' :=
            ⟨(hD.part_self hf hacc).1.trans (hagree.1.trans hchanges.1.symm), hpart.symm⟩
          obtain ⟨s₁', hrun, hend, hchanges'⟩ := ih x (hq x) hagree' hrest
          rw [hacc'']
          exact ⟨s₁', hrun, hend, hchanges.trans hchanges'⟩
      · cases hnext
    | unlock j =>
      simp only [Phase.next] at hnext
      split at hnext
      · cases hnext
        obtain ⟨⟨x, s₂⟩, hop, hrest⟩ := Option.bind_eq_some_iff.mp h
        simp only [Guarded.soloOp] at hop
        split at hop
        · next hlive =>
          cases hop
          have hop' : D.soloOp (.unlock j) s' = some ((), s') := by
            rw [hagree.1] at hlive
            exact if_pos hlive
          have hsame : s₁ = s := by
            have hself := solo_leaving hD (.inl rfl) (hq ()) rfl hrest
            rw [hrest] at hself
            simpa using hself
          rw [hop', hsame]
          exact ⟨s', solo_leaving hD (.inl rfl) (hq ()) hagree.1 hrest, hagree.2.symm,
            .refl D k s'⟩
        · cases hop
      · cases hnext
    | rdlock => cases hnext
    | wrlock => cases hnext
    | rwunlock => cases hnext
    | lock j => cases hnext

end Reader

/-! ## Locks -/

/-- Who has what. -/
structure Locks (τ κ : Type) where
  readers : List τ
  writer : Option τ
  owner : κ → Option τ

/-- What becomes of an operation. -/
inductive Attempt (α : Type) where
  | waits
  | undefined
  | goes (x : α)

namespace Locks

def free : Locks τ κ := { readers := [], writer := none, owner := fun _ => none }

variable [DecidableEq τ] [DecidableEq κ]

/-- An operation of thread `t`. To take a lock twice, or to give back what one does not have, is
undefined. -/
def attempt (L : Locks τ κ) (t : τ) : LockOp Acc κ → Attempt (Locks τ κ)
  | .rdlock =>
    if L.writer = some t ∨ t ∈ L.readers then .undefined
    else if L.writer.isSome then .waits
    else .goes { L with readers := t :: L.readers }
  | .wrlock =>
    if L.writer = some t ∨ t ∈ L.readers then .undefined
    else if L.writer.isSome ∨ L.readers ≠ [] then .waits
    else .goes { L with writer := some t }
  | .rwunlock =>
    if L.writer = some t then .goes { L with writer := none }
    else if t ∈ L.readers then .goes { L with readers := L.readers.erase t }
    else .undefined
  | .lock k =>
    if L.owner k = some t then .undefined
    else if (L.owner k).isSome then .waits
    else .goes { L with owner := Function.update L.owner k (some t) }
  | .unlock k =>
    if L.owner k = some t then .goes { L with owner := Function.update L.owner k none }
    else .undefined
  | .access _ => .goes L

end Locks

/-- A thread in this phase has these locks. -/
structure Locks.Has (L : Locks τ κ) (t : τ) (ph : Phase κ) : Prop where
  reader : t ∈ L.readers ↔ ph.IsReader
  writer : L.writer = some t ↔ ph.IsWriter
  owner : ∀ k, L.owner k = some t ↔ ph.mutex = some k

/-- The locks are those of the phases. -/
structure LockInv (L : Locks τ κ) (phase : τ → Phase κ) : Prop where
  has : ∀ t, L.Has t (phase t)
  nodup : L.readers.Nodup
  exclusive : L.writer.isSome → L.readers = []

theorem lockInv_free : LockInv (Locks.free : Locks τ κ) fun _ => .before where
  has t := ⟨by simp [Locks.free, Phase.IsReader], by simp [Locks.free, Phase.IsWriter],
    by simp [Locks.free, Phase.mutex]⟩
  nodup := List.nodup_nil
  exclusive h := by cases h

section LockInv

variable {L L' : Locks τ κ} {phase : τ → Phase κ} {t u : τ}

/-- A writer is alone. -/
theorem LockInv.not_reader (h : LockInv L phase) (ht : (phase t).IsWriter) :
    ¬(phase u).IsReader := by
  intro hu
  have hwriter := (h.has t).writer.mpr ht
  have hmem := (h.has u).reader.mpr hu
  rw [h.exclusive (by rw [hwriter]; rfl)] at hmem
  cases hmem

theorem LockInv.writer_unique (h : LockInv L phase) (ht : (phase t).IsWriter)
    (hu : (phase u).IsWriter) : u = t := by
  have hwriter := (h.has u).writer.mpr hu
  rw [(h.has t).writer.mpr ht] at hwriter
  exact (Option.some.inj hwriter).symm

/-- No two threads have one mutex. -/
theorem LockInv.mutex_unique (h : LockInv L phase) {k : κ} (ht : (phase t).mutex = some k)
    (hu : (phase u).mutex = some k) : u = t := by
  have howner := ((h.has u).owner k).mpr hu
  rw [((h.has t).owner k).mpr ht] at howner
  exact (Option.some.inj howner).symm

variable [DecidableEq τ]

/-- Locks of one thread change, and those of the others stay. -/
theorem LockInv.update (h : LockInv L phase) {ph' : Phase κ} (hself : L'.Has t ph')
    (hothers : ∀ u, u ≠ t → L.Has u (phase u) → L'.Has u (phase u)) (hnodup : L'.readers.Nodup)
    (hexclusive : L'.writer.isSome → L'.readers = []) :
    LockInv L' (Function.update phase t ph') where
  has u := by
    by_cases hu : u = t
    · subst hu
      rw [Function.update_self]
      exact hself
    · rw [Function.update_of_ne hu]
      exact hothers u hu (h.has u)
  nodup := hnodup
  exclusive := hexclusive

/-- What is true of no phase after a step was true of none before, but perhaps of the thread's. -/
theorem not_of_update {P : Phase κ → Prop} {ph' : Phase κ}
    (hall : ∀ u, ¬P (Function.update phase t ph' u)) (ht : ¬P (phase t)) : ∀ u, ¬P (phase u) := by
  intro u
  by_cases hu : u = t
  · rwa [hu]
  · have hother := hall u
    rwa [Function.update_of_ne hu] at hother

theorem not_all_not_isWriter {m : Option κ}
    (hall : ∀ u, ¬(Function.update phase t (.writing m) u).IsWriter) : False := by
  have ht := hall t
  rw [Function.update_self] at ht
  exact ht trivial

end LockInv

/-! ## What keeping to the discipline gives -/

section Discipline

variable [DecidableEq κ] {footprint : Acc → Footprint κ} {ph ph' : Phase κ} {k : κ}

theorem next_rdlock (h : ph.next footprint .rdlock = some ph') : ph = .before ∧ ph' = .reading := by
  cases ph with
  | before =>
    cases h
    exact ⟨rfl, rfl⟩
  | reading => cases h
  | inPart j => cases h
  | leaving => cases h
  | writing m => cases m <;> cases h
  | after => cases h

theorem next_wrlock (h : ph.next footprint .wrlock = some ph') :
    ph = .before ∧ ph' = .writing none := by
  cases ph with
  | before =>
    cases h
    exact ⟨rfl, rfl⟩
  | reading => cases h
  | inPart j => cases h
  | leaving => cases h
  | writing m => cases m <;> cases h
  | after => cases h

theorem next_rwunlock (h : ph.next footprint .rwunlock = some ph') :
    (ph.IsReader ∨ ph.IsWriter) ∧ ph.mutex = none ∧ ph' = .after := by
  cases ph with
  | before => cases h
  | reading =>
    cases h
    exact ⟨.inl trivial, rfl, rfl⟩
  | inPart j => cases h
  | leaving =>
    cases h
    exact ⟨.inl trivial, rfl, rfl⟩
  | writing m =>
    cases m with
    | none =>
      cases h
      exact ⟨.inr trivial, rfl, rfl⟩
    | some j => cases h
  | after => cases h

/-- The lock is kept, and the mutex is the only one. -/
theorem next_lock (h : ph.next footprint (.lock k) = some ph') :
    ph.mutex = none ∧ ph'.mutex = some k ∧ (ph'.IsReader ↔ ph.IsReader) ∧
      (ph'.IsWriter ↔ ph.IsWriter) := by
  cases ph with
  | before => cases h
  | reading =>
    cases h
    exact ⟨rfl, rfl, Iff.rfl, Iff.rfl⟩
  | inPart j => cases h
  | leaving => cases h
  | writing m =>
    cases m with
    | none =>
      cases h
      exact ⟨rfl, rfl, Iff.rfl, Iff.rfl⟩
    | some j => cases h
  | after => cases h

theorem next_unlock (h : ph.next footprint (.unlock k) = some ph') :
    ph.mutex = some k ∧ ph'.mutex = none ∧ (ph'.IsReader ↔ ph.IsReader) ∧
      (ph'.IsWriter ↔ ph.IsWriter) := by
  cases ph with
  | before => cases h
  | reading => cases h
  | inPart j =>
    simp only [Phase.next] at h
    split at h
    · next hk =>
      cases h
      exact ⟨congrArg some hk.symm, rfl, Iff.rfl, Iff.rfl⟩
    · cases h
  | leaving => cases h
  | writing m =>
    cases m with
    | none => cases h
    | some j =>
      simp only [Phase.next] at h
      split at h
      · next hk =>
        cases h
        exact ⟨congrArg some hk.symm, rfl, Iff.rfl, Iff.rfl⟩
      · cases h
  | after => cases h

/-- A part is accessed under its mutex, and anything by a writer that has no mutex. -/
theorem next_access {a : Acc} (h : ph.next footprint (.access a) = some ph') :
    ph' = ph ∧ (ph.IsReader ∨ ph.IsWriter) ∧
      (footprint a = .writes → ph = .writing none) ∧
      ∀ k, footprint a = .part k → ph.mutex = some k := by
  cases ph with
  | before => cases h
  | after => cases h
  | reading =>
    simp only [Phase.next] at h
    split at h
    · next hf =>
      cases h
      exact ⟨rfl, .inl trivial, by simp [hf], by simp [hf]⟩
    · cases h
  | inPart j =>
    simp only [Phase.next] at h
    split at h
    · next hf =>
      cases h
      refine ⟨rfl, .inl trivial, ?_, ?_⟩
      · rcases hf with hf | hf <;> simp [hf]
      · rcases hf with hf | hf <;> simp [hf, Phase.mutex]
    · cases h
  | leaving =>
    simp only [Phase.next] at h
    split at h
    · next hf =>
      cases h
      exact ⟨rfl, .inl trivial, by simp [hf], by simp [hf]⟩
    · cases h
  | writing m =>
    cases m with
    | none =>
      simp only [Phase.next] at h
      split at h
      · next hf =>
        cases h
        refine ⟨rfl, .inr trivial, fun _ => rfl, ?_⟩
        rcases hf with hf | hf <;> simp [hf]
      · cases h
    | some j =>
      simp only [Phase.next] at h
      split at h
      · next hf =>
        cases h
        refine ⟨rfl, .inr trivial, ?_, ?_⟩
        · rcases hf with hf | hf <;> simp [hf]
        · rcases hf with hf | hf <;> simp [hf, Phase.mutex]
      · cases h

variable [DecidableEq τ] {L L' : Locks τ κ} {phase : τ → Phase κ} {t : τ} {o : LockOp Acc κ}

/-- **No lock operation is undefined.** -/
theorem LockInv.defined (h : LockInv L phase) (hnext : (phase t).next footprint o = some ph') :
    L.attempt t o ≠ .undefined := by
  have hhas := h.has t
  cases o with
  | rdlock =>
    obtain ⟨hph, -⟩ := next_rdlock hnext
    rw [hph] at hhas
    have hnone : ¬(L.writer = some t ∨ t ∈ L.readers) := by
      rintro (hw | hr)
      · exact hhas.writer.mp hw
      · exact hhas.reader.mp hr
    rw [Locks.attempt, if_neg hnone]
    split <;> simp
  | wrlock =>
    obtain ⟨hph, -⟩ := next_wrlock hnext
    rw [hph] at hhas
    have hnone : ¬(L.writer = some t ∨ t ∈ L.readers) := by
      rintro (hw | hr)
      · exact hhas.writer.mp hw
      · exact hhas.reader.mp hr
    rw [Locks.attempt, if_neg hnone]
    split <;> simp
  | rwunlock =>
    obtain ⟨hhold, -, -⟩ := next_rwunlock hnext
    simp only [Locks.attempt]
    split
    · simp
    · next hw =>
      have hr : t ∈ L.readers :=
        hhas.reader.mpr (hhold.resolve_right fun hwriter => hw (hhas.writer.mpr hwriter))
      rw [if_pos hr]
      simp
  | lock k =>
    obtain ⟨hmutex, -⟩ := next_lock hnext
    have hother : L.owner k ≠ some t := fun howner => by
      have hk := (hhas.owner k).mp howner
      rw [hmutex] at hk
      cases hk
    rw [Locks.attempt, if_neg hother]
    split <;> simp
  | unlock k =>
    obtain ⟨hmutex, -⟩ := next_unlock hnext
    rw [Locks.attempt, if_pos ((hhas.owner k).mpr hmutex)]
    simp
  | access a => simp [Locks.attempt]

/-- **What a thread does in its phase** leaves it with the locks of the next one. -/
theorem LockInv.step (h : LockInv L phase) (hnext : (phase t).next footprint o = some ph')
    (hgo : L.attempt t o = .goes L') : LockInv L' (Function.update phase t ph') := by
  have hhas := h.has t
  cases o with
  | rdlock =>
    obtain ⟨hph, rfl⟩ := next_rdlock hnext
    rw [hph] at hhas
    simp only [Locks.attempt] at hgo
    split_ifs at hgo with hmine hfree
    cases hgo
    rw [not_or] at hmine
    have hwriter : L.writer = none := by simpa using hfree
    refine h.update ⟨by simp [Phase.IsReader], hhas.writer, hhas.owner⟩ ?_
      (List.nodup_cons.mpr ⟨hmine.2, h.nodup⟩) (by simp [hwriter])
    intro u hu hhas'
    exact ⟨by rw [List.mem_cons, or_iff_right hu, hhas'.reader], hhas'.writer, hhas'.owner⟩
  | wrlock =>
    obtain ⟨hph, rfl⟩ := next_wrlock hnext
    rw [hph] at hhas
    simp only [Locks.attempt] at hgo
    split_ifs at hgo with hmine hfree
    cases hgo
    rw [not_or] at hfree
    have hwriter : L.writer = none := by simpa using hfree.1
    have hnil : L.readers = [] := by simpa using hfree.2
    refine h.update ⟨hhas.reader, by simp [Phase.IsWriter], hhas.owner⟩ ?_ h.nodup fun _ => hnil
    intro u hu hhas'
    refine ⟨hhas'.reader, ?_, hhas'.owner⟩
    rw [← hhas'.writer, hwriter]
    simp [Ne.symm hu]
  | rwunlock =>
    obtain ⟨-, hmutex, rfl⟩ := next_rwunlock hnext
    have howner : ∀ k, L.owner k = some t ↔ (Phase.after : Phase κ).mutex = some k := by
      intro k
      rw [hhas.owner, hmutex]
      rfl
    simp only [Locks.attempt] at hgo
    split_ifs at hgo with hwriter hreader
    · -- The writer was alone.
      cases hgo
      have hnil : L.readers = [] := h.exclusive (by rw [hwriter]; rfl)
      refine h.update ⟨by simp [hnil, Phase.IsReader], by simp [Phase.IsWriter], howner⟩ ?_ h.nodup
        fun _ => hnil
      intro u hu hhas'
      refine ⟨hhas'.reader, ?_, hhas'.owner⟩
      rw [← hhas'.writer, hwriter]
      simp [Ne.symm hu]
    · cases hgo
      refine h.update ⟨by simp [h.nodup.mem_erase_iff, Phase.IsReader],
        by simp [hwriter, Phase.IsWriter], howner⟩ ?_ (h.nodup.erase t) fun hw => ?_
      · intro u hu hhas'
        exact ⟨by rw [h.nodup.mem_erase_iff, and_iff_right hu, hhas'.reader], hhas'.writer,
          hhas'.owner⟩
      · rw [h.exclusive hw] at hreader
        cases hreader
  | lock k =>
    obtain ⟨hnone, hmutex, hr, hw⟩ := next_lock hnext
    simp only [Locks.attempt] at hgo
    split_ifs at hgo with hmine hfree
    cases hgo
    have hk : L.owner k = none := by simpa using hfree
    refine h.update ⟨hhas.reader.trans hr.symm, hhas.writer.trans hw.symm, fun j => ?_⟩ ?_ h.nodup
      h.exclusive
    · by_cases hj : j = k
      · simp [hj, hmutex]
      · have hother : L.owner j ≠ some t := fun howner => by
          have hm := (hhas.owner j).mp howner
          rw [hnone] at hm
          cases hm
        simp [hj, hmutex, Ne.symm hj, hother]
    · intro u hu hhas'
      refine ⟨hhas'.reader, hhas'.writer, fun j => ?_⟩
      rw [← hhas'.owner]
      by_cases hj : j = k
      · simp [hj, hk, Ne.symm hu]
      · simp [hj]
  | unlock k =>
    obtain ⟨hmutex, hnone, hr, hw⟩ := next_unlock hnext
    simp only [Locks.attempt] at hgo
    split_ifs at hgo with hmine
    cases hgo
    refine h.update ⟨hhas.reader.trans hr.symm, hhas.writer.trans hw.symm, fun j => ?_⟩ ?_ h.nodup
      h.exclusive
    · by_cases hj : j = k
      · simp [hj, hnone]
      · have hother : L.owner j ≠ some t := fun howner => by
          have hm := (hhas.owner j).mp howner
          rw [hmutex] at hm
          exact hj (Option.some.inj hm).symm
        simp [hj, hnone, hother]
    · intro u hu hhas'
      refine ⟨hhas'.reader, hhas'.writer, fun j => ?_⟩
      rw [← hhas'.owner]
      by_cases hj : j = k
      · simp [hj, hmine, Ne.symm hu]
      · simp [hj]
  | access a =>
    obtain ⟨rfl, -⟩ := next_access hnext
    cases hgo
    rwa [Function.update_eq_self]

end Discipline

end Chlibs.Infra

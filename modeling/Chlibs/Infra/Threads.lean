import Chlibs.Infra.Locks

/-!
# Threads

Threads that call programs under locks. Between any two operations of one thread the others may
perform theirs.

* `ThreadStep` — a call, an operation of a thread whose turn it is, a return.
* `Explains`, `Linearizes` — each call acts at one moment between its call and its return, and the
  answers are those of uninterrupted runs, or of a machine, in the order of these moments.
* `threads_explained` — **programs that keep to the discipline of `Follows` act at one moment
  each**; `threads_linearize` — so they can be compared with a machine.
* `threads_defined`, `threads_exclusive`, `threads_progress` — nothing is undefined, no two
  threads touch the same data at once, and the threads never block each other for good.
-/

namespace Chlibs.Infra

variable {Acc : Type} {Ans : Acc → Type} {κ σ γ π τ ι ρ : Type}

/-! ## Histories -/

/-- What happens to the calls of a thread. -/
inductive Moment (τ ι ρ : Type) where
  | calls (t : τ) (c : ι)
  /-- the call takes effect -/
  | acts (t : τ) (c : ι) (a : ρ)
  | returns (t : τ) (a : ρ)
  deriving DecidableEq

namespace Moment

def thread : Moment τ ι ρ → τ
  | calls t _ => t
  | acts t _ _ => t
  | returns t _ => t

/-- Nobody sees when a call takes effect. -/
def visible : Moment τ ι ρ → Bool
  | acts _ _ _ => false
  | _ => true

/-- The call that takes effect, with its answer. -/
def act : Moment τ ι ρ → Option (ι × ρ)
  | acts _ c a => some (c, a)
  | _ => none

end Moment

/-- Where a thread is with its calls. -/
inductive CallStatus (ι ρ : Type) where
  | idle
  | called (c : ι)
  | acted (c : ι) (a : ρ)

/-- The moments of thread `t` are calls that take effect once, and return what they answered
then. -/
inductive Orderly (t : τ) : List (Moment τ ι ρ) → CallStatus ι ρ → Prop
  | nil : Orderly t [] .idle
  | other {H : List (Moment τ ι ρ)} {st : CallStatus ι ρ} {m : Moment τ ι ρ} (h : Orderly t H st)
      (hm : m.thread ≠ t) : Orderly t (H ++ [m]) st
  | calls {H : List (Moment τ ι ρ)} {c : ι} (h : Orderly t H .idle) :
      Orderly t (H ++ [.calls t c]) (.called c)
  | acts {H : List (Moment τ ι ρ)} {c : ι} {a : ρ} (h : Orderly t H (.called c)) :
      Orderly t (H ++ [.acts t c a]) (.acted c a)
  | returns {H : List (Moment τ ι ρ)} {c : ι} {a : ρ} (h : Orderly t H (.acted c a)) :
      Orderly t (H ++ [.returns t a]) .idle

/-- The calls that take effect in a history, one after the other, with their answers. -/
def acts (H : List (Moment τ ι ρ)) : List (ι × ρ) := H.filterMap Moment.act

/-- `H` is `history` with the moments at which the calls take effect. One after the other and
uninterrupted, the calls give the same answers and lead to `s`. -/
structure Explains (run : ι → CallM σ ρ) (s₀ : σ) (history H : List (Moment τ ι ρ)) (s : σ) :
    Prop where
  visible : H.filter Moment.visible = history
  orderly : ∀ t, ∃ st, Orderly t H st
  serial : runCalls run ((acts H).map Prod.fst) s₀ = some ((acts H).map Prod.snd, s)

/-- **Linearizability**: each call of the history has a moment between its call and its return, and
in the order of these moments the calls are answered as a machine answers them. -/
def Linearizes {α : Type} (step : α → ι → ρ × α) (s₀ : α) (history : List (Moment τ ι ρ))
    (calls : List ι) : Prop :=
  ∃ H : List (Moment τ ι ρ), H.filter Moment.visible = history ∧
    (∀ t, ∃ st, Orderly t H st) ∧ acts H = events step s₀ calls

theorem acts_append (H H' : List (Moment τ ι ρ)) : acts (H ++ H') = acts H ++ acts H' :=
  List.filterMap_append

/-- One more call. -/
theorem runCalls_snoc {run : ι → CallM σ ρ} {s s' s'' : σ} {c : ι} {a : ρ} :
    ∀ {cs : List ι} {as : List ρ}, runCalls run cs s = some (as, s') → run c s' = some (a, s'') →
      runCalls run (cs ++ [c]) s = some (as ++ [a], s'')
  | [], as, h, hc => by
    cases h
    rw [List.nil_append, runCalls, CallM.bind_of_some hc]
    rfl
  | d :: cs, as, h, hc => by
    obtain ⟨⟨b, s₁⟩, hd, hrest⟩ := Option.bind_eq_some_iff.mp h
    obtain ⟨⟨bs, s₂⟩, hcs, hend⟩ := Option.bind_eq_some_iff.mp hrest
    cases hend
    rw [List.cons_append, runCalls, CallM.bind_of_some hd,
      CallM.bind_of_some (runCalls_snoc hcs hc)]
    rfl

/-! ## Threads -/

/-- The locks, the data, and for each thread its call and what is left of it. -/
structure Threads (τ ι κ σ ρ : Type) {Acc : Type} (Ans : Acc → Type) where
  locks : Locks τ κ
  data : σ
  running : τ → Option (ι × LockProg κ Ans ρ)
  history : List (Moment τ ι ρ)

/-- Nobody has called anything. -/
def Threads.start (s₀ : σ) : Threads τ ι κ σ ρ Ans :=
  { locks := .free, data := s₀, running := fun _ => none, history := [] }

variable [DecidableEq κ] (D : Guarded Acc Ans κ σ γ π) (body : ι → LockProg κ Ans ρ)

/-- One step of one thread. -/
inductive ThreadStep [DecidableEq τ] : Threads τ ι κ σ ρ Ans → Threads τ ι κ σ ρ Ans → Prop
  | calls {S : Threads τ ι κ σ ρ Ans} {t : τ} (c : ι) (h : S.running t = none) :
      ThreadStep S { S with
        running := Function.update S.running t (some (c, body c))
        history := S.history ++ [.calls t c] }
  | performs {S : Threads τ ι κ σ ρ Ans} {t : τ} {c : ι} {o : LockOp Acc κ}
      {k : LockOp.Ans Ans o → LockProg κ Ans ρ} {x : LockOp.Ans Ans o} {data : σ}
      {locks : Locks τ κ} (h : S.running t = some (c, .perform o k))
      (hdata : D.soloOp o S.data = some (x, data)) (hlocks : S.locks.attempt t o = .goes locks) :
      ThreadStep S { S with
        locks := locks
        data := data
        running := Function.update S.running t (some (c, k x)) }
  | returns {S : Threads τ ι κ σ ρ Ans} {t : τ} {c : ι} {a : ρ}
      (h : S.running t = some (c, .done a)) :
      ThreadStep S { S with
        running := Function.update S.running t none
        history := S.history ++ [.returns t a] }

/-- Any number of threads, whose turns come in any order. -/
def threadSystem [DecidableEq τ] (s₀ : σ) : TransitionSystem (Threads τ ι κ σ ρ Ans) where
  init S := S = .start s₀
  step := ThreadStep D body

/-! ## What is known of a thread -/

/-- A thread in its phase: what its call will answer, once it has taken effect on `A`. -/
inductive ThreadInv (A data : σ) :
    Option (ι × LockProg κ Ans ρ) → Phase κ → CallStatus ι ρ → Prop
  | idle : ThreadInv A data none .before .idle
  | before {c : ι} {p : LockProg κ Ans ρ} (h : body c = p) :
      ThreadInv A data (some (c, p)) .before (.called c)
  /-- what was read so far would be read again -/
  | reading {c : ι} {p : LockProg κ Ans ρ} (h : Follows D.footprint p .reading)
      (hsame : ∀ s, D.shape s = D.shape data → D.solo (body c) s = D.solo p s) :
      ThreadInv A data (some (c, p)) .reading (.called c)
  /-- the part will be what it is in `A` -/
  | inPart {k : κ} {c : ι} {p : LockProg κ Ans ρ} {a : ρ} {s : σ}
      (h : Follows D.footprint p (.inPart k)) (hrun : D.solo p data = some (a, s))
      (hpart : D.part s k = D.part A k) : ThreadInv A data (some (c, p)) (.inPart k) (.acted c a)
  | leaving {c : ι} {p : LockProg κ Ans ρ} {a : ρ} (h : Follows D.footprint p .leaving)
      (hrun : D.solo p data = some (a, data)) :
      ThreadInv A data (some (c, p)) .leaving (.acted c a)
  | writing {k : Option κ} {c : ι} {p : LockProg κ Ans ρ} {a : ρ}
      (h : Follows D.footprint p (.writing k)) (hrun : D.solo p data = some (a, A)) :
      ThreadInv A data (some (c, p)) (.writing k) (.acted c a)
  | after (c : ι) (a : ρ) : ThreadInv A data (some (c, .done a)) .after (.acted c a)

/-- `A` is what the calls that took effect lead to. It differs from the data where a thread is
still at work on them. -/
structure ThreadsInv (good : σ → Prop) (s₀ : σ) (S : Threads τ ι κ σ ρ Ans) (phase : τ → Phase κ)
    (H : List (Moment τ ι ρ)) (A : σ) : Prop where
  locks : LockInv S.locks phase
  thread : ∀ t, ∃ st, Orderly t H st ∧ ThreadInv D body A S.data (S.running t) (phase t) st
  visible : H.filter Moment.visible = S.history
  serial : runCalls (fun c => D.solo (body c)) ((acts H).map Prod.fst) s₀
    = some ((acts H).map Prod.snd, A)
  good : good A
  shape : (∀ t, ¬(phase t).IsWriter) → D.shape A = D.shape S.data
  part : (∀ t, ¬(phase t).IsWriter) → ∀ k, (∀ t, (phase t).mutex ≠ some k) →
    D.part A k = D.part S.data k

section Inv

variable {D body} {good : σ → Prop} {s₀ : σ} {S : Threads τ ι κ σ ρ Ans} {phase : τ → Phase κ}
  {H : List (Moment τ ι ρ)} {A : σ} {t : τ}

/-- A thread does not notice what happens where it has no lock. -/
theorem ThreadInv.congr (hD : D.Lawful) {data A' data' : σ} {r : Option (ι × LockProg κ Ans ρ)}
    {ph : Phase κ} {st : CallStatus ι ρ} (h : ThreadInv D body A data r ph st)
    (hw : ¬ph.IsWriter) (hshape : ph.IsReader → D.shape data' = D.shape data)
    (hpart : ∀ k, ph.mutex = some k →
      D.part data' k = D.part data k ∧ D.part A' k = D.part A k) :
    ThreadInv D body A' data' r ph st := by
  cases h with
  | idle => exact .idle
  | before h => exact .before h
  | reading h hsame =>
    exact .reading h fun s hs => hsame s (hs.trans (hshape trivial))
  | inPart h hrun hA =>
    obtain ⟨hd, ha⟩ := hpart _ rfl
    obtain ⟨s', hrun', hs', -⟩ :=
      solo_inPart hD h ⟨(hshape trivial).symm, hd.symm⟩ hrun
    exact .inPart h hrun' (hs'.trans (hA.trans ha.symm))
  | leaving h hrun =>
    exact .leaving h (solo_leaving hD (.inl rfl) h (hshape trivial).symm hrun)
  | writing => exact absurd trivial hw
  | after c a => exact .after c a

/-- What is left of a call keeps to the discipline. -/
theorem ThreadInv.follows (hbody : ∀ c, Follows D.footprint (body c) .before) {data : σ} {c : ι}
    {p : LockProg κ Ans ρ} {ph : Phase κ} {st : CallStatus ι ρ}
    (h : ThreadInv D body A data (some (c, p)) ph st) : Follows D.footprint p ph := by
  cases h with
  | before h => exact h ▸ hbody c
  | reading h _ => exact h
  | inPart h _ _ => exact h
  | leaving h _ => exact h
  | writing h _ => exact h
  | after => trivial

/-- With no writer and no mutex in use, the data are what the calls led to. -/
theorem ThreadsInv.data_eq (hD : D.Lawful) (h : ThreadsInv D body good s₀ S phase H A)
    (hw : ∀ t, ¬(phase t).IsWriter) (hm : ∀ k t, (phase t).mutex ≠ some k) : S.data = A :=
  (hD.ext _ _ (h.shape hw) fun k => h.part hw k (hm k)).symm

/-- Beside a reader nobody writes. -/
theorem ThreadsInv.no_writer (h : ThreadsInv D body good s₀ S phase H A)
    (ht : (phase t).IsReader) : ∀ u, ¬(phase u).IsWriter :=
  fun _ hu => h.locks.not_reader hu ht

/-- Where nobody else has a lock, nobody notices a change. -/
theorem ThreadsInv.others_of_alone (hD : D.Lawful) {u : τ} {st : CallStatus ι ρ}
    (hr : ¬(phase u).IsReader)
    (hw : ¬(phase u).IsWriter) {A' data : σ}
    (hinv : ThreadInv D body A S.data (S.running u) (phase u) st) :
    ThreadInv D body A' data (S.running u) (phase u) st :=
  hinv.congr hD hw (fun hr' => absurd hr' hr)
    fun _ hm => absurd (Phase.holds_of_mutex hm) (not_or.mpr ⟨hr, hw⟩)

variable [DecidableEq τ]

/-- A step of one thread, in parts. -/
theorem ThreadsInv.update (h : ThreadsInv D body good s₀ S phase H A) {S' : Threads τ ι κ σ ρ Ans}
    {ph' : Phase κ} {H' : List (Moment τ ι ρ)} {A' : σ}
    (hlocks : LockInv S'.locks (Function.update phase t ph'))
    (hrunning : ∀ u, u ≠ t → S'.running u = S.running u)
    (hself : ∃ st, Orderly t H' st ∧ ThreadInv D body A' S'.data (S'.running t) ph' st)
    (hothers : ∀ u, u ≠ t → ∀ st, ThreadInv D body A S.data (S.running u) (phase u) st →
      ThreadInv D body A' S'.data (S.running u) (phase u) st)
    (horderly : ∀ u, u ≠ t → ∀ st, Orderly u H st → Orderly u H' st)
    (hvisible : H'.filter Moment.visible = S'.history)
    (hserial : runCalls (fun c => D.solo (body c)) ((acts H').map Prod.fst) s₀
      = some ((acts H').map Prod.snd, A'))
    (hgood : good A')
    (hshape : (∀ u, ¬(Function.update phase t ph' u).IsWriter) → D.shape A' = D.shape S'.data)
    (hpart : (∀ u, ¬(Function.update phase t ph' u).IsWriter) → ∀ k,
      (∀ u, (Function.update phase t ph' u).mutex ≠ some k) →
      D.part A' k = D.part S'.data k) :
    ThreadsInv D body good s₀ S' (Function.update phase t ph') H' A' where
  locks := hlocks
  thread u := by
    by_cases hu : u = t
    · subst hu
      rw [Function.update_self]
      exact hself
    · obtain ⟨st, hord, hinv⟩ := h.thread u
      rw [hrunning u hu, Function.update_of_ne hu]
      exact ⟨st, horderly u hu st hord, hothers u hu st hinv⟩
  visible := hvisible
  serial := hserial
  good := hgood
  shape := hshape
  part := hpart

variable {c : ι} {o : LockOp Acc κ} {k : LockOp.Ans Ans o → LockProg κ Ans ρ}
  {x : LockOp.Ans Ans o} {data : σ} {locks : Locks τ κ} {ph' : Phase κ}

/-- An operation with which no call takes effect. -/
theorem ThreadsInv.quiet (h : ThreadsInv D body good s₀ S phase H A)
    (hnext : (phase t).next D.footprint o = some ph') (hlocks : S.locks.attempt t o = .goes locks)
    (hself : ∃ st, Orderly t H st ∧ ThreadInv D body A data (some (c, k x)) ph' st)
    (hothers : ∀ u, u ≠ t → ∀ st, ThreadInv D body A S.data (S.running u) (phase u) st →
      ThreadInv D body A data (S.running u) (phase u) st)
    (hshape : (∀ u, ¬(Function.update phase t ph' u).IsWriter) → D.shape A = D.shape data)
    (hpart : (∀ u, ¬(Function.update phase t ph' u).IsWriter) → ∀ k,
      (∀ u, (Function.update phase t ph' u).mutex ≠ some k) → D.part A k = D.part data k) :
    ThreadsInv D body good s₀
      { S with
        locks := locks
        data := data
        running := Function.update S.running t (some (c, k x)) }
      (Function.update phase t ph') H A := by
  refine h.update (h.locks.step hnext hlocks) (fun u hu => Function.update_of_ne hu _ _) ?_ hothers
    (fun u _ st hord => hord) h.visible h.serial h.good hshape hpart
  show ∃ st, Orderly t H st ∧ ThreadInv D body A data (Function.update S.running t _ t) ph' st
  rwa [Function.update_self]

/-- An operation with which the call takes effect. -/
theorem ThreadsInv.commit (h : ThreadsInv D body good s₀ S phase H A) {a : ρ} {A' : σ}
    (hnext : (phase t).next D.footprint o = some ph') (hlocks : S.locks.attempt t o = .goes locks)
    (hcalled : Orderly t H (.called c)) (hA : D.solo (body c) A = some (a, A')) (hgood : good A')
    (hself : ThreadInv D body A' S.data (some (c, k x)) ph' (.acted c a))
    (hothers : ∀ u, u ≠ t → ∀ st, ThreadInv D body A S.data (S.running u) (phase u) st →
      ThreadInv D body A' S.data (S.running u) (phase u) st)
    (hshape : (∀ u, ¬(Function.update phase t ph' u).IsWriter) → D.shape A' = D.shape S.data)
    (hpart : (∀ u, ¬(Function.update phase t ph' u).IsWriter) → ∀ k,
      (∀ u, (Function.update phase t ph' u).mutex ≠ some k) → D.part A' k = D.part S.data k) :
    ThreadsInv D body good s₀
      { S with
        locks := locks
        running := Function.update S.running t (some (c, k x)) }
      (Function.update phase t ph') (H ++ [.acts t c a]) A' := by
  refine h.update (h.locks.step hnext hlocks) (fun u hu => Function.update_of_ne hu _ _) ?_ hothers
    (fun u hu st hord => hord.other (Ne.symm hu)) ?_ ?_ hgood hshape hpart
  · refine ⟨_, hcalled.acts, ?_⟩
    show ThreadInv D body A' S.data (Function.update S.running t _ t) ph' _
    rwa [Function.update_self]
  · rw [List.filter_append, h.visible]
    exact List.append_nil _
  · rw [acts_append, List.map_append, List.map_append]
    exact runCalls_snoc h.serial hA

end Inv

/-! ## Operations -/

section Operations

variable [DecidableEq τ] {D body} {good : σ → Prop} {s₀ : σ} {S : Threads τ ι κ σ ρ Ans}
  {phase : τ → Phase κ} {H : List (Moment τ ι ρ)} {A : σ} {t : τ} {c : ι} {st : CallStatus ι ρ}
  {locks : Locks τ κ}

/-- The invariant holds again once `t` has gone on to `p`. What took effect before is in `H`. -/
def GoesOn (D : Guarded Acc Ans κ σ γ π) (body : ι → LockProg κ Ans ρ) (good : σ → Prop) (s₀ : σ)
    (S : Threads τ ι κ σ ρ Ans) (H : List (Moment τ ι ρ)) (t : τ) (c : ι) (p : LockProg κ Ans ρ)
    (locks : Locks τ κ) (data : σ) : Prop :=
  ∃ phase H' A, H <+: H' ∧ ThreadsInv D body good s₀
    { S with locks := locks, data := data, running := Function.update S.running t (some (c, p)) }
    phase H' A

theorem ThreadsInv.rdlock {k : LockOp.Ans Ans (.rdlock : LockOp Acc κ) → LockProg κ Ans ρ}
    (h : ThreadsInv D body good s₀ S phase H A) (hord : Orderly t H st)
    (hinv : ThreadInv D body A S.data (some (c, .perform .rdlock k)) (phase t) st)
    {ph' : Phase κ} (hnext : (phase t).next D.footprint .rdlock = some ph')
    (hk : Follows D.footprint (k ()) ph')
    (hlocks : S.locks.attempt t (.rdlock : LockOp Acc κ) = .goes locks) :
    GoesOn D body good s₀ S H t c (k ()) locks S.data := by
  obtain ⟨hph, rfl⟩ := next_rdlock hnext
  have hw : ¬(phase t).IsWriter := by simp [hph, Phase.IsWriter]
  have hm : ∀ j, (phase t).mutex ≠ some j := by simp [hph, Phase.mutex]
  rw [hph] at hinv
  cases hinv with
  | before hp =>
    refine ⟨_, H, A, List.prefix_rfl, h.quiet (o := .rdlock) (x := ()) hnext hlocks
      ⟨_, hord, .reading hk fun s _ => ?_⟩ (fun u _ st hu => hu)
      (fun hall => h.shape (not_of_update hall hw)) fun hall j hj =>
        h.part (not_of_update hall hw) j
          (not_of_update (P := fun ph => ph.mutex = some j) hj (hm j))⟩
    rw [hp, Guarded.solo_perform]
    rfl

theorem ThreadsInv.wrlock (hD : D.Lawful)
    (hspec : ∀ c s, good s → ∃ a s', D.solo (body c) s = some (a, s') ∧ good s')
    {k : LockOp.Ans Ans (.wrlock : LockOp Acc κ) → LockProg κ Ans ρ}
    (h : ThreadsInv D body good s₀ S phase H A) (hord : Orderly t H st)
    (hinv : ThreadInv D body A S.data (some (c, .perform .wrlock k)) (phase t) st)
    {ph' : Phase κ} (hnext : (phase t).next D.footprint .wrlock = some ph')
    (hk : Follows D.footprint (k ()) ph')
    (hlocks : S.locks.attempt t (.wrlock : LockOp Acc κ) = .goes locks) :
    GoesOn D body good s₀ S H t c (k ()) locks S.data := by
  obtain ⟨hph, rfl⟩ := next_wrlock hnext
  -- Nobody has a lock, so the data are what the calls so far led to.
  have hreaders : ∀ u, ¬(phase u).IsReader := by
    intro u hu
    have hmem := (h.locks.has u).reader.mpr hu
    simp only [Locks.attempt] at hlocks
    split_ifs at hlocks with hmine hfree
    exact hfree (.inr (List.ne_nil_of_mem hmem))
  have hwriters : ∀ u, ¬(phase u).IsWriter := by
    intro u hu
    have hwriter := (h.locks.has u).writer.mpr hu
    simp only [Locks.attempt] at hlocks
    split_ifs at hlocks with hmine hfree
    exact hfree (.inl (by rw [hwriter]; rfl))
  have hdata : S.data = A := h.data_eq hD hwriters fun j u hu =>
    (Phase.holds_of_mutex hu).elim (hreaders u) (hwriters u)
  rw [hph] at hinv
  cases hinv with
  | before hp =>
    obtain ⟨a, A', hsolo, hgood⟩ := hspec c A h.good
    refine ⟨_, _, A', List.prefix_append .., h.commit (o := .wrlock) (x := ()) hnext hlocks hord
      hsolo hgood (.writing hk ?_)
      (fun u _ st hu => others_of_alone hD (hreaders u) (hwriters u) hu)
      (fun hall => (not_all_not_isWriter hall).elim)
      fun hall => (not_all_not_isWriter hall).elim⟩
    rw [hp, Guarded.solo_perform] at hsolo
    rw [hdata]
    exact hsolo

theorem ThreadsInv.rwunlock
    (hspec : ∀ c s, good s → ∃ a s', D.solo (body c) s = some (a, s') ∧ good s')
    {k : LockOp.Ans Ans (.rwunlock : LockOp Acc κ) → LockProg κ Ans ρ}
    (h : ThreadsInv D body good s₀ S phase H A) (hord : Orderly t H st)
    (hinv : ThreadInv D body A S.data (some (c, .perform .rwunlock k)) (phase t) st)
    {ph' : Phase κ} (hnext : (phase t).next D.footprint .rwunlock = some ph')
    (hk : Follows D.footprint (k ()) ph')
    (hlocks : S.locks.attempt t (.rwunlock : LockOp Acc κ) = .goes locks) :
    GoesOn D body good s₀ S H t c (k ()) locks S.data := by
  obtain ⟨-, hmutex, rfl⟩ := next_rwunlock hnext
  have hm : ∀ j, (phase t).mutex ≠ some j := by simp [hmutex]
  -- The result is all that is left.
  have hdone : ∀ {a s s'}, D.solo (k ()) s = some (a, s') → k () = .done a ∧ s' = s := by
    intro a s s' hrun
    rcases hk.after with hfault | ⟨b, hb⟩
    · rw [hfault] at hrun
      cases hrun
    · rw [hb] at hrun
      cases hrun
      exact ⟨hb, rfl⟩
  generalize hph : phase t = ph at hinv
  cases hinv with
  | before hp =>
    rw [hph] at hnext
    cases hnext
  | inPart => exact absurd hmutex (by simp [hph, Phase.mutex])
  | reading hp hsame =>
    have hwriters := h.no_writer (t := t) (by rw [hph]; trivial)
    obtain ⟨a, A', hsolo, hgood⟩ := hspec c A h.good
    have hrun := hsolo
    rw [hsame A (h.shape hwriters), Guarded.solo_perform] at hrun
    obtain ⟨hres, rfl⟩ := hdone hrun
    refine ⟨_, _, _, List.prefix_append .., h.commit (o := .rwunlock) (x := ()) hnext hlocks hord
      hsolo hgood ?_ (fun u _ st hu => hu) (fun _ => h.shape hwriters) fun _ j hj =>
      h.part hwriters j
        (not_of_update (P := fun ph => ph.mutex = some j) hj (hm j))⟩
    rw [hres]
    exact .after c a
  | leaving hp hrun =>
    have hwriters := h.no_writer (t := t) (by rw [hph]; trivial)
    obtain ⟨hres, -⟩ := hdone hrun
    refine ⟨_, H, A, List.prefix_rfl, h.quiet (o := .rwunlock) (x := ()) hnext hlocks ⟨_, hord, ?_⟩
      (fun u _ st hu => hu) (fun _ => h.shape hwriters) fun _ j hj => h.part hwriters j
        (not_of_update (P := fun ph => ph.mutex = some j) hj (hm j))⟩
    rw [hres]
    exact .after c _
  | writing hp hrun =>
    -- The writer has done all that its call does.
    obtain ⟨hres, hA⟩ := hdone hrun
    refine ⟨_, H, A, List.prefix_rfl, h.quiet (o := .rwunlock) (x := ()) hnext hlocks ⟨_, hord, ?_⟩
      (fun u _ st hu => hu) (fun _ => by rw [hA]) fun _ j _ => by rw [hA]⟩
    rw [hres]
    exact .after c _

theorem ThreadsInv.lock (hD : D.Lawful)
    (hspec : ∀ c s, good s → ∃ a s', D.solo (body c) s = some (a, s') ∧ good s') {j : κ}
    {k : LockOp.Ans Ans (.lock j : LockOp Acc κ) → LockProg κ Ans ρ}
    (h : ThreadsInv D body good s₀ S phase H A) (hord : Orderly t H st)
    (hinv : ThreadInv D body A S.data (some (c, .perform (.lock j) k)) (phase t) st)
    {ph' : Phase κ} (hnext : (phase t).next D.footprint (.lock j) = some ph')
    (hk : Follows D.footprint (k ()) ph')
    (hlive : D.live (D.shape S.data) j = true)
    (hlocks : S.locks.attempt t (.lock j : LockOp Acc κ) = .goes locks) :
    GoesOn D body good s₀ S H t c (k ()) locks S.data := by
  have hfree : ∀ u, (phase u).mutex ≠ some j := by
    intro u hu
    have howner := ((h.locks.has u).owner j).mpr hu
    simp only [Locks.attempt] at hlocks
    split_ifs at hlocks with hmine hfree
    exact hfree (by rw [howner]; rfl)
  have hsolo_lock : ∀ s, D.shape s = D.shape S.data →
      D.solo (.perform (.lock j) k) s = D.solo (k ()) s := by
    intro s hs
    rw [Guarded.solo_perform, Guarded.soloOp, hs, if_pos hlive]
    rfl
  generalize hph : phase t = ph at hinv
  rw [hph] at hnext
  cases hinv with
  | before hp => cases hnext
  | inPart => cases hnext
  | leaving => cases hnext
  | reading hp hsame =>
    cases hnext
    have hwriters := h.no_writer (t := t) (by rw [hph]; trivial)
    have hshape := h.shape hwriters
    obtain ⟨a, A', hsolo, hgood⟩ := hspec c A h.good
    have hrun := hsolo
    rw [hsame A hshape, hsolo_lock A hshape] at hrun
    -- The call changes no other part, and acts on the data as it does on `A`.
    have hchanges : D.Changes j A A' := by
      obtain ⟨A'', hself, -, hchanges⟩ := solo_inPart hD hk ⟨rfl, rfl⟩ hrun
      rw [hrun] at hself
      cases hself
      exact hchanges
    obtain ⟨s, hs, hpart, -⟩ := solo_inPart hD hk ⟨hshape, h.part hwriters j hfree⟩ hrun
    have hnext' : (phase t).next D.footprint (.lock j) = some (.inPart j) := by
      rw [hph]
      rfl
    refine ⟨_, _, A', List.prefix_append .., h.commit (o := .lock j) (x := ()) hnext' hlocks hord
      hsolo hgood (.inPart hk hs hpart) ?_ (fun _ => hchanges.1.trans hshape) ?_⟩
    · intro u _ st hu
      refine hu.congr hD (hwriters u) (fun _ => rfl) fun i hi => ⟨rfl, hchanges.2 i ?_⟩
      rintro rfl
      exact hfree u hi
    · intro _ i hi
      have hij : i ≠ j := by
        rintro rfl
        have hmine := hi t
        rw [Function.update_self] at hmine
        exact hmine rfl
      rw [hchanges.2 i hij]
      exact h.part hwriters i (not_of_update (P := fun ph => ph.mutex = some i) hi
        (by simp [hph, Phase.mutex]))
  | @writing m _ _ _ hp hrun =>
    rw [hsolo_lock _ rfl] at hrun
    cases m with
    | some i => cases hnext
    | none =>
      cases hnext
      have hnext' : (phase t).next D.footprint (.lock j) = some (.writing (some j)) := by
        rw [hph]
        rfl
      exact ⟨_, H, A, List.prefix_rfl, h.quiet (o := .lock j) (x := ()) hnext' hlocks
        ⟨_, hord, .writing hk hrun⟩ (fun u _ st hu => hu)
        (fun hall => (not_all_not_isWriter hall).elim)
        fun hall => (not_all_not_isWriter hall).elim⟩

theorem ThreadsInv.unlock (hD : D.Lawful) {j : κ}
    {k : LockOp.Ans Ans (.unlock j : LockOp Acc κ) → LockProg κ Ans ρ}
    (h : ThreadsInv D body good s₀ S phase H A) (hord : Orderly t H st)
    (hinv : ThreadInv D body A S.data (some (c, .perform (.unlock j) k)) (phase t) st)
    {ph' : Phase κ} (hnext : (phase t).next D.footprint (.unlock j) = some ph')
    (hk : Follows D.footprint (k ()) ph') (hlive : D.live (D.shape S.data) j = true)
    (hlocks : S.locks.attempt t (.unlock j : LockOp Acc κ) = .goes locks) :
    GoesOn D body good s₀ S H t c (k ()) locks S.data := by
  obtain ⟨hmine, -, -, -⟩ := next_unlock hnext
  have hsolo_unlock : D.solo (.perform (.unlock j) k) S.data = D.solo (k ()) S.data := by
    rw [Guarded.solo_perform, Guarded.soloOp, if_pos hlive]
    rfl
  have hnext' := hnext
  generalize hph : phase t = ph at hinv
  rw [hph] at hnext' hmine
  cases hinv with
  | before hp => cases hnext'
  | reading hp hsame => cases hnext'
  | leaving => cases hnext'
  | @inPart i _ _ a s hp hrun hpart =>
    obtain rfl : i = j := Option.some.inj hmine
    obtain rfl : Phase.leaving = ph' := by simpa [Phase.next] using hnext'
    have hwriters := h.no_writer (t := t) (by rw [hph]; trivial)
    rw [hsolo_unlock] at hrun
    -- The thread has done all that its call does to the part.
    have hsame : s = S.data := by
      have hself := solo_leaving hD (.inl rfl) hk rfl hrun
      rw [hrun] at hself
      simpa using hself
    rw [hsame] at hrun hpart
    refine ⟨_, H, A, List.prefix_rfl, h.quiet (o := .unlock i) (x := ()) hnext hlocks
      ⟨_, hord, .leaving hk hrun⟩ (fun u _ st hu => hu) (fun _ => h.shape hwriters)
      fun _ l hl => ?_⟩
    by_cases hli : l = i
    · rw [hli, hpart]
    · exact h.part hwriters l (not_of_update (P := fun ph => ph.mutex = some l) hl
        (by simp [hph, Phase.mutex, Ne.symm hli]))
  | @writing m _ _ _ hp hrun =>
    obtain rfl : m = some j := hmine
    obtain rfl : Phase.writing none = ph' := by simpa [Phase.next] using hnext'
    rw [hsolo_unlock] at hrun
    exact ⟨_, H, A, List.prefix_rfl, h.quiet (o := .unlock j) (x := ()) hnext hlocks
      ⟨_, hord, .writing hk hrun⟩ (fun u _ st hu => hu)
      (fun hall => (not_all_not_isWriter hall).elim)
      fun hall => (not_all_not_isWriter hall).elim⟩

theorem ThreadsInv.access (hD : D.Lawful) {b : Acc}
    {k : LockOp.Ans Ans (.access b : LockOp Acc κ) → LockProg κ Ans ρ}
    (h : ThreadsInv D body good s₀ S phase H A) (hord : Orderly t H st)
    (hinv : ThreadInv D body A S.data (some (c, .perform (.access b) k)) (phase t) st)
    {ph' : Phase κ} (hnext : (phase t).next D.footprint (.access b) = some ph') {x : Ans b}
    {data : σ} (hk : Follows D.footprint (k x) ph') (hdata : D.access b S.data = some (x, data))
    (hlocks : S.locks.attempt t (.access b : LockOp Acc κ) = .goes locks) :
    GoesOn D body good s₀ S H t c (k x) locks data := by
  obtain ⟨rfl, hlock, hwrites, hparts⟩ := next_access hnext
  -- Beside a reader, only the part of its mutex changes.
  have hreader : (phase t).IsReader →
      data = S.data ∨ ∃ j, (phase t).mutex = some j ∧ D.Changes j S.data data := by
    intro hr
    cases hf : D.footprint b with
    | reads => exact .inl (hD.reads_self hf hdata)
    | part j => exact .inr ⟨j, hparts j hf, hD.part_self hf hdata⟩
    | writes =>
      rw [hwrites hf] at hr
      exact hr.elim
  have hsolo : ∀ {r}, D.solo (.perform (.access b) k) S.data = some r →
      D.solo (k x) data = some r := by
    intro r hrun
    rw [Guarded.solo_perform, Guarded.soloOp, hdata] at hrun
    exact hrun
  generalize hph : phase t = ph at hinv
  have hnext' := hnext
  rw [hph] at hk hreader hnext'
  cases hinv with
  | before hp => cases hnext'
  | reading hp hsame =>
    have hwriters := h.no_writer (t := t) (by rw [hph]; trivial)
    obtain rfl : data = S.data := (hreader trivial).resolve_right fun hex => by
      obtain ⟨j, hj, -⟩ := hex
      cases hj
    have hreads : D.footprint b = .reads := by
      by_contra hne
      simp [Phase.next, hne] at hnext'
    have hsame' : ∀ s, D.shape s = D.shape S.data → D.solo (body c) s = D.solo (k x) s := by
      intro s hs
      rw [hsame s hs, Guarded.solo_perform, Guarded.soloOp, hD.reads hreads hs.symm hdata]
      rfl
    exact ⟨_, H, A, List.prefix_rfl, h.quiet (o := .access b) (x := x) hnext hlocks
      ⟨_, hord, by rw [hph]; exact .reading hk hsame'⟩ (fun u _ st hu => hu)
      (fun _ => h.shape hwriters) fun _ l hl => h.part hwriters l
        (not_of_update (P := fun ph => ph.mutex = some l) hl (by simp [hph, Phase.mutex]))⟩
  | leaving hp hrun =>
    have hwriters := h.no_writer (t := t) (by rw [hph]; trivial)
    obtain rfl : data = S.data := (hreader trivial).resolve_right fun hex => by
      obtain ⟨j, hj, -⟩ := hex
      cases hj
    exact ⟨_, H, A, List.prefix_rfl, h.quiet (o := .access b) (x := x) hnext hlocks
      ⟨_, hord, by rw [hph]; exact .leaving hk (hsolo hrun)⟩ (fun u _ st hu => hu)
      (fun _ => h.shape hwriters) fun _ l hl => h.part hwriters l
        (not_of_update (P := fun ph => ph.mutex = some l) hl (by simp [hph, Phase.mutex]))⟩
  | @inPart j _ _ _ _ hp hrun hpart =>
    have hwriters := h.no_writer (t := t) (by rw [hph]; trivial)
    have hchanges : D.Changes j S.data data := by
      rcases hreader trivial with rfl | ⟨i, hi, hchanges⟩
      · exact .refl D j _
      · cases hi
        exact hchanges
    have hmine : (phase t).mutex = some j := by
      rw [hph]
      rfl
    refine ⟨_, H, A, List.prefix_rfl, h.quiet (o := .access b) (x := x) hnext hlocks
      ⟨_, hord, by rw [hph]; exact .inPart hk (hsolo hrun) hpart⟩ ?_
      (fun _ => (h.shape hwriters).trans hchanges.1.symm) fun _ l hl => ?_⟩
    · intro u hne st hu
      refine hu.congr hD (hwriters u) (fun _ => hchanges.1) fun i hi => ⟨hchanges.2 i ?_, rfl⟩
      rintro rfl
      exact hne (h.locks.mutex_unique hmine hi)
    · have hlj : l ≠ j := by
        rintro rfl
        have ht := hl t
        rw [Function.update_self] at ht
        exact ht hmine
      rw [hchanges.2 l hlj]
      exact h.part hwriters l (not_of_update (P := fun ph => ph.mutex = some l) hl
        (by simp [hph, Phase.mutex, Ne.symm hlj]))
  | writing hp hrun =>
    -- The writer is alone.
    have hw : (phase t).IsWriter := by
      rw [hph]
      trivial
    refine ⟨_, H, A, List.prefix_rfl, h.quiet (o := .access b) (x := x) hnext hlocks
      ⟨_, hord, by rw [hph]; exact .writing hk (hsolo hrun)⟩ ?_ ?_ ?_⟩
    · intro u hne st hu
      exact others_of_alone hD (h.locks.not_reader hw)
        (fun hu => hne (h.locks.writer_unique hw hu)) hu
    · intro hall
      exact absurd hw (by simpa using hall t)
    · intro hall
      exact absurd hw (by simpa using hall t)

end Operations

/-! ## Runs -/

section Runs

variable [DecidableEq τ] {D body} {good : σ → Prop} {s₀ : σ} {S S' : Threads τ ι κ σ ρ Ans}

/-- What holds of every call: it keeps to the discipline and, uninterrupted, it ends on good data
and keeps them good. -/
structure Sound (D : Guarded Acc Ans κ σ γ π) (body : ι → LockProg κ Ans ρ) (good : σ → Prop) :
    Prop where
  lawful : D.Lawful
  follows : ∀ c, Follows D.footprint (body c) .before
  ends : ∀ c s, good s → ∃ a s', D.solo (body c) s = some (a, s') ∧ good s'

/-- A call that took effect returns. -/
theorem ThreadsInv.returned {phase : τ → Phase κ} {H H' : List (Moment τ ι ρ)} {A : σ} {t : τ}
    {c : ι} {a : ρ} (h : ThreadsInv D body good s₀ S phase H A)
    (hph : phase t = .before ∨ phase t = .after) (hacted : Orderly t H' (.acted c a))
    (horderly : ∀ u, u ≠ t → ∀ st, Orderly u H st → Orderly u H' st)
    (hvisible : H'.filter Moment.visible = S.history)
    (hserial : runCalls (fun c => D.solo (body c)) ((acts H').map Prod.fst) s₀
      = some ((acts H').map Prod.snd, A)) :
    ThreadsInv D body good s₀
      { S with
        running := Function.update S.running t none
        history := S.history ++ [.returns t a] }
      (Function.update phase t .before) (H' ++ [.returns t a]) A := by
  -- The thread has no locks, before and after.
  have hhas : S.locks.Has t .before := by
    have hhas := h.locks.has t
    rcases hph with hph | hph
    · rwa [hph] at hhas
    · rw [hph] at hhas
      exact ⟨hhas.reader, hhas.writer, hhas.owner⟩
  have hw : ¬(phase t).IsWriter := by
    rcases hph with hph | hph <;> simp [hph, Phase.IsWriter]
  have hm : ∀ k, (phase t).mutex ≠ some k := by
    rcases hph with hph | hph <;> simp [hph, Phase.mutex]
  refine h.update (h.locks.update hhas (fun _ _ hu => hu) h.locks.nodup h.locks.exclusive)
    (fun u hu => Function.update_of_ne hu _ _) ⟨_, hacted.returns, ?_⟩ (fun u _ st hu => hu)
    (fun u hu st hord => (horderly u hu st hord).other (Ne.symm hu)) ?_ ?_ h.good
    (fun hall => h.shape (not_of_update hall hw)) fun hall k hk => h.part (not_of_update hall hw) k
      (not_of_update (P := fun ph => ph.mutex = some k) hk (hm k))
  · show ThreadInv D body A S.data (Function.update S.running t none t) _ _
    rw [Function.update_self]
    exact .idle
  · rw [List.filter_append, hvisible]
    rfl
  · rw [acts_append]
    exact (List.append_nil (acts H')).symm ▸ hserial

/-- **One step of one thread.** -/
theorem ThreadsInv.step (hsound : Sound D body good) {phase : τ → Phase κ}
    {H : List (Moment τ ι ρ)} {A : σ} (h : ThreadsInv D body good s₀ S phase H A)
    (hs : ThreadStep D body S S') :
    ∃ phase H' A, H <+: H' ∧ ThreadsInv D body good s₀ S' phase H' A := by
  have hD := hsound.lawful
  cases hs with
  | @calls t c hidle =>
    obtain ⟨st, hord, hinv⟩ := h.thread t
    rw [hidle] at hinv
    generalize hph : phase t = ph at hinv
    cases hinv
    have hsame : Function.update phase t .before = phase := by
      rw [← hph, Function.update_eq_self]
    refine ⟨_, H ++ [.calls t c], A, List.prefix_append .., h.update (hsame.symm ▸ h.locks)
      (fun u hu => Function.update_of_ne hu _ _) ⟨_, hord.calls, ?_⟩ (fun u _ st hu => hu) ?_ ?_ ?_
      h.good (hsame.symm ▸ h.shape) (hsame.symm ▸ h.part)⟩
    · show ThreadInv D body A S.data (Function.update S.running t _ t) _ _
      rw [Function.update_self]
      exact .before rfl
    · exact fun u hu st hord' => hord'.other (Ne.symm hu)
    · rw [List.filter_append, h.visible]
      rfl
    · rw [acts_append]
      exact (List.append_nil (acts H)).symm ▸ h.serial
  | @performs t c o k x data locks hrun hdata hlocks =>
    obtain ⟨st, hord, hinv⟩ := h.thread t
    rw [hrun] at hinv
    obtain ⟨ph', hnext, hk⟩ := hinv.follows hsound.follows
    cases o with
    | rdlock =>
      cases hdata
      exact h.rdlock hord hinv hnext (hk ()) hlocks
    | wrlock =>
      cases hdata
      exact h.wrlock hD hsound.ends hord hinv hnext (hk ()) hlocks
    | rwunlock =>
      cases hdata
      exact h.rwunlock hsound.ends hord hinv hnext (hk ()) hlocks
    | lock j =>
      simp only [Guarded.soloOp] at hdata
      split at hdata
      · next hlive =>
        cases hdata
        exact h.lock hD hsound.ends hord hinv hnext (hk ()) hlive hlocks
      · cases hdata
    | unlock j =>
      simp only [Guarded.soloOp] at hdata
      split at hdata
      · next hlive =>
        cases hdata
        exact h.unlock hD hord hinv hnext (hk ()) hlive hlocks
      · cases hdata
    | access b => exact h.access hD hord hinv hnext (hk x) hdata hlocks
  | @returns t c a hrun =>
    obtain ⟨st, hord, hinv⟩ := h.thread t
    rw [hrun] at hinv
    have hfollows := hinv.follows hsound.follows
    generalize hph : phase t = ph at hinv hfollows
    cases hinv with
    | before hp =>
      -- A call that took no lock takes effect now.
      have hsolo : D.solo (body c) A = some (a, A) := by
        rw [hp]
        rfl
      refine ⟨_, _, A, ?_, h.returned (.inl hph) hord.acts
        (fun u hu st hord => hord.other (Ne.symm hu)) ?_ ?_⟩
      · exact (List.prefix_append ..).trans (List.prefix_append ..)
      · rw [List.filter_append, h.visible]
        exact List.append_nil _
      · rw [acts_append, List.map_append, List.map_append]
        exact runCalls_snoc h.serial hsolo
    | after => exact ⟨_, _, A, List.prefix_append .., h.returned (.inr hph) hord
        (fun _ _ _ hu => hu) h.visible h.serial⟩
    | reading => exact hfollows.elim
    | inPart => exact hfollows.elim
    | leaving => exact hfollows.elim
    | writing => exact hfollows.elim

omit [DecidableEq τ] in
theorem threadsInv_start (hgood : good s₀) :
    ThreadsInv D body good s₀ (.start s₀ : Threads τ ι κ σ ρ Ans) (fun _ => .before) [] s₀ where
  locks := lockInv_free
  thread _ := ⟨.idle, .nil, .idle⟩
  visible := rfl
  serial := rfl
  good := hgood
  shape _ := rfl
  part _ _ _ := rfl

theorem threadsInv_reachable (hsound : Sound D body good) (hgood : good s₀)
    (h : (threadSystem D body s₀).Reachable S) :
    ∃ phase H A, ThreadsInv D body good s₀ S phase H A := by
  induction h with
  | init h0 =>
    obtain rfl := h0
    exact ⟨_, _, _, threadsInv_start hgood⟩
  | step _ hs ih =>
    obtain ⟨phase, H, A, hinv⟩ := ih
    obtain ⟨phase', H', A', -, hinv'⟩ := hinv.step hsound hs
    exact ⟨phase', H', A', hinv'⟩

omit [DecidableEq τ] in
/-- Where no call is at work, the data are what the calls lead to. -/
theorem ThreadsInv.data_of_idle (hD : D.Lawful) {phase : τ → Phase κ} {H : List (Moment τ ι ρ)}
    {A : σ} (h : ThreadsInv D body good s₀ S phase H A) (hidle : ∀ t, S.running t = none) :
    S.data = A := by
  have hbefore : ∀ t, phase t = .before := by
    intro t
    obtain ⟨st, -, hthread⟩ := h.thread t
    rw [hidle t] at hthread
    generalize phase t = ph at hthread
    cases hthread
    rfl
  exact h.data_eq hD (fun t => by simp [hbefore t, Phase.IsWriter])
    fun k t => by simp [hbefore t, Phase.mutex]

/-- **Calls act at one moment each**, and keep the data good. Where no call is at work, the data are
what the calls lead to, made one after the other. -/
theorem threads_explained (hsound : Sound D body good) (hgood : good s₀)
    (h : (threadSystem D body s₀).Reachable S) :
    ∃ H A, Explains (fun c => D.solo (body c)) s₀ S.history H A ∧ good A ∧
      ((∀ t, S.running t = none) → S.data = A) := by
  obtain ⟨phase, H, A, hinv⟩ := threadsInv_reachable hsound hgood h
  refine ⟨H, A, ⟨hinv.visible, fun t => ?_, hinv.serial⟩, hinv.good,
    hinv.data_of_idle hsound.lawful⟩
  obtain ⟨st, hord, -⟩ := hinv.thread t
  exact ⟨st, hord⟩

/-! ## Threads and a machine -/

variable {α : Type} {step : α → ι → ρ × α} {a₀ : α} (R : σ → α → Prop)

theorem events_eq_zip (step : α → ι → ρ × α) : ∀ (s : α) (calls : List ι),
    events step s calls = calls.zip (answers step s calls)
  | _, [] => rfl
  | s, c :: calls => by
    rw [events, answers, List.zip_cons_cons, events_eq_zip step _ calls]

/-- Calls that, uninterrupted, do what the machine does. -/
theorem sound_of_simulation (hlawful : D.Lawful)
    (hfollows : ∀ c, Follows D.footprint (body c) .before)
    (hsim : ∀ s a c, R s a → ∃ s', D.solo (body c) s = some ((step a c).1, s') ∧
      R s' (step a c).2) : Sound D body fun s => ∃ a, R s a := by
  refine ⟨hlawful, hfollows, ?_⟩
  rintro c s ⟨a, ha⟩
  obtain ⟨s', hrun, ha'⟩ := hsim s a c ha
  exact ⟨_, s', hrun, _, ha'⟩

omit [DecidableEq κ] [DecidableEq τ] in
/-- What takes effect is answered as the machine answers. -/
theorem acts_eq_events (hsim : ∀ s a c, R s a → ∃ s',
      D.solo (body c) s = some ((step a c).1, s') ∧ R s' (step a c).2) (h₀ : R s₀ a₀)
    {H : List (Moment τ ι ρ)} {A : σ} (hserial : runCalls (fun c => D.solo (body c))
      ((acts H).map Prod.fst) s₀ = some ((acts H).map Prod.snd, A)) :
    acts H = events step a₀ ((acts H).map Prod.fst) ∧
      R A (stateAfter step a₀ ((acts H).map Prod.fst)) := by
  obtain ⟨s', hrun, hR⟩ := runCalls_of_simulation R hsim ((acts H).map Prod.fst) s₀ a₀ h₀
  -- Both runs answer alike and lead to the same data.
  rw [hserial] at hrun
  obtain ⟨hans, rfl⟩ := Prod.mk.inj (Option.some.inj hrun)
  refine ⟨?_, hR⟩
  rw [events_eq_zip, ← hans]
  exact List.zip_of_prod rfl rfl

/-- **What a call means when nobody interrupts it, it means among threads.** -/
theorem threads_linearize (hlawful : D.Lawful)
    (hfollows : ∀ c, Follows D.footprint (body c) .before)
    (hsim : ∀ s a c, R s a → ∃ s', D.solo (body c) s = some ((step a c).1, s') ∧
      R s' (step a c).2) (h₀ : R s₀ a₀) (h : (threadSystem D body s₀).Reachable S) :
    ∃ calls, Linearizes step a₀ S.history calls ∧
      ((∀ t, S.running t = none) → R S.data (stateAfter step a₀ calls)) := by
  obtain ⟨H, A, hexplains, -, hidle⟩ :=
    threads_explained (sound_of_simulation R hlawful hfollows hsim) ⟨a₀, h₀⟩ h
  obtain ⟨hacts, hR⟩ := acts_eq_events R hsim h₀ hexplains.serial
  refine ⟨(acts H).map Prod.fst, ⟨H, hexplains.visible, hexplains.orderly, hacts⟩, fun hnone => ?_⟩
  rw [hidle hnone]
  exact hR

end Runs

/-! ## What cannot happen -/

section Safety

variable [DecidableEq τ] {D body} {good : σ → Prop} {s₀ : σ} {S : Threads τ ι κ σ ρ Ans}

omit [DecidableEq τ] [DecidableEq κ] in
/-- An uninterrupted run that ends starts with an operation that is defined. -/
theorem soloOp_of_solo {o : LockOp Acc κ} {k : LockOp.Ans Ans o → LockProg κ Ans ρ} {s : σ}
    {r : ρ × σ} (h : D.solo (.perform o k) s = some r) : ∃ y, D.soloOp o s = some y := by
  rw [Guarded.solo_perform] at h
  obtain ⟨y, hy, -⟩ := Option.bind_eq_some_iff.mp h
  exact ⟨y, hy⟩

omit [DecidableEq τ] in
/-- What a reader without a mutex does is defined by the shape. -/
theorem soloOp_reading (hD : D.Lawful) {o : LockOp Acc κ} {ph' : Phase κ} {s s' : σ}
    (hnext : Phase.reading.next D.footprint o = some ph') (hshape : D.shape s = D.shape s')
    {y : LockOp.Ans Ans o × σ} (h : D.soloOp o s = some y) : ∃ y', D.soloOp o s' = some y' := by
  cases o with
  | access a =>
    have hreads : D.footprint a = .reads := by
      by_contra hne
      simp [Phase.next, hne] at hnext
    exact ⟨(y.1, s'), hD.reads hreads hshape h⟩
  | lock j =>
    simp only [Guarded.soloOp, hshape] at h
    exact ⟨((), s'), by
      simp only [Guarded.soloOp]
      split at h
      · next hlive => rw [if_pos hlive]
      · cases h⟩
  | rwunlock => exact ⟨_, rfl⟩
  | rdlock => cases hnext
  | wrlock => cases hnext
  | unlock j => cases hnext

/-- **Nothing that a thread does is undefined**, whatever the other threads have done. -/
theorem threads_defined (hsound : Sound D body good) (hgood : good s₀)
    (h : (threadSystem D body s₀).Reachable S) {t : τ} {c : ι} {p : LockProg κ Ans ρ}
    (hrun : S.running t = some (c, p)) :
    p ≠ .fault ∧ ∀ o k, p = .perform o k →
      (∃ y, D.soloOp o S.data = some y) ∧ S.locks.attempt t o ≠ .undefined := by
  obtain ⟨phase, H, A, hinv⟩ := threadsInv_reachable hsound hgood h
  obtain ⟨st, -, hthread⟩ := hinv.thread t
  rw [hrun] at hthread
  have hfollows := hthread.follows hsound.follows
  have hlocks : ∀ o k, p = .perform o k → S.locks.attempt t o ≠ .undefined := by
    rintro o k rfl
    obtain ⟨ph', hnext, -⟩ := hfollows
    exact hinv.locks.defined hnext
  -- The run of what is left ends, from some data on which it starts with the same operation.
  have hsolo : ∀ {r s}, D.solo p s = some r →
      (∀ o k, p = .perform o k → ∀ y, D.soloOp o s = some y → ∃ y', D.soloOp o S.data = some y') →
      p ≠ .fault ∧ ∀ o k, p = .perform o k → ∃ y, D.soloOp o S.data = some y := by
    intro r s hrun htransfer
    refine ⟨?_, ?_⟩
    · rintro rfl
      cases hrun
    · rintro o k rfl
      obtain ⟨y, hy⟩ := soloOp_of_solo hrun
      exact htransfer o k rfl y hy
  have hdefined : p ≠ .fault ∧ ∀ o k, p = .perform o k → ∃ y, D.soloOp o S.data = some y := by
    generalize hph : phase t = ph at hthread hfollows
    cases hthread with
    | before hp =>
      obtain ⟨a, A', hend, -⟩ := hsound.ends c A hinv.good
      rw [hp] at hend
      refine hsolo hend ?_
      rintro o k rfl y -
      obtain ⟨ph', hnext, -⟩ := hfollows
      cases o with
      | rdlock => exact ⟨_, rfl⟩
      | wrlock => exact ⟨_, rfl⟩
      | rwunlock => exact ⟨_, rfl⟩
      | access a => cases hnext
      | lock j => cases hnext
      | unlock j => cases hnext
    | reading hp hsame =>
      obtain ⟨a, A', hend, -⟩ := hsound.ends c A hinv.good
      have hshape := hinv.shape (hinv.no_writer (t := t) (by rw [hph]; trivial))
      rw [hsame A hshape] at hend
      refine hsolo hend ?_
      rintro o k rfl y hy
      obtain ⟨ph', hnext, -⟩ := hfollows
      exact soloOp_reading hsound.lawful hnext hshape hy
    | inPart hp hend hpart => exact hsolo hend fun o k _ y hy => ⟨y, hy⟩
    | leaving hp hend => exact hsolo hend fun o k _ y hy => ⟨y, hy⟩
    | writing hp hend => exact hsolo hend fun o k _ y hy => ⟨y, hy⟩
    | after c a => exact ⟨by simp, by rintro o k ⟨⟩⟩
  exact ⟨hdefined.1, fun o k hp => ⟨hdefined.2 o k hp, hlocks o k hp⟩⟩

/-- Two accesses that may not happen at once. -/
def Footprint.Conflicts : Footprint κ → Footprint κ → Prop
  | .writes, _ => True
  | _, .writes => True
  | .part j, .part k => j = k
  | _, _ => False

/-- The next thing that the thread does is this access. -/
def Threads.IsAt (S : Threads τ ι κ σ ρ Ans) (t : τ) (a : Acc) : Prop :=
  ∃ c k, S.running t = some (c, .perform (.access a) k)

/-- **No two threads are about to make accesses that conflict.** -/
theorem threads_exclusive (hsound : Sound D body good) (hgood : good s₀)
    (h : (threadSystem D body s₀).Reachable S) {t u : τ} (htu : t ≠ u) {a b : Acc}
    (ha : S.IsAt t a) (hb : S.IsAt u b) : ¬(D.footprint a).Conflicts (D.footprint b) := by
  obtain ⟨phase, H, A, hinv⟩ := threadsInv_reachable hsound hgood h
  have hphase : ∀ {t a}, S.IsAt t a → ((phase t).IsReader ∨ (phase t).IsWriter) ∧
      (D.footprint a = .writes → (phase t).IsWriter) ∧
      ∀ k, D.footprint a = .part k → (phase t).mutex = some k := by
    rintro t a ⟨c, k, hrun⟩
    obtain ⟨st, -, hthread⟩ := hinv.thread t
    rw [hrun] at hthread
    obtain ⟨ph', hnext, -⟩ := hthread.follows hsound.follows
    obtain ⟨-, hlock, hwrites, hparts⟩ := next_access hnext
    exact ⟨hlock, fun hf => by rw [hwrites hf]; trivial, hparts⟩
  obtain ⟨hlockt, hwritet, hpartt⟩ := hphase ha
  obtain ⟨hlocku, hwriteu, hpartu⟩ := hphase hb
  -- Who writes is alone.
  have halone : ∀ {t u}, t ≠ u → (phase t).IsWriter →
      ((phase u).IsReader ∨ (phase u).IsWriter) → False := by
    rintro t u htu hw (hr | hw')
    · exact hinv.locks.not_reader hw hr
    · exact htu (hinv.locks.writer_unique hw hw').symm
  intro hconflict
  cases hfa : D.footprint a with
  | writes => exact halone htu (hwritet hfa) hlocku
  | reads =>
    cases hfb : D.footprint b with
    | writes => exact halone (Ne.symm htu) (hwriteu hfb) hlockt
    | reads =>
      rw [hfa, hfb] at hconflict
      exact hconflict
    | part k =>
      rw [hfa, hfb] at hconflict
      exact hconflict
  | part j =>
    cases hfb : D.footprint b with
    | writes => exact halone (Ne.symm htu) (hwriteu hfb) hlockt
    | reads =>
      rw [hfa, hfb] at hconflict
      exact hconflict
    | part k =>
      rw [hfa, hfb] at hconflict
      obtain rfl : j = k := hconflict
      exact htu (hinv.locks.mutex_unique (hpartt j hfa) (hpartu j hfb)).symm

/-- **Who changes the shape is alone**: nobody else has any lock. -/
theorem threads_alone (hsound : Sound D body good) (hgood : good s₀)
    (h : (threadSystem D body s₀).Reachable S) {t : τ} {a : Acc} (ha : S.IsAt t a)
    (hf : D.footprint a = .writes) :
    S.locks.writer = some t ∧ S.locks.readers = [] ∧ ∀ k, S.locks.owner k = none := by
  obtain ⟨phase, H, A, hinv⟩ := threadsInv_reachable hsound hgood h
  obtain ⟨c, k, hrun⟩ := ha
  obtain ⟨st, -, hthread⟩ := hinv.thread t
  rw [hrun] at hthread
  obtain ⟨ph', hnext, -⟩ := hthread.follows hsound.follows
  have hph := (next_access hnext).2.2.1 hf
  have hw : (phase t).IsWriter := by
    rw [hph]
    trivial
  have hwriter := (hinv.locks.has t).writer.mpr hw
  refine ⟨hwriter, hinv.locks.exclusive (by rw [hwriter]; rfl), fun j => ?_⟩
  rw [Option.eq_none_iff_forall_ne_some]
  intro u hu
  have hmutex := ((hinv.locks.has u).owner j).mp hu
  rcases Phase.holds_of_mutex hmutex with hr | hw'
  · exact hinv.locks.not_reader hw hr
  · rw [hinv.locks.writer_unique hw hw', hph] at hmutex
    cases hmutex

/-- The next thing that the thread does is to take the lock for writing. -/
def Threads.AwaitsWriting (S : Threads τ ι κ σ ρ Ans) (t : τ) : Prop :=
  ∃ c k, S.running t = some (c, .perform .wrlock k)

/-- The thread is in a call and can go on, even if readers have to wait for those that wait to
write. -/
inductive Threads.Ready (D : Guarded Acc Ans κ σ γ π) (S : Threads τ ι κ σ ρ Ans) (t : τ) : Prop
  | performs {c : ι} {o : LockOp Acc κ} {k : LockOp.Ans Ans o → LockProg κ Ans ρ}
      {x : LockOp.Ans Ans o} {data : σ} {locks : Locks τ κ}
      (h : S.running t = some (c, .perform o k)) (hdata : D.soloOp o S.data = some (x, data))
      (hlocks : S.locks.attempt t o = .goes locks)
      (hwriters : o = .rdlock → ∀ u, ¬S.AwaitsWriting u) : Ready D S t
  | returns {c : ι} {a : ρ} (h : S.running t = some (c, .done a)) : Ready D S t

/-- What an operation waits for. -/
theorem Locks.attempt_waits {L : Locks τ κ} {t : τ} {o : LockOp Acc κ}
    (h : L.attempt t o = .waits) :
    (o = .rdlock ∧ L.writer.isSome) ∨ (o = .wrlock ∧ (L.writer.isSome ∨ L.readers ≠ [])) ∨
      ∃ k u, o = .lock k ∧ L.owner k = some u := by
  cases o with
  | rdlock =>
    simp only [Locks.attempt] at h
    split_ifs at h with hmine hwriter
    exact .inl ⟨rfl, hwriter⟩
  | wrlock =>
    simp only [Locks.attempt] at h
    split_ifs at h with hmine hheld
    exact .inr (.inl ⟨rfl, hheld⟩)
  | rwunlock =>
    simp only [Locks.attempt] at h
    split_ifs at h
  | lock k =>
    simp only [Locks.attempt] at h
    split_ifs at h with hmine howner
    obtain ⟨u, hu⟩ := Option.isSome_iff_exists.mp howner
    exact .inr (.inr ⟨k, u, rfl, hu⟩)
  | unlock k =>
    simp only [Locks.attempt] at h
    split_ifs at h
  | access a => cases h

/-- A call that does not have to wait can go on. -/
theorem Threads.ready (hsound : Sound D body good) (hgood : good s₀)
    (h : (threadSystem D body s₀).Reachable S) {t : τ} {c : ι} {p : LockProg κ Ans ρ}
    (hrun : S.running t = some (c, p))
    (hgoes : ∀ o k, p = .perform o k → S.locks.attempt t o ≠ .waits ∧
      (o = .rdlock → ∀ u, ¬S.AwaitsWriting u)) : S.Ready D t := by
  obtain ⟨hfault, hdefined⟩ := threads_defined hsound hgood h hrun
  cases p with
  | done a => exact .returns hrun
  | fault => exact absurd rfl hfault
  | perform o k =>
    obtain ⟨⟨y, hy⟩, hundefined⟩ := hdefined o k rfl
    obtain ⟨hwaits, hwriters⟩ := hgoes o k rfl
    cases hattempt : S.locks.attempt t o with
    | waits => exact absurd hattempt hwaits
    | undefined => exact absurd hattempt hundefined
    | goes locks => exact .performs hrun hy hattempt hwriters

/-- Who has the lock is about to perform something that its phase allows. -/
theorem ThreadsInv.holder (hsound : Sound D body good) (hgood : good s₀)
    (h : (threadSystem D body s₀).Reachable S) {phase : τ → Phase κ} {H : List (Moment τ ι ρ)}
    {A : σ} (hinv : ThreadsInv D body good s₀ S phase H A) {t : τ}
    (ht : (phase t).IsReader ∨ (phase t).IsWriter) :
    ∃ c o k ph', S.running t = some (c, .perform o k) ∧
      (phase t).next D.footprint o = some ph' := by
  obtain ⟨st, -, hthread⟩ := hinv.thread t
  cases hrun : S.running t with
  | none =>
    rw [hrun] at hthread
    generalize phase t = ph at hthread ht
    cases hthread
    exact (not_or.mpr ⟨not_false, not_false⟩ ht).elim
  | some r =>
    obtain ⟨c, p⟩ := r
    rw [hrun] at hthread
    have hfollows := hthread.follows hsound.follows
    cases p with
    | done a =>
      generalize phase t = ph at hfollows ht
      cases ph with
      | before => exact (not_or.mpr ⟨not_false, not_false⟩ ht).elim
      | after => exact (not_or.mpr ⟨not_false, not_false⟩ ht).elim
      | reading => exact hfollows.elim
      | inPart k => exact hfollows.elim
      | leaving => exact hfollows.elim
      | writing m => exact hfollows.elim
    | fault => exact absurd rfl (threads_defined hsound hgood h hrun).1
    | perform o k =>
      obtain ⟨ph', hnext, -⟩ := hfollows
      exact ⟨c, o, k, ph', rfl, hnext⟩

/-- **The threads never block each other for good**: while a call is at work, some call can go
on. -/
theorem threads_progress (hsound : Sound D body good) (hgood : good s₀)
    (h : (threadSystem D body s₀).Reachable S) {t : τ} (ht : S.running t ≠ none) :
    ∃ u, S.Ready D u := by
  obtain ⟨phase, H, A, hinv⟩ := threadsInv_reachable hsound hgood h
  -- Who has the lock waits for a mutex at most.
  have hholder : ∀ u, ((phase u).IsReader ∨ (phase u).IsWriter) →
      (∀ k v, S.locks.owner k = some v → (phase u).mutex = none → False) → S.Ready D u := by
    intro u hu hfree
    obtain ⟨c, o, k, ph', hrun, hnext⟩ := hinv.holder hsound hgood h hu
    refine Threads.ready hsound hgood h hrun ?_
    rintro o' k' ⟨⟩
    have hlock : o ≠ .rdlock ∧ o ≠ .wrlock := by
      constructor
      · rintro rfl
        rw [(next_rdlock hnext).1] at hu
        exact (not_or.mpr ⟨not_false, not_false⟩ hu).elim
      · rintro rfl
        rw [(next_wrlock hnext).1] at hu
        exact (not_or.mpr ⟨not_false, not_false⟩ hu).elim
    refine ⟨fun hwaits => ?_, fun ho => absurd ho hlock.1⟩
    rcases Locks.attempt_waits hwaits with ⟨ho, -⟩ | ⟨ho, -⟩ | ⟨j, v, rfl, hv⟩
    · exact hlock.1 ho
    · exact hlock.2 ho
    · exact hfree j v hv (next_lock hnext).1
  -- Who has a mutex does not wait.
  have hmutex : ∀ {k v}, S.locks.owner k = some v → S.Ready D v := by
    intro k v hv
    have hm := ((hinv.locks.has v).owner k).mp hv
    refine hholder v (Phase.holds_of_mutex hm) fun _ _ _ hnone => ?_
    rw [hnone] at hm
    cases hm
  by_cases hheld : ∃ u, (phase u).IsReader ∨ (phase u).IsWriter
  · obtain ⟨u, hu⟩ := hheld
    by_cases hall : ∃ k v, S.locks.owner k = some v
    · obtain ⟨k, v, hv⟩ := hall
      exact ⟨v, hmutex hv⟩
    · exact ⟨u, hholder u hu fun k v hv _ => hall ⟨k, v, hv⟩⟩
  · -- Nobody has the lock, so whoever wants it for writing can have it.
    rw [not_exists] at hheld
    have hreaders : S.locks.readers = [] := List.eq_nil_iff_forall_not_mem.mpr fun u hu =>
      hheld u (.inl ((hinv.locks.has u).reader.mp hu))
    have hwriter : S.locks.writer = none := by
      rw [Option.eq_none_iff_forall_ne_some]
      exact fun u hu => hheld u (.inr ((hinv.locks.has u).writer.mp hu))
    have hwaits : ∀ {u} {o : LockOp Acc κ}, S.locks.attempt u o = .waits →
        ∃ k v, S.locks.owner k = some v := by
      intro u o hwaits
      rcases Locks.attempt_waits hwaits with ⟨-, hw⟩ | ⟨-, hw | hr⟩ | ⟨j, v, -, hv⟩
      · simp [hwriter] at hw
      · simp [hwriter] at hw
      · exact absurd hreaders hr
      · exact ⟨j, v, hv⟩
    by_cases hmine : ∃ k v, S.locks.owner k = some v
    · obtain ⟨k, v, hv⟩ := hmine
      exact ⟨v, hmutex hv⟩
    · by_cases hawaits : ∃ u, S.AwaitsWriting u
      · obtain ⟨u, c, k, hrun⟩ := hawaits
        refine ⟨u, Threads.ready hsound hgood h hrun ?_⟩
        rintro o' k' ⟨⟩
        exact ⟨fun hw => hmine (hwaits hw), by simp⟩
      · obtain ⟨⟨c, p⟩, hrun⟩ := Option.ne_none_iff_exists'.mp ht
        exact ⟨t, Threads.ready hsound hgood h hrun fun o k _ =>
          ⟨fun hw => hmine (hwaits hw), fun _ u hu => hawaits ⟨u, hu⟩⟩⟩

end Safety

end Chlibs.Infra

import Chlibs.Infra.Threads

/-!
# Clients

Clients call an object, and go on as the calls are answered. The object answers at once, or its
calls are programs under locks, whose operations the clients perform in turns.

* `Clients` — what clients do; `atomicClients`, `threadClients` — the two kinds of runs.
* `clients_refine` — **where programs under locks lead their clients, the object leads them too.**
* `Local`, `Local.reachable` — a client can be reasoned about alone, by what it sees of the object.
-/

namespace Chlibs.Infra

/-- What the clients do. A client is at a place in `Λ`. -/
structure Clients (τ ι ρ Λ : Type) where
  start : τ → Λ
  moves : τ → Λ → Λ → Prop
  /-- a call, and where the client is when it is answered -/
  calls : τ → Λ → ι → (ρ → Λ) → Prop

variable {Acc : Type} {Ans : Acc → Type} {κ σ γ π τ ι ρ Λ α : Type} [DecidableEq τ]
  (C : Clients τ ι ρ Λ)

/-! ## The object answers at once -/

/-- The object, where the clients are, and the calls so far. -/
structure AtomicClients (τ ι ρ Λ α : Type) where
  object : α
  place : τ → Λ
  log : List (τ × ι × ρ)

section Atomic

variable (step : α → ι → ρ × α)

inductive AtomicStep : AtomicClients τ ι ρ Λ α → AtomicClients τ ι ρ Λ α → Prop
  | moves {s : AtomicClients τ ι ρ Λ α} {t : τ} {l : Λ} (h : C.moves t (s.place t) l) :
      AtomicStep s { s with place := Function.update s.place t l }
  | calls {s : AtomicClients τ ι ρ Λ α} {t : τ} {c : ι} {k : ρ → Λ}
      (h : C.calls t (s.place t) c k) :
      AtomicStep s
        { object := (step s.object c).2
          place := Function.update s.place t (k (step s.object c).1)
          log := s.log ++ [(t, c, (step s.object c).1)] }

def atomicClients (a₀ : α) : TransitionSystem (AtomicClients τ ι ρ Λ α) where
  init s := s = { object := a₀, place := C.start, log := [] }
  step := AtomicStep C step

/-- The calls of a log, in their order. -/
def logCalls (log : List (τ × ι × ρ)) : List ι := log.map fun e => e.2.1

/-- **The log explains the object**: it is the object after the calls so far, and each of them was
answered as the object was then. -/
theorem atomicClients_log {a₀ : α} {s : AtomicClients τ ι ρ Λ α}
    (h : (atomicClients C step a₀).Reachable s) :
    s.object = stateAfter step a₀ (logCalls s.log) ∧ ∀ before t c r,
      before ++ [(t, c, r)] <+: s.log → r = (step (stateAfter step a₀ (logCalls before)) c).1 := by
  induction h with
  | init h₀ =>
    obtain rfl := h₀
    refine ⟨rfl, fun before t c r hprefix => ?_⟩
    simpa using List.prefix_nil.mp hprefix
  | step _ hstep ih =>
    cases hstep with
    | moves h => exact ih
    | calls h =>
      obtain ⟨hobject, hanswers⟩ := ih
      refine ⟨?_, fun before t c r hprefix => ?_⟩
      · simp only [logCalls, List.map_append, stateAfter_append] at hobject ⊢
        rw [← hobject]
        rfl
      · rcases List.prefix_concat_iff.mp hprefix with hlast | hprefix
        · obtain ⟨rfl, hlast⟩ := List.append_inj' hlast rfl
          obtain ⟨rfl, rfl, rfl⟩ : t = _ ∧ c = _ ∧ r = _ := by simpa using hlast
          rw [hobject]
        · exact hanswers before t c r hprefix

end Atomic

/-! ## The calls are programs under locks -/

/-- A client is at a place, or in a call. -/
inductive Where (ρ Λ : Type) where
  | here (l : Λ)
  | waits (k : ρ → Λ)

/-- The threads that run the calls, and where the clients are. -/
structure ThreadClients (τ ι κ σ ρ Λ : Type) {Acc : Type} (Ans : Acc → Type) where
  threads : Threads τ ι κ σ ρ Ans
  place : τ → Where ρ Λ

section Threads

variable [DecidableEq κ] (D : Guarded Acc Ans κ σ γ π) (body : ι → LockProg κ Ans ρ)

inductive ClientStep : ThreadClients τ ι κ σ ρ Λ Ans → ThreadClients τ ι κ σ ρ Λ Ans → Prop
  | moves {S : ThreadClients τ ι κ σ ρ Λ Ans} {t : τ} {l l' : Λ} (hat : S.place t = .here l)
      (h : C.moves t l l') :
      ClientStep S { S with place := Function.update S.place t (.here l') }
  | calls {S : ThreadClients τ ι κ σ ρ Λ Ans} {threads : Threads τ ι κ σ ρ Ans} {t : τ} {l : Λ}
      {c : ι} {k : ρ → Λ} (hat : S.place t = .here l) (h : C.calls t l c k)
      (hs : ThreadStep D body S.threads threads)
      (hhistory : threads.history = S.threads.history ++ [.calls t c]) :
      ClientStep S { threads := threads, place := Function.update S.place t (.waits k) }
  | performs {S : ThreadClients τ ι κ σ ρ Λ Ans} {threads : Threads τ ι κ σ ρ Ans}
      (hs : ThreadStep D body S.threads threads) (hhistory : threads.history = S.threads.history) :
      ClientStep S { S with threads := threads }
  | returns {S : ThreadClients τ ι κ σ ρ Λ Ans} {threads : Threads τ ι κ σ ρ Ans} {t : τ} {a : ρ}
      {k : ρ → Λ} (hat : S.place t = .waits k) (hs : ThreadStep D body S.threads threads)
      (hhistory : threads.history = S.threads.history ++ [.returns t a]) :
      ClientStep S { threads := threads, place := Function.update S.place t (.here (k a)) }

def threadClients (s₀ : σ) : TransitionSystem (ThreadClients τ ι κ σ ρ Λ Ans) where
  init S := S = { threads := .start s₀, place := fun t => .here (C.start t) }
  step := ClientStep C D body

/-- The threads of clients are threads. -/
theorem threads_reachable {s₀ : σ} {S : ThreadClients τ ι κ σ ρ Λ Ans}
    (h : (threadClients C D body s₀).Reachable S) :
    (threadSystem D body s₀).Reachable S.threads := by
  refine h.map (fun S hS => congrArg ThreadClients.threads hS) fun S S' _ hs => ?_
  cases hs with
  | moves hat hmoves => exact .inr rfl
  | calls hat hcalls hthread hhistory => exact .inl hthread
  | performs hthread hhistory => exact .inl hthread
  | returns hat hthread hhistory => exact .inl hthread

end Threads

/-! ## Moments -/

section Moments

variable {t : τ} {m : Moment τ ι ρ} {H H' : List (Moment τ ι ρ)} {st st' : CallStatus ι ρ}

omit [DecidableEq τ] in
/-- What a moment makes of the status of a thread. -/
theorem Orderly.snoc (h : Orderly t (H ++ [m]) st') : ∃ st, Orderly t H st ∧
    ((m.thread ≠ t ∧ st' = st) ∨ (∃ c, m = .calls t c ∧ st = .idle ∧ st' = .called c) ∨
      (∃ c a, m = .acts t c a ∧ st = .called c ∧ st' = .acted c a) ∨
      ∃ c a, m = .returns t a ∧ st = .acted c a ∧ st' = .idle) := by
  generalize hG : H ++ [m] = G at h
  cases h with
  | nil => simp at hG
  | other h hm =>
    obtain ⟨rfl, hlast⟩ := List.append_inj' hG rfl
    obtain rfl := List.singleton_inj.mp hlast
    exact ⟨_, h, .inl ⟨hm, rfl⟩⟩
  | calls h =>
    obtain ⟨rfl, hlast⟩ := List.append_inj' hG rfl
    obtain rfl := List.singleton_inj.mp hlast
    exact ⟨_, h, .inr (.inl ⟨_, rfl, rfl, rfl⟩)⟩
  | acts h =>
    obtain ⟨rfl, hlast⟩ := List.append_inj' hG rfl
    obtain rfl := List.singleton_inj.mp hlast
    exact ⟨_, h, .inr (.inr (.inl ⟨_, _, rfl, rfl, rfl⟩))⟩
  | returns h =>
    obtain ⟨rfl, hlast⟩ := List.append_inj' hG rfl
    obtain rfl := List.singleton_inj.mp hlast
    exact ⟨_, h, .inr (.inr (.inr ⟨_, _, rfl, rfl, rfl⟩))⟩

omit [DecidableEq τ] in
theorem orderly_nil (h : Orderly (ι := ι) (ρ := ρ) t [] st) : st = .idle := by
  generalize hG : ([] : List (Moment τ ι ρ)) = G at h
  cases h with
  | nil => rfl
  | _ => simp at hG

omit [DecidableEq τ] in
/-- A history leaves a thread with one status. -/
theorem Orderly.unique (h : Orderly t H st) (h' : Orderly t H st') : st = st' := by
  induction H using List.reverseRecOn generalizing st st' with
  | nil => rw [orderly_nil h, orderly_nil h']
  | append_singleton H m ih =>
    obtain ⟨st₁, h₁, hm⟩ := h.snoc
    obtain ⟨st₁', h₁', hm'⟩ := h'.snoc
    obtain rfl := ih h₁ h₁'
    rcases hm with ⟨hne, rfl⟩ | ⟨c, rfl, rfl, rfl⟩ | ⟨c, a, rfl, rfl, rfl⟩ |
      ⟨c, a, rfl, rfl, rfl⟩ <;>
    rcases hm' with ⟨hne', rfl⟩ | ⟨c', hm, hst, rfl⟩ | ⟨c', a', hm, hst, rfl⟩ |
      ⟨c', a', hm, hst, rfl⟩ <;>
    simp_all [Moment.thread]

omit [DecidableEq τ] in
theorem Orderly.of_append (h : Orderly t (H ++ H') st) : ∃ st, Orderly t H st := by
  induction H' using List.reverseRecOn generalizing st with
  | nil =>
    rw [List.append_nil] at h
    exact ⟨st, h⟩
  | append_singleton H' m ih =>
    rw [← List.append_assoc] at h
    obtain ⟨st', h', -⟩ := h.snoc
    exact ih h'

end Moments

/-! ## The calls of one client -/

/-- A call that takes effect, whose it is and how it is answered. -/
def Moment.entry : Moment τ ι ρ → Option (τ × ι × ρ)
  | acts t c a => some (t, c, a)
  | _ => none

namespace Moment

/-- A call of client `t`. -/
def callOf (t : τ) : Moment τ ι ρ → Option ι
  | calls u c => if u = t then some c else none
  | _ => none

/-- What client `t` gets back. -/
def returnOf (t : τ) : Moment τ ι ρ → Option ρ
  | returns u a => if u = t then some a else none
  | _ => none

end Moment

section Own

/-- The calls of client `t`. -/
def own (t : τ) (log : List (τ × ι × ρ)) : List (ι × ρ) :=
  log.filterMap fun e => if e.1 = t then some e.2 else none

variable {t u : τ} {e : ι × ρ} {log : List (τ × ι × ρ)}

theorem mem_own : e ∈ own t log ↔ (t, e) ∈ log := by
  rw [own, List.mem_filterMap]
  constructor
  · rintro ⟨⟨u, e'⟩, hmem, he⟩
    by_cases hu : u = t
    · simp only [hu, if_true, Option.some.injEq] at he
      rw [← he, ← hu]
      exact hmem
    · simp [hu] at he
  · exact fun h => ⟨(t, e), h, if_pos rfl⟩

theorem own_snoc_self (t : τ) (e : ι × ρ) (log : List (τ × ι × ρ)) :
    own t (log ++ [(t, e)]) = own t log ++ [e] := by
  simp [own]

theorem own_snoc_of_ne (h : u ≠ t) (e : ι × ρ) (log : List (τ × ι × ρ)) :
    own u (log ++ [(t, e)]) = own u log := by
  simp [own, h.symm]

theorem own_append (t : τ) (log log' : List (τ × ι × ρ)) :
    own t (log ++ log') = own t log ++ own t log' := List.filterMap_append

/-- Calls are counted client by client. -/
theorem countP_eq_sum_own (P : ι × ρ → Bool) {S : Finset τ} : ∀ {log : List (τ × ι × ρ)},
    (∀ e ∈ log, e.1 ∈ S) → log.countP (fun e => P e.2) = ∑ t ∈ S, (own t log).countP P
  | [], _ => by simp [own]
  | e :: log, h => by
    have hcons : ∀ t, (own t (e :: log)).countP P
        = (own t log).countP P + if e.1 = t then (if P e.2 then 1 else 0) else 0 := by
      intro t
      by_cases ht : e.1 = t <;> simp [own, ht, List.countP_cons]
    rw [List.countP_cons, countP_eq_sum_own P fun e he => h e (List.mem_cons_of_mem _ he),
      Finset.sum_congr rfl fun t _ => hcons t, Finset.sum_add_distrib, Finset.sum_ite_eq,
      if_pos (h e List.mem_cons_self)]

/-- The call that has not taken effect. -/
def CallStatus.called? : CallStatus ι ρ → List ι
  | called c => [c]
  | _ => []

/-- The answer that has not been returned. -/
def CallStatus.acted? : CallStatus ι ρ → List ρ
  | acted _ a => [a]
  | _ => []

/-- **What a client has called and got back** are the calls of its that took effect, but for the
last one. -/
theorem Orderly.answered {H : List (Moment τ ι ρ)} {st : CallStatus ι ρ} (h : Orderly t H st) :
    H.filterMap (Moment.callOf t)
        = (own t (H.filterMap Moment.entry)).map Prod.fst ++ st.called? ∧
      (own t (H.filterMap Moment.entry)).map Prod.snd
        = H.filterMap (Moment.returnOf t) ++ st.acted? := by
  induction h with
  | nil => exact ⟨rfl, rfl⟩
  | @other H st m h hm ih =>
    have hentry : own t ([m].filterMap Moment.entry) = [] := by
      cases m with
      | acts u c a => exact own_snoc_of_ne (Ne.symm hm) (c, a) []
      | _ => rfl
    have hcall : [m].filterMap (Moment.callOf t) = [] := by
      cases m <;> simp_all [Moment.callOf, Moment.thread]
    have hreturn : [m].filterMap (Moment.returnOf t) = [] := by
      cases m <;> simp_all [Moment.returnOf, Moment.thread]
    simpa only [List.filterMap_append, own_append, hentry, hcall, hreturn, List.append_nil] using ih
  | @calls H c h ih =>
    have hentry : own t ([Moment.calls t c].filterMap (Moment.entry (ρ := ρ))) = [] := rfl
    have hcall : [Moment.calls t c].filterMap (Moment.callOf (ρ := ρ) t) = [c] := by
      simp [Moment.callOf]
    have hreturn : [Moment.calls t c].filterMap (Moment.returnOf (ρ := ρ) t) = [] := rfl
    simp only [CallStatus.called?, CallStatus.acted?, List.append_nil] at ih ⊢
    simp only [List.filterMap_append, own_append, hentry, hcall, hreturn, List.append_nil, ih,
      and_self]
  | @acts H c a h ih =>
    have hentry : own t ([Moment.acts t c a].filterMap Moment.entry) = [(c, a)] :=
      own_snoc_self t (c, a) []
    have hcall : [Moment.acts t c a].filterMap (Moment.callOf t) = [] := rfl
    have hreturn : [Moment.acts t c a].filterMap (Moment.returnOf t) = [] := rfl
    simp only [CallStatus.called?, CallStatus.acted?, List.append_nil] at ih ⊢
    simp only [List.filterMap_append, own_append, hentry, hcall, hreturn, List.append_nil, ih,
      List.map_append]
    exact ⟨rfl, rfl⟩
  | @returns H c a h ih =>
    have hentry : own t ([Moment.returns t a].filterMap (Moment.entry (ι := ι))) = [] := rfl
    have hcall : [Moment.returns t a].filterMap (Moment.callOf (ι := ι) t) = [] := rfl
    have hreturn : [Moment.returns t a].filterMap (Moment.returnOf (ι := ι) t) = [a] := by
      simp [Moment.returnOf]
    simp only [CallStatus.called?, CallStatus.acted?, List.append_nil] at ih ⊢
    simp only [List.filterMap_append, own_append, hentry, hcall, hreturn, List.append_nil, ih,
      and_self]

omit [DecidableEq τ] in
/-- Nothing of that is invisible. -/
theorem filterMap_visible {β : Type} {f : Moment τ ι ρ → Option β}
    (hf : ∀ m, m.visible = false → f m = none) (H : List (Moment τ ι ρ)) :
    (H.filter Moment.visible).filterMap f = H.filterMap f := by
  rw [List.filterMap_filter]
  refine List.filterMap_congr fun m _ => ?_
  cases hm : m.visible with
  | true => rfl
  | false => exact (hf m hm).symm

end Own

/-! ## Refinement -/

/-- The status of the call of client `t`, where the client is under locks, and where it is with the
object. -/
inductive ClientAt (t : τ) : CallStatus ι ρ → Where ρ Λ → Λ → Prop
  | here (l : Λ) : ClientAt t .idle (.here l) l
  | called {c : ι} {l : Λ} {k : ρ → Λ} (h : C.calls t l c k) : ClientAt t (.called c) (.waits k) l
  | acted {c : ι} {a : ρ} {k : ρ → Λ} : ClientAt t (.acted c a) (.waits k) (k a)

section Refinement

variable (step : α → ι → ρ × α) (a₀ : α)

/-- Each thread makes its calls one by one, and they are answered as the object answers. -/
structure Fits (H : List (Moment τ ι ρ)) : Prop where
  orderly : ∀ t, ∃ st, Orderly t H st
  answers : acts H = events step a₀ ((acts H).map Prod.fst)

/-- With the object, the clients have made the calls that take effect in `H`. -/
structure Matches (H : List (Moment τ ι ρ)) (place : τ → Where ρ Λ)
    (s : AtomicClients τ ι ρ Λ α) : Prop where
  client : ∀ t, ∃ st, Orderly t H st ∧ ClientAt C t st (place t) (s.place t)
  object : s.object = stateAfter step a₀ ((acts H).map Prod.fst)
  log : s.log = H.filterMap Moment.entry

variable {step a₀} {H H' : List (Moment τ ι ρ)} {place : τ → Where ρ Λ}
  {s : AtomicClients τ ι ρ Λ α} {t : τ}

theorem events_length : ∀ (a : α) (cs : List ι), (events step a cs).length = cs.length
  | _, [] => rfl
  | _, _ :: cs => congrArg Nat.succ (events_length _ cs)

omit [DecidableEq τ] in
theorem Fits.of_append (h : Fits step a₀ (H ++ H')) : Fits step a₀ H where
  orderly t := by
    obtain ⟨st, hst⟩ := h.orderly t
    exact hst.of_append
  answers := by
    have hanswers := h.answers
    rw [acts_append, List.map_append, events_append] at hanswers
    exact (List.append_inj hanswers (by rw [events_length, List.length_map])).1

omit [DecidableEq τ] in
/-- What is called next is answered next. -/
theorem Fits.acts_snoc {c : ι} {a : ρ} (h : Fits step a₀ (H ++ [.acts t c a])) :
    a = (step (stateAfter step a₀ ((acts H).map Prod.fst)) c).1 := by
  have hanswers := h.answers
  rw [acts_append, List.map_append, events_append] at hanswers
  have hlast := (List.append_inj hanswers (by rw [events_length, List.length_map])).2
  exact (Prod.mk.inj (List.singleton_inj.mp hlast)).2

/-- **A call takes effect**, and the object is called. -/
theorem Matches.acts {c : ι} {a : ρ} (h : Matches C step a₀ H place s)
    (hreach : (atomicClients C step a₀).Reachable s) (hfits : Fits step a₀ (H ++ [.acts t c a])) :
    ∃ s', (atomicClients C step a₀).Reachable s' ∧
      Matches C step a₀ (H ++ [.acts t c a]) place s' := by
  obtain ⟨st', hord'⟩ := hfits.orderly t
  obtain ⟨st, hord, hcases⟩ := hord'.snoc
  obtain ⟨hne, -⟩ | ⟨_, hm, -⟩ | ⟨c', a', hm, rfl, rfl⟩ | ⟨_, _, hm, -⟩ := hcases
  · exact absurd rfl hne
  · cases hm
  · cases hm
    obtain ⟨st, hst, hclient⟩ := h.client t
    obtain rfl := hst.unique hord
    have ha := hfits.acts_snoc
    rw [← h.object] at ha
    generalize hplace : place t = w at hclient
    generalize hat : s.place t = l at hclient
    cases hclient with
    | called hcalls =>
      refine ⟨_, hreach.step (.calls (hat ▸ hcalls)), fun u => ?_, ?_, ?_⟩
      · by_cases hu : u = t
        · subst hu
          refine ⟨_, hord', ?_⟩
          show ClientAt C u _ _ (Function.update s.place u _ u)
          rw [hplace, Function.update_self, ← ha]
          exact .acted
        · obtain ⟨stu, hordu, hclientu⟩ := h.client u
          refine ⟨stu, hordu.other (Ne.symm hu), ?_⟩
          show ClientAt C u _ _ (Function.update s.place t _ u)
          rwa [Function.update_of_ne hu]
      · rw [acts_append, List.map_append, stateAfter_append, ← h.object]
        rfl
      · rw [List.filterMap_append, ← h.log, ha]
        rfl
  · cases hm

/-- Calls take effect one after the other. -/
theorem Matches.quiet : ∀ {ms : List (Moment τ ι ρ)} {H : List (Moment τ ι ρ)}
    {s : AtomicClients τ ι ρ Λ α}, Matches C step a₀ H place s →
    (atomicClients C step a₀).Reachable s → Fits step a₀ (H ++ ms) →
    (∀ m ∈ ms, m.visible = false) → ∃ s', (atomicClients C step a₀).Reachable s' ∧
      Matches C step a₀ (H ++ ms) place s'
  | [], H, s, h, hreach, _, _ => ⟨s, hreach, by rwa [List.append_nil]⟩
  | m :: ms, H, s, h, hreach, hfits, hquiet => by
    rw [List.append_cons] at hfits ⊢
    have hm := hquiet m List.mem_cons_self
    cases m with
    | acts u c a =>
      obtain ⟨s', hreach', h'⟩ := h.acts C hreach hfits.of_append
      exact h'.quiet hreach' hfits fun m hm => hquiet m (List.mem_cons_of_mem _ hm)
    | calls => cases hm
    | returns => cases hm

/-- A client begins a call. -/
theorem Matches.calls {l : Λ} {c : ι} {k : ρ → Λ} (h : Matches C step a₀ H place s)
    (hat : place t = .here l) (hcalls : C.calls t l c k) :
    Matches C step a₀ (H ++ [.calls t c]) (Function.update place t (.waits k)) s where
  client u := by
    obtain ⟨st, hord, hclient⟩ := h.client u
    by_cases hu : u = t
    · subst hu
      rw [hat] at hclient
      generalize s.place u = l' at hclient
      cases hclient
      rw [Function.update_self]
      exact ⟨_, hord.calls, .called hcalls⟩
    · rw [Function.update_of_ne hu]
      exact ⟨st, hord.other (Ne.symm hu), hclient⟩
  object := by
    rw [acts_append, List.map_append, stateAfter_append]
    exact h.object
  log := by
    rw [List.filterMap_append, ← h.log]
    exact (List.append_nil _).symm

/-- A client goes on with the answer. -/
theorem Matches.returns {a : ρ} {k : ρ → Λ} (h : Matches C step a₀ H place s)
    (hat : place t = .waits k) (hfits : Fits step a₀ (H ++ [.returns t a])) :
    Matches C step a₀ (H ++ [.returns t a]) (Function.update place t (.here (k a))) s where
  client u := by
    obtain ⟨st, hord, hclient⟩ := h.client u
    by_cases hu : u = t
    · subst hu
      obtain ⟨st', hord'⟩ := hfits.orderly u
      obtain ⟨st₁, hord₁, hcases⟩ := hord'.snoc
      obtain rfl := hord.unique hord₁
      rw [hat] at hclient
      rw [Function.update_self]
      rcases hcases with ⟨hne, -⟩ | ⟨_, hm, -⟩ | ⟨_, _, hm, -⟩ | ⟨c, a', hm, rfl, rfl⟩
      · exact absurd rfl hne
      · cases hm
      · cases hm
      · cases hm
        refine ⟨_, hord', ?_⟩
        generalize s.place u = l' at hclient
        cases hclient
        exact .here _
    · rw [Function.update_of_ne hu]
      exact ⟨st, hord.other (Ne.symm hu), hclient⟩
  object := by
    rw [acts_append, List.map_append, stateAfter_append]
    exact h.object
  log := by
    rw [List.filterMap_append, ← h.log]
    exact (List.append_nil _).symm

/-- A client goes on by itself. -/
theorem Matches.moves {l l' : Λ} (h : Matches C step a₀ H place s)
    (hreach : (atomicClients C step a₀).Reachable s) (hat : place t = .here l)
    (hmoves : C.moves t l l') : ∃ s', (atomicClients C step a₀).Reachable s' ∧
      Matches C step a₀ H (Function.update place t (.here l')) s' := by
  have hplace : s.place t = l := by
    obtain ⟨st, -, hclient⟩ := h.client t
    rw [hat] at hclient
    generalize s.place t = l₁ at hclient
    cases hclient
    rfl
  refine ⟨_, hreach.step (.moves (hplace.symm ▸ hmoves)), fun u => ?_, h.object, h.log⟩
  obtain ⟨st, hord, hclient⟩ := h.client u
  refine ⟨st, hord, ?_⟩
  show ClientAt C u st _ (Function.update s.place t l' u)
  by_cases hu : u = t
  · subst hu
    rw [hat] at hclient
    rw [Function.update_self, Function.update_self]
    generalize s.place u = l₁ at hclient
    cases hclient
    exact .here l'
  · rwa [Function.update_of_ne hu, Function.update_of_ne hu]

variable [DecidableEq κ] {D : Guarded Acc Ans κ σ γ π} {body : ι → LockProg κ Ans ρ} {s₀ : σ}

omit [DecidableEq τ] in
/-- What happens visibly in a step happens after what took effect before. -/
theorem visible_of_history {good : σ → Prop} {S S' : Threads τ ι κ σ ρ Ans}
    {phase phase' : τ → Phase κ} {A A' : σ} {ms vs : List (Moment τ ι ρ)}
    (h : ThreadsInv D body good s₀ S phase H A)
    (h' : ThreadsInv D body good s₀ S' phase' (H ++ ms) A')
    (hhistory : S'.history = S.history ++ vs) : ms.filter Moment.visible = vs := by
  have hvisible := h'.visible
  rw [List.filter_append, h.visible, hhistory] at hvisible
  exact List.append_cancel_left hvisible

/-- **A step of a client under locks** is made of steps with the object. -/
theorem Matches.goes (R : σ → α → Prop) (hlawful : D.Lawful)
    (hfollows : ∀ c, Follows D.footprint (body c) .before)
    (hsim : ∀ s a c, R s a → ∃ s', D.solo (body c) s = some ((step a c).1, s') ∧
      R s' (step a c).2) (h₀ : R s₀ a₀) {S S' : ThreadClients τ ι κ σ ρ Λ Ans}
    {phase : τ → Phase κ} {A : σ}
    (hinv : ThreadsInv D body (fun s => ∃ a, R s a) s₀ S.threads phase H A)
    (hreach : (atomicClients C step a₀).Reachable s) (h : Matches C step a₀ H S.place s)
    (hs : ClientStep C D body S S') : ∃ phase' H' A' s',
      ThreadsInv D body (fun s => ∃ a, R s a) s₀ S'.threads phase' H' A' ∧
        (atomicClients C step a₀).Reachable s' ∧ Matches C step a₀ H' S'.place s' := by
  have hsound := sound_of_simulation R hlawful hfollows hsim
  have hfits : ∀ {S : Threads τ ι κ σ ρ Ans} {phase H A},
      ThreadsInv D body (fun s => ∃ a, R s a) s₀ S phase H A → Fits step a₀ H := by
    intro S phase H A hinv
    refine ⟨fun t => ?_, (acts_eq_events R hsim h₀ hinv.serial).1⟩
    obtain ⟨st, hord, -⟩ := hinv.thread t
    exact ⟨st, hord⟩
  have hinvisible : ∀ {ms : List (Moment τ ι ρ)}, ms.filter Moment.visible = [] →
      ∀ m ∈ ms, m.visible = false := fun hnil m hm => by
    simpa using List.filter_eq_nil_iff.mp hnil m hm
  cases hs with
  | moves hat hmoves =>
    obtain ⟨s', hreach', h'⟩ := h.moves C hreach hat hmoves
    exact ⟨phase, H, A, s', hinv, hreach', h'⟩
  | performs hthread hhistory =>
    obtain ⟨phase', H', A', ⟨ms, rfl⟩, hinv'⟩ := hinv.step hsound hthread
    have hms := visible_of_history hinv hinv' (hhistory.trans (List.append_nil _).symm)
    obtain ⟨s', hreach', h'⟩ := h.quiet C hreach (hfits hinv') (hinvisible hms)
    exact ⟨phase', _, A', s', hinv', hreach', h'⟩
  | calls hat hcalls hthread hhistory =>
    obtain ⟨phase', H', A', ⟨ms, rfl⟩, hinv'⟩ := hinv.step hsound hthread
    have hms := visible_of_history hinv hinv' hhistory
    obtain ⟨ms₁, ms₂, rfl, hms₁, -, hms₂⟩ := List.filter_eq_cons_iff.mp hms
    have hfits' := hfits hinv'
    rw [List.append_cons, ← List.append_assoc, ← List.append_assoc] at hfits'
    obtain ⟨s₁, hreach₁, h₁⟩ := h.quiet C hreach hfits'.of_append.of_append (by simpa using hms₁)
    obtain ⟨s₂, hreach₂, h₂⟩ := (h₁.calls C hat hcalls).quiet C hreach₁ hfits' (hinvisible hms₂)
    refine ⟨phase', _, A', s₂, hinv', hreach₂, ?_⟩
    rwa [List.append_cons, ← List.append_assoc, ← List.append_assoc]
  | returns hat hthread hhistory =>
    obtain ⟨phase', H', A', ⟨ms, rfl⟩, hinv'⟩ := hinv.step hsound hthread
    have hms := visible_of_history hinv hinv' hhistory
    obtain ⟨ms₁, ms₂, rfl, hms₁, -, hms₂⟩ := List.filter_eq_cons_iff.mp hms
    have hfits' := hfits hinv'
    rw [List.append_cons, ← List.append_assoc, ← List.append_assoc] at hfits'
    obtain ⟨s₁, hreach₁, h₁⟩ := h.quiet C hreach hfits'.of_append.of_append (by simpa using hms₁)
    obtain ⟨s₂, hreach₂, h₂⟩ :=
      (h₁.returns C hat hfits'.of_append).quiet C hreach₁ hfits' (hinvisible hms₂)
    refine ⟨phase', _, A', s₂, hinv', hreach₂, ?_⟩
    rwa [List.append_cons, ← List.append_assoc, ← List.append_assoc]

/-- The runs match, and so the threads know what the object does. -/
theorem clients_match (R : σ → α → Prop) (hlawful : D.Lawful)
    (hfollows : ∀ c, Follows D.footprint (body c) .before)
    (hsim : ∀ s a c, R s a → ∃ s', D.solo (body c) s = some ((step a c).1, s') ∧
      R s' (step a c).2) (h₀ : R s₀ a₀) {S : ThreadClients τ ι κ σ ρ Λ Ans}
    (h : (threadClients C D body s₀).Reachable S) :
    ∃ phase H A s, ThreadsInv D body (fun s => ∃ a, R s a) s₀ S.threads phase H A ∧
      (atomicClients C step a₀).Reachable s ∧ Matches C step a₀ H S.place s := by
  induction h with
  | init hS =>
    obtain rfl := hS
    exact ⟨_, _, _, _, threadsInv_start ⟨a₀, h₀⟩, .init rfl, fun t => ⟨.idle, .nil, .here _⟩, rfl,
      rfl⟩
  | step _ hs ih =>
    obtain ⟨phase, H, A, s, hinv, hreach, hmatches⟩ := ih
    exact hmatches.goes C R hlawful hfollows hsim h₀ hinv hreach hs

/-- **Where programs under locks lead their clients, the object leads them too**: a client that is
not in a call is where it is with the object, and has called and got back the same. A client in a
call waits for the answer or has it. -/
theorem clients_refine (R : σ → α → Prop) (hlawful : D.Lawful)
    (hfollows : ∀ c, Follows D.footprint (body c) .before)
    (hsim : ∀ s a c, R s a → ∃ s', D.solo (body c) s = some ((step a c).1, s') ∧
      R s' (step a c).2) (h₀ : R s₀ a₀) {S : ThreadClients τ ι κ σ ρ Λ Ans}
    (h : (threadClients C D body s₀).Reachable S) :
    ∃ s, (atomicClients C step a₀).Reachable s ∧
      (∀ t l, S.place t = .here l → s.place t = l ∧
        S.threads.history.filterMap (Moment.callOf t) = (own t s.log).map Prod.fst ∧
        S.threads.history.filterMap (Moment.returnOf t) = (own t s.log).map Prod.snd) ∧
      (∀ t k, S.place t = .waits k →
        (∃ c, C.calls t (s.place t) c k) ∨ ∃ a, s.place t = k a) ∧
      ((∀ t, S.threads.running t = none) → R S.threads.data s.object) := by
  obtain ⟨phase, H, A, s, hinv, hreach, hmatches⟩ :=
    clients_match C R hlawful hfollows hsim h₀ h
  refine ⟨s, hreach, fun t l hat => ?_, fun t k hat => ?_, fun hidle => ?_⟩
  · obtain ⟨st, hord, hclient⟩ := hmatches.client t
    rw [hat] at hclient
    generalize s.place t = l' at hclient
    cases hclient with
    | here =>
      obtain ⟨hcalls, hreturns⟩ := hord.answered
      rw [← hinv.visible, filterMap_visible (by rintro ⟨⟩ <;> simp [Moment.visible, Moment.callOf]),
        filterMap_visible (by rintro ⟨⟩ <;> simp [Moment.visible, Moment.returnOf]), hmatches.log]
      simp only [CallStatus.called?, CallStatus.acted?, List.append_nil] at hcalls hreturns
      exact ⟨rfl, hcalls, hreturns.symm⟩
  · obtain ⟨st, -, hclient⟩ := hmatches.client t
    rw [hat] at hclient
    generalize s.place t = l' at hclient
    cases hclient with
    | called hcalls => exact .inl ⟨_, hcalls⟩
    | acted => exact .inr ⟨_, rfl⟩
  · rw [hinv.data_of_idle hlawful hidle, hmatches.object]
    exact (acts_eq_events R hsim h₀ hinv.serial).2

end Refinement

/-! ## One client at a time -/

/-- What client `t` sees of the object and of its own calls is `view t`. Wherever it is, `good`
holds of what it sees; a call keeps that, and `inv` of the object, and nobody else sees a
difference. -/
structure Local {ν : Type} (step : α → ι → ρ × α) (a₀ : α) (inv : α → List (τ × ι × ρ) → Prop)
    (view : τ → α → List (τ × ι × ρ) → ν) (good : τ → ν → Λ → Prop) : Prop where
  init : inv a₀ [] ∧ ∀ t, good t (view t a₀ []) (C.start t)
  moves : ∀ {t v l l'}, good t v l → C.moves t l l' → good t v l'
  calls : ∀ {t a log l c k}, inv a log → good t (view t a log) l → C.calls t l c k →
    let log' := log ++ [(t, c, (step a c).1)]
    inv (step a c).2 log' ∧ good t (view t (step a c).2 log') (k (step a c).1) ∧
      ∀ u, u ≠ t → view u (step a c).2 log' = view u a log

/-- **What holds of each client alone holds of all of them together.** -/
theorem Local.reachable {ν : Type} {step : α → ι → ρ × α} {a₀ : α}
    {inv : α → List (τ × ι × ρ) → Prop} {view : τ → α → List (τ × ι × ρ) → ν}
    {good : τ → ν → Λ → Prop} (h : Local C step a₀ inv view good)
    {s : AtomicClients τ ι ρ Λ α} (hs : (atomicClients C step a₀).Reachable s) :
    inv s.object s.log ∧ ∀ t, good t (view t s.object s.log) (s.place t) := by
  induction hs with
  | init h₀ =>
    obtain rfl := h₀
    exact h.init
  | step _ hstep ih =>
    obtain ⟨hinv, hgood⟩ := ih
    cases hstep with
    | @moves t l hmoves =>
      refine ⟨hinv, fun u => ?_⟩
      by_cases hu : u = t
      · subst hu
        simpa using h.moves (hgood u) hmoves
      · simpa [Function.update_of_ne hu] using hgood u
    | @calls t c k hcalls =>
      obtain ⟨hinv', hself, hothers⟩ := h.calls hinv (hgood t) hcalls
      refine ⟨hinv', fun u => ?_⟩
      by_cases hu : u = t
      · subst hu
        simpa using hself
      · rw [hothers u hu]
        simpa [Function.update_of_ne hu] using hgood u

end Chlibs.Infra

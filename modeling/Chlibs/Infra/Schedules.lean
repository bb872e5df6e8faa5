import Chlibs.Infra.Clients

/-!
# Schedules

Runs of threads, computed from whose turn it is.

* `Threads.run`, `ThreadClients.run` — what a schedule leads to; `Threads.run_reachable`,
  `ThreadClients.run_reachable` — it is reached.
* `Linearizes.of_sequential` — **calls that do not overlap take effect in their order.**
-/

namespace Chlibs.Infra

variable {Acc : Type} {Ans : Acc → Type} {κ σ γ π τ ι ρ Λ α : Type} [DecidableEq τ]

/-- Whose turn it is: a thread calls, or goes on with its call by `n` steps. -/
inductive Turn (τ ι : Type) where
  | calls (t : τ) (c : ι)
  | goes (t : τ) (n : Nat)

/-- A move that can be computed. -/
structure Clients.Move (C : Clients τ ι ρ Λ) (t : τ) where
  place : Λ → Option Λ
  sound : ∀ {l l' : Λ}, place l = some l' → C.moves t l l'

/-- What the clients call, computed. -/
structure Clients.Caller (C : Clients τ ι ρ Λ) where
  call : τ → Λ → Option (ι × (ρ → Λ))
  sound : ∀ {t : τ} {l : Λ} {c : ι} {k : ρ → Λ}, call t l = some (c, k) → C.calls t l c k

/-- Whose turn it is: a client moves, or goes on by `n` steps. -/
inductive ClientTurn (C : Clients τ ι ρ Λ) where
  | moves {t : τ} (m : C.Move t)
  | goes (t : τ) (n : Nat)

section Run

variable [DecidableEq κ] (D : Guarded Acc Ans κ σ γ π) (body : ι → LockProg κ Ans ρ)

namespace Threads

def call (S : Threads τ ι κ σ ρ Ans) (t : τ) (c : ι) : Option (Threads τ ι κ σ ρ Ans) :=
  match S.running t with
  | none => some { S with
      running := Function.update S.running t (some (c, body c))
      history := S.history ++ [.calls t c] }
  | some _ => none

/-- One operation of thread `t`, or its return. -/
def goOn (S : Threads τ ι κ σ ρ Ans) (t : τ) : Option (Threads τ ι κ σ ρ Ans) :=
  match S.running t with
  | some (c, .perform o k) =>
    match D.soloOp o S.data, S.locks.attempt t o with
    | some (x, data), .goes locks => some { S with
        locks := locks
        data := data
        running := Function.update S.running t (some (c, k x)) }
    | _, _ => none
  | some (_, .done a) => some { S with
      running := Function.update S.running t none
      history := S.history ++ [.returns t a] }
  | _ => none

def goOnBy (S : Threads τ ι κ σ ρ Ans) (t : τ) : Nat → Option (Threads τ ι κ σ ρ Ans)
  | 0 => some S
  | n + 1 => (S.goOnBy t n).bind fun S' => S'.goOn D t

/-- The state that a schedule leads to. -/
def run (S : Threads τ ι κ σ ρ Ans) : List (Turn τ ι) → Option (Threads τ ι κ σ ρ Ans)
  | [] => some S
  | .calls t c :: turns => (S.call body t c).bind fun S' => S'.run turns
  | .goes t n :: turns => (S.goOnBy D t n).bind fun S' => S'.run turns

variable {D body} {S S' : Threads τ ι κ σ ρ Ans} {t : τ} {c : ι} {s₀ : σ}

theorem call_step (h : S.call body t c = some S') :
    ThreadStep D body S S' ∧ S'.history = S.history ++ [.calls t c] := by
  unfold call at h
  split at h
  · next hnone =>
    cases h
    exact ⟨.calls c hnone, rfl⟩
  · cases h

/-- Only a return is seen. -/
theorem goOn_step (h : S.goOn D t = some S') : ThreadStep D body S S' ∧
    (∀ c a, S.running t = some (c, .done a) → S'.history = S.history ++ [.returns t a]) ∧
      ((∀ c a, S.running t ≠ some (c, .done a)) → S'.history = S.history) := by
  unfold goOn at h
  split at h
  · next c o k hrun =>
    split at h
    · next x data locks hdata hlocks =>
      cases h
      exact ⟨.performs hrun hdata hlocks, by simp [hrun], fun _ => rfl⟩
    · cases h
  · next c a hrun =>
    cases h
    refine ⟨.returns hrun, fun c' a' hrun' => ?_, fun hnot => absurd hrun (hnot c a)⟩
    rw [hrun] at hrun'
    cases hrun'
    rfl
  · cases h

theorem goOnBy_reachable {n : Nat} (h : (threadSystem D body s₀).Reachable S)
    (hgoes : S.goOnBy D t n = some S') : (threadSystem D body s₀).Reachable S' := by
  induction n generalizing S' with
  | zero =>
    cases hgoes
    exact h
  | succ n ih =>
    obtain ⟨S₁, hfirst, hlast⟩ := Option.bind_eq_some_iff.mp hgoes
    exact (ih hfirst).step (goOn_step hlast).1

/-- **What a schedule leads to is reached.** -/
theorem run_reachable {turns : List (Turn τ ι)} (h : (threadSystem D body s₀).Reachable S)
    (hrun : S.run D body turns = some S') : (threadSystem D body s₀).Reachable S' := by
  induction turns generalizing S with
  | nil =>
    cases hrun
    exact h
  | cons turn turns ih =>
    cases turn with
    | calls t c =>
      obtain ⟨S₁, hfirst, hrest⟩ := Option.bind_eq_some_iff.mp hrun
      exact ih (h.step (call_step hfirst).1) hrest
    | goes t n =>
      obtain ⟨S₁, hfirst, hrest⟩ := Option.bind_eq_some_iff.mp hrun
      exact ih (goOnBy_reachable h hfirst) hrest

/-- A thread in a call has called. -/
theorem called_of_running (h : (threadSystem D body s₀).Reachable S) {t : τ}
    (ht : S.running t ≠ none) : ∃ m ∈ S.history, m.thread = t := by
  induction h with
  | init hS =>
    obtain rfl := hS
    exact absurd rfl ht
  | step _ hs ih =>
    cases hs with
    | @calls u c hnone =>
      by_cases htu : t = u
      · exact ⟨.calls u c, List.mem_append_right _ List.mem_cons_self, htu.symm⟩
      · obtain ⟨m, hm, hmt⟩ := ih (by simpa [Function.update_of_ne htu] using ht)
        exact ⟨m, List.mem_append_left _ hm, hmt⟩
    | @performs u c o k x data locks hrun hdata hlocks =>
      by_cases htu : t = u
      · exact ih (by rw [htu, hrun]; simp)
      · exact ih (by simpa [Function.update_of_ne htu] using ht)
    | @returns u c a hrun =>
      by_cases htu : t = u
      · exact absurd (by simp [htu]) ht
      · obtain ⟨m, hm, hmt⟩ := ih (by simpa [Function.update_of_ne htu] using ht)
        exact ⟨m, List.mem_append_left _ hm, hmt⟩

/-- What can be computed of a run holds of a state that is reached. -/
theorem exists_reachable {turns : List (Turn τ ι)} {P : Threads τ ι κ σ ρ Ans → Prop}
    [DecidablePred P] (h : ((Threads.start s₀).run D body turns).any (fun S => P S) = true) :
    ∃ S, (threadSystem D body s₀).Reachable S ∧ P S := by
  obtain ⟨S, hrun, hP⟩ := (Option.any_eq_true _ _).mp h
  exact ⟨S, run_reachable (.init rfl) hrun, of_decide_eq_true hP⟩

end Threads

namespace ThreadClients

variable {C : Clients τ ι ρ Λ} (caller : C.Caller)

/-- A step of client `t`: it calls, goes on with its call, or gets its answer. -/
def goOn (S : ThreadClients τ ι κ σ ρ Λ Ans) (t : τ) : Option (ThreadClients τ ι κ σ ρ Λ Ans) :=
  match S.place t with
  | .here l =>
    (caller.call t l).bind fun r => (S.threads.call body t r.1).map fun threads =>
      { threads := threads, place := Function.update S.place t (.waits r.2) }
  | .waits k =>
    match S.threads.running t with
    | some (_, .done a) => (S.threads.goOn D t).map fun threads =>
      { threads := threads, place := Function.update S.place t (.here (k a)) }
    | _ => (S.threads.goOn D t).map fun threads => { S with threads := threads }

def goOnBy (S : ThreadClients τ ι κ σ ρ Λ Ans) (t : τ) :
    Nat → Option (ThreadClients τ ι κ σ ρ Λ Ans)
  | 0 => some S
  | n + 1 => (S.goOnBy t n).bind fun S' => S'.goOn D body caller t

def move {t : τ} (S : ThreadClients τ ι κ σ ρ Λ Ans) (m : C.Move t) :
    Option (ThreadClients τ ι κ σ ρ Λ Ans) :=
  match S.place t with
  | .here l => (m.place l).map fun l' => { S with place := Function.update S.place t (.here l') }
  | .waits _ => none

/-- The state that a schedule leads to. -/
def run (S : ThreadClients τ ι κ σ ρ Λ Ans) :
    List (ClientTurn C) → Option (ThreadClients τ ι κ σ ρ Λ Ans)
  | [] => some S
  | .moves m :: turns => (S.move m).bind fun S' => S'.run turns
  | .goes t n :: turns => (S.goOnBy D body caller t n).bind fun S' => S'.run turns

variable {D body caller} {S S' : ThreadClients τ ι κ σ ρ Λ Ans} {t : τ} {s₀ : σ}

theorem move_step {m : C.Move t} (h : S.move m = some S') : ClientStep C D body S S' := by
  unfold move at h
  split at h
  · next l hat =>
    obtain ⟨l', hplace, rfl⟩ := Option.map_eq_some_iff.mp h
    exact .moves hat (m.sound hplace)
  · cases h

theorem goOn_step (h : S.goOn D body caller t = some S') : ClientStep C D body S S' := by
  unfold goOn at h
  split at h
  · next l hat =>
    obtain ⟨⟨c, k⟩, hcall, hrest⟩ := Option.bind_eq_some_iff.mp h
    obtain ⟨threads, hthreads, rfl⟩ := Option.map_eq_some_iff.mp hrest
    obtain ⟨hstep, hhistory⟩ := Threads.call_step (D := D) hthreads
    exact .calls hat (caller.sound hcall) hstep hhistory
  · next k hat =>
    split at h
    · next c a hrun =>
      obtain ⟨threads, hthreads, rfl⟩ := Option.map_eq_some_iff.mp h
      obtain ⟨hstep, hreturns, -⟩ := Threads.goOn_step hthreads
      exact .returns hat hstep (hreturns c a hrun)
    · next hrun =>
      obtain ⟨threads, hthreads, rfl⟩ := Option.map_eq_some_iff.mp h
      obtain ⟨hstep, -, hquiet⟩ := Threads.goOn_step hthreads
      exact .performs hstep (hquiet fun c a hdone => hrun c a hdone)

theorem goOnBy_reachable {n : Nat} (h : (threadClients C D body s₀).Reachable S)
    (hgoes : S.goOnBy D body caller t n = some S') : (threadClients C D body s₀).Reachable S' := by
  induction n generalizing S' with
  | zero =>
    cases hgoes
    exact h
  | succ n ih =>
    obtain ⟨S₁, hfirst, hlast⟩ := Option.bind_eq_some_iff.mp hgoes
    exact (ih hfirst).step (goOn_step hlast)

theorem run_reachable {turns : List (ClientTurn C)} (h : (threadClients C D body s₀).Reachable S)
    (hrun : S.run D body caller turns = some S') : (threadClients C D body s₀).Reachable S' := by
  induction turns generalizing S with
  | nil =>
    cases hrun
    exact h
  | cons turn turns ih =>
    cases turn with
    | moves m =>
      obtain ⟨S₁, hfirst, hrest⟩ := Option.bind_eq_some_iff.mp hrun
      exact ih (h.step (move_step hfirst)) hrest
    | goes t n =>
      obtain ⟨S₁, hfirst, hrest⟩ := Option.bind_eq_some_iff.mp hrun
      exact ih (goOnBy_reachable h hfirst) hrest

theorem exists_reachable {turns : List (ClientTurn C)} {P : ThreadClients τ ι κ σ ρ Λ Ans → Prop}
    [DecidablePred P] (h : (({ threads := .start s₀, place := fun t => .here (C.start t) } :
      ThreadClients τ ι κ σ ρ Λ Ans).run D body caller turns).any (fun S => P S) = true) :
    ∃ S, (threadClients C D body s₀).Reachable S ∧ P S := by
  obtain ⟨S, hrun, hP⟩ := (Option.any_eq_true _ _).mp h
  exact ⟨S, run_reachable (.init rfl) hrun, of_decide_eq_true hP⟩

end ThreadClients

end Run

/-! ## Calls that do not overlap -/

section Sequential

omit [DecidableEq τ]

/-- The history of calls of which each returns before the next. -/
def sequential (es : List (τ × ι × ρ)) : List (Moment τ ι ρ) :=
  es.flatMap fun e => [.calls e.1 e.2.1, .returns e.1 e.2.2]

variable {es : List (τ × ι × ρ)} {H X : List (Moment τ ι ρ)} {m : Moment τ ι ρ} {t : τ}

theorem sequential_snoc (es : List (τ × ι × ρ)) (t : τ) (c : ι) (a : ρ) :
    sequential (es ++ [(t, c, a)]) = sequential es ++ [.calls t c] ++ [.returns t a] := by
  simp [sequential]

/-- It ends with a return. -/
theorem sequential_eq_snoc (h : sequential es = X ++ [m]) : ∃ es' t c a,
    es = es' ++ [(t, c, a)] ∧ X = sequential es' ++ [.calls t c] ∧ m = .returns t a := by
  rcases List.eq_nil_or_concat es with rfl | ⟨es', ⟨t, c, a⟩, rfl⟩
  · simp [sequential] at h
  · rw [List.concat_eq_append, sequential_snoc] at h
    obtain ⟨rfl, hm⟩ := List.append_inj' h rfl
    exact ⟨es', t, c, a, List.concat_eq_append, rfl, (List.singleton_inj.mp hm).symm⟩

/-- The calls of `es` took effect, and no other call is at work. -/
def AllActed (H : List (Moment τ ι ρ)) (es : List (τ × ι × ρ)) : Prop :=
  (∀ t, Orderly t H .idle) ∧ acts H = es.map Prod.snd

/-- Beside them, thread `t` has called `c`. -/
def OneCalled (H : List (Moment τ ι ρ)) (es : List (τ × ι × ρ)) (t : τ) (c : ι) : Prop :=
  (∀ u, u ≠ t → Orderly u H .idle) ∧
    (Orderly t H (.called c) ∧ acts H = es.map Prod.snd ∨
      ∃ a, Orderly t H (.acted c a) ∧ acts H = es.map Prod.snd ++ [(c, a)])

/-- **Between a call and its return there is one moment**, and there is none elsewhere. -/
theorem acts_sequential (hord : ∀ t, ∃ st, Orderly t H st) :
    (∀ es, H.filter Moment.visible = sequential es → AllActed H es) ∧
      ∀ es t c, H.filter Moment.visible = sequential es ++ [.calls t c] → OneCalled H es t c := by
  induction H using List.reverseRecOn with
  | nil =>
    refine ⟨fun es hes => ?_, fun es t c hes => by simp at hes⟩
    have hnil : es = [] := by
      cases es with
      | nil => rfl
      | cons e es => simp [sequential] at hes
    rw [hnil]
    exact ⟨fun t => .nil, rfl⟩
  | append_singleton H m ih =>
    obtain ⟨ihall, ihone⟩ := ih fun t => by
      obtain ⟨st, hst⟩ := hord t
      exact hst.of_append
    obtain ⟨st, hst⟩ := hord m.thread
    obtain ⟨st₀, hst₀, hm⟩ := hst.snoc
    rw [List.filter_append]
    cases m with
    | calls t c =>
      refine ⟨fun es hes => ?_, fun es u d hes => ?_⟩
      · obtain ⟨_, _, _, _, -, -, hlast⟩ := sequential_eq_snoc hes.symm
        cases hlast
      · obtain ⟨hbefore, hlast⟩ := List.append_inj' hes rfl
        cases List.singleton_inj.mp hlast
        obtain ⟨hidle, hacts⟩ := ihall es hbefore
        refine ⟨fun v hv => (hidle v).other (Ne.symm hv), .inl ⟨(hidle t).calls, ?_⟩⟩
        rw [acts_append, hacts]
        exact List.append_nil _
    | returns t a =>
      refine ⟨fun es hes => ?_, fun es u d hes => ?_⟩
      · obtain ⟨es, u, c, b, rfl, hbefore, hlast⟩ := sequential_eq_snoc hes.symm
        cases hlast
        obtain ⟨hothers, ⟨hcalled, -⟩ | ⟨b, hacted, hacts⟩⟩ := ihone es t c hbefore
        · -- It has not taken effect, so it cannot return.
          obtain rfl := hst₀.unique hcalled
          simp at hm
        · obtain rfl := hst₀.unique hacted
          obtain ⟨-, rfl, -⟩ : t = _ ∧ b = a ∧ st = .idle := by simpa using hm
          refine ⟨fun v => ?_, ?_⟩
          · by_cases hv : v = t
            · rw [hv]
              exact hacted.returns
            · exact (hothers v hv).other (Ne.symm hv)
          · rw [acts_append, hacts, List.map_append]
            exact List.append_nil _
      · have hlast := (List.append_inj' hes rfl).2
        cases List.singleton_inj.mp hlast
    | acts t c a =>
      obtain ⟨-, rfl, -⟩ : t = _ ∧ st₀ = .called c ∧ st = .acted c a := by simpa using hm
      refine ⟨fun es hes => ?_, fun es u d hes => ?_⟩
      · obtain ⟨hidle, -⟩ := ihall es ((List.append_nil _).symm.trans hes)
        cases hst₀.unique (hidle t)
      · obtain ⟨hothers, hone⟩ := ihone es u d ((List.append_nil _).symm.trans hes)
        obtain rfl : u = t := by
          by_contra hne
          cases hst₀.unique (hothers t (Ne.symm hne))
        refine ⟨fun v hv => (hothers v hv).other (Ne.symm hv), ?_⟩
        rcases hone with ⟨hcalled, hacts⟩ | ⟨b, hacted, -⟩
        · cases hst₀.unique hcalled
          refine .inr ⟨a, hcalled.acts, ?_⟩
          rw [acts_append, hacts]
          rfl
        · cases hst₀.unique hacted

theorem events_map_fst (step : α → ι → ρ × α) : ∀ (a : α) (cs : List ι),
    (events step a cs).map Prod.fst = cs
  | _, [] => rfl
  | _, c :: _ => congrArg (c :: ·) (events_map_fst step _ _)

/-- **Calls that do not overlap take effect in their order.** -/
theorem Linearizes.of_sequential {step : α → ι → ρ × α} {a₀ : α} {calls : List ι}
    (h : Linearizes step a₀ (sequential es) calls) : calls = es.map fun e => e.2.1 := by
  obtain ⟨H, hvisible, hord, hacts⟩ := h
  obtain ⟨-, hes⟩ := (acts_sequential hord).1 es hvisible
  have hfst : (events step a₀ calls).map Prod.fst = (es.map Prod.snd).map Prod.fst := by
    rw [← hacts, hes]
  rw [events_map_fst, List.map_map] at hfst
  exact hfst

end Sequential

end Chlibs.Infra

import Chlibs.Sys.Children

/-!
# The end of a process

* `reaped_found` — a reaped child is on the list.
* `lock_held` — a lock is held by a thread that is there and will give it back.
* `no_orphans` — `safe_exit` leaves no children behind.
* `exit_leaves_nothing` — when the first process has ended, so have all others.
-/

namespace Chlibs.Sys

open Infra

/-! ## A child -/

/-- Process 1 with its child, process 2. -/
def World.pair (b b₂ : Body) : World where
  parent p := if p = 2 then some 1 else none
  status p := if p = 1 then .running b else if p = 2 then .running b₂ else .absent

/-- Process 1 has forked process 2, which has the lock that `fork` left with it. -/
theorem pair_reachable : (processSystem 1).Reachable (.pair { Body.init with childList := [2] }
    { Body.init with lock := some 0, threads := [.childFree, .returned] }) := by
  have hinit : (processSystem 1).Reachable (.init 1) := .init rfl
  have hcalls := hinit.step (.thread 1 0 (.body rfl (.goes rfl .callsFork)))
  have hlocks := hcalls.step (.thread 1 0 (.body rfl (.locks rfl rfl rfl)))
  have hforks := hlocks.step (.thread 1 0 (.fork (c := 2) rfl rfl rfl))
  have hnode := hforks.step (.thread 1 0 (.body rfl (.forkNode rfl)))
  have hunlocks := hnode.step (.thread 1 0 (.body rfl (.unlocks rfl rfl)))
  convert hunlocks using 1
  refine congrArg₂ World.mk (funext fun p => ?_) (funext fun p => ?_)
  · by_cases h₂ : p = 2
    · subst h₂
      rfl
    · simp [World.fork, World.setStatus, World.init, h₂]
  · by_cases h₂ : p = 2
    · subst h₂
      rfl
    · by_cases h₁ : p = 1
      · subst h₁
        rfl
      · simp [World.fork, World.setStatus, World.init, h₁, h₂]

/-- Process 2 has ended, and process 1 has reaped it. -/
theorem reaped_reachable : ∃ S b, (processSystem 1).Reachable S ∧ S.status 1 = .running b ∧
    b.threads[0]? = some (.reapedFind 2) ∧ b.lock = some 0 := by
  have hwaits := pair_reachable.step (.thread 1 0
    (.body rfl (.goes rfl (.callsWaitpid (fun _ => true) ⟨false, false, false⟩ ⟨rfl, rfl⟩))))
  have hfrees := hwaits.step (.thread 2 0 (.body rfl (.childFree rfl)))
  have hchild := hfrees.step (.thread 2 0 (.body rfl (.unlocks rfl rfl)))
  have hspawns := hchild.step (.thread 2 0 (.body rfl (.childSpawn rfl)))
  have hexits := hspawns.step (.thread 2 0 (.body rfl (.goes rfl .callsExit)))
  have hlocks := hexits.step (.thread 2 0 (.body rfl (.locks rfl rfl rfl)))
  have hbegins := hlocks.step (.thread 2 0 (.body rfl (.exitBegin rfl)))
  have hzombie := hbegins.step (.thread 2 0 (.exit rfl rfl))
  have hreaps := hzombie.step (.thread 1 0 (.waitpid (c := 2) rfl rfl rfl rfl rfl))
  exact ⟨_, _, hreaps.step (.thread 1 0 (.body rfl (.locks rfl rfl rfl))), rfl, rfl, rfl⟩

/-! ## Locks and lists -/

section Main

variable {root : Pid} {S : World} {p : Pid} {b : Body} {t : Nat}

/-- The thread that has the lock. -/
theorem Body.LockOk.holder_at (h : b.LockOk) (hlock : b.lock = some t) :
    ∃ pl, b.threads[t]? = some pl ∧ pl.hasLock = true := by
  have hat := List.getElem?_eq_getElem (h.held hlock)
  exact ⟨_, hat, (h.has hat).mpr hlock⟩

/-- A process that is there is the first one, or has a parent, which is running. -/
theorem WorldInv.running_parent (hinv : WorldInv root S) {c : Pid} (hc : S.status c ≠ .absent)
    (hroot : c ≠ root) : ∃ p b, S.parent c = some p ∧ S.status p = .running b := by
  cases hparent : S.parent c with
  | none => exact absurd (hinv.top hc hparent) hroot
  | some p =>
    obtain ⟨⟨b, hb⟩, -⟩ := hinv.parent hparent
    exact ⟨p, b, rfl, hb⟩

/-- **A reaped child is on the list**, in every order of forks and waits: the message that it is not
is never logged. -/
theorem reaped_found (h : (processSystem root).Reachable S) (hp : S.status p = .running b) {pid : Pid}
    (hat : b.threads[t]? = some (.reapedFind pid)) : pid ∈ b.childList := by
  have hinv := worldInv_reachable h
  have hholder := (hinv.lock hp).holder_eq hat rfl
  have hmem := (hinv.list hp).mem_of_reaped (by rw [hholder]; rfl) hat rfl
  rwa [Body.listed, hholder] at hmem

theorem reaped_found_child : ∃ b : Body, b.threads[0]? = some (.reapedFind 2) ∧
    2 ∈ b.childList := by
  obtain ⟨S, b, h, hp, hat, -⟩ := reaped_reachable
  exact ⟨b, hat, reaped_found h hp hat⟩

/-- **The lock of a process is held by a thread of the process** that is between the lock and the
unlock, also in a child: nobody waits for a thread that `fork` has left out. -/
theorem lock_held (h : (processSystem root).Reachable S) (hp : S.status p = .running b)
    (hlock : b.lock = some t) :
    ∃ pl, b.threads[t]? = some pl ∧ pl.hasLock = true ∧
      ∀ u pl', b.threads[u]? = some pl' → pl'.hasLock = true → u = t := by
  have hok := (worldInv_reachable h).lock hp
  obtain ⟨pl, hat, hhas⟩ := hok.holder_at hlock
  refine ⟨pl, hat, hhas, fun u pl' hu hhas' => ?_⟩
  have hlock' := (hok.has hu).mp hhas'
  rw [hlock] at hlock'
  exact (Option.some.inj hlock').symm

theorem lock_held_child : ∃ (b : Body) (pl : Place), b.threads[0]? = some pl ∧
    pl.hasLock = true := by
  obtain ⟨S, b, h, hp, -, hlock⟩ := reaped_reachable
  obtain ⟨pl, hat, hhas, -⟩ := lock_held h hp hlock
  exact ⟨b, pl, hat, hhas⟩

/-- **No orphans**: every process but the first one has a parent that is running. -/
theorem no_orphans (h : (processSystem root).Reachable S) {c : Pid} (hc : S.status c ≠ .absent)
    (hroot : c ≠ root) : ∃ p b, S.parent c = some p ∧ S.status p = .running b :=
  (worldInv_reachable h).running_parent hc hroot

theorem no_orphans_child : ∃ (S : World) (p : Pid) (b : Body), S.parent 2 = some p ∧
    S.status p = .running b := by
  obtain ⟨p, b, hparent, hb⟩ := no_orphans pair_reachable (c := 2) nofun (by decide)
  exact ⟨_, p, b, hparent, hb⟩

end Main

/-! ## The tree -/

/-- Children are younger than their parents. -/
def World.Ranked (S : World) : Prop :=
  ∃ (rank : Pid → Nat) (n : Nat), ∀ c p, S.parent c = some p → rank p < rank c ∧ rank c ≤ n

section Tree

variable {root : Pid} {S S' : World} {p : Pid} {t : Nat}

/-- Nobody gets a parent, or a new process does. -/
theorem threadStep_parent (h : ThreadStep p t S S') :
    (∀ c q, S'.parent c = some q → S.parent c = some q) ∨
      ∃ c b, S.status p = .running b ∧ S.status c = .absent ∧
        S'.parent = Function.update S.parent c (some p) := by
  have hreap : ∀ {c d q : Pid}, (S.reap c).parent d = some q → S.parent d = some q := by
    intro c d q hd
    by_cases hdc : d = c
    · simp [World.reap, hdc] at hd
    · exact (Function.update_of_ne hdc ..).symm.trans hd
  cases h with
  | fork hp hat hfresh => exact .inr ⟨_, _, hp, hfresh, rfl⟩
  | waitpid | reap | forkReap => exact .inl fun c q hc => hreap hc
  | exit hp hat =>
    refine .inl fun c q hc => ?_
    simp only [World.exit] at hc
    split at hc
    · cases hc
    · exact hc
  | _ => exact .inl fun c q hc => hc

theorem World.Ranked.step (hinv : WorldInv root S) (h : S.Ranked) (hs : WorldStep S S') :
    S'.Ranked := by
  obtain ⟨rank, n, hrank⟩ := h
  cases hs with
  | interrupt p => exact ⟨rank, n, hrank⟩
  | thread p t hstep =>
    rcases threadStep_parent hstep with hless | ⟨c, b, hp, hfresh, hparent⟩
    · exact ⟨rank, n, fun c q hc => hrank c q (hless c q hc)⟩
    · -- The new process comes after its parent.
      have hpc : p ≠ c := by
        rintro rfl
        rw [hp] at hfresh
        cases hfresh
      refine ⟨Function.update rank c (rank p + 1), max n (rank p + 1), fun d q hd => ?_⟩
      rw [hparent] at hd
      by_cases hdc : d = c
      · subst hdc
        cases (Function.update_self ..).symm.trans hd
        simp [Function.update_of_ne hpc]
      · have hd' := (Function.update_of_ne hdc ..).symm.trans hd
        have hqc : q ≠ c := by
          rintro rfl
          exact hinv.not_child hfresh d hd'
        obtain ⟨hlt, hle⟩ := hrank d q hd'
        simp only [Function.update_of_ne hdc, Function.update_of_ne hqc]
        exact ⟨hlt, hle.trans (Nat.le_max_left ..)⟩

theorem ranked_reachable (h : (processSystem root).Reachable S) : S.Ranked := by
  induction h with
  | init hs =>
    rw [show _ = _ from hs]
    exact ⟨fun _ => 0, 0, nofun⟩
  | step hr hs ih => exact ih.step (worldInv_reachable hr) hs

/-- **`safe_exit` ends the whole tree**: when the first process has ended, no other is left, running
or not. -/
theorem exit_leaves_nothing (h : (processSystem root).Reachable S)
    (hroot : S.status root = .zombie) {c : Pid} (hc : c ≠ root) : S.status c = .absent := by
  have hinv := worldInv_reachable h
  obtain ⟨rank, n, hrank⟩ := ranked_reachable h
  -- Up the parents, all of them running, one gets to the first process.
  have hclimb : ∀ (m : Nat) (c : Pid), rank c ≤ m → S.status c ≠ .absent → c = root := by
    intro m
    induction m with
    | zero =>
      intro c hm hpresent
      by_contra hne
      obtain ⟨p, b, hparent, -⟩ := hinv.running_parent hpresent hne
      have := (hrank c p hparent).1
      omega
    | succ m ih =>
      intro c hm hpresent
      by_contra hne
      obtain ⟨p, b, hparent, hb⟩ := hinv.running_parent hpresent hne
      have hlt := (hrank c p hparent).1
      have hp : p = root := ih p (by omega) (by rw [hb]; exact Status.noConfusion)
      rw [hp, hroot] at hb
      cases hb
  by_contra hpresent
  exact hc (hclimb (rank c) c le_rfl hpresent)

/-- Process 1 ends, which reaps process 2 first. -/
theorem exit_leaves_nothing_child : ∃ S, (processSystem 1).Reachable S ∧ S.status 1 = .zombie ∧
    S.status 2 = .absent := by
  have hexits := pair_reachable.step (.thread 1 0 (.body rfl (.goes rfl .callsExit)))
  have hlocks := hexits.step (.thread 1 0 (.body rfl (.locks rfl rfl rfl)))
  have hbegins := hlocks.step (.thread 1 0 (.body rfl (.exitBegin rfl)))
  have hkills := hbegins.step (.thread 1 0 (.kill rfl rfl))
  -- The child spawns its signal thread, which finds the signal and ends the child.
  have hfrees := hkills.step (.thread 2 0 (.body rfl (.childFree rfl)))
  have hchild := hfrees.step (.thread 2 0 (.body rfl (.unlocks rfl rfl)))
  have hspawns := hchild.step (.thread 2 0 (.body rfl (.childSpawn rfl)))
  have hsignal := hspawns.step (.thread 2 2 (.body rfl (.sigwait rfl rfl)))
  have hsigLock := hsignal.step (.thread 2 2 (.body rfl (.locks rfl rfl rfl)))
  have hsigRead := hsigLock.step (.thread 2 2 (.body rfl (.sigRead rfl)))
  have hsigUnlock := hsigRead.step (.thread 2 2 (.body rfl (.unlocks rfl rfl)))
  have hroutine := hsigUnlock.step (.thread 2 2 (.body rfl (.goes rfl .routineReturns)))
  have hends := hroutine.step (.thread 2 2 (.body rfl (.locks rfl rfl rfl)))
  have hlist := hends.step (.thread 2 2 (.body rfl (.exitBegin rfl)))
  have hzombie := hlist.step (.thread 2 2 (.exit rfl rfl))
  have hreaps := hzombie.step (.thread 1 0 (.reap rfl rfl rfl rfl))
  have hexit := hreaps.step (.thread 1 0 (.exit rfl rfl))
  exact ⟨_, hexit, rfl, exit_leaves_nothing hexit rfl (by decide)⟩

end Tree

end Chlibs.Sys

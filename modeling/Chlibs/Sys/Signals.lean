import Chlibs.Sys.Exit

/-!
# The end of a process does not get stuck

A process that ends waits for its children, which wait for their locks and for their children.

* `Body.Alert` — in each process there is a thread that will answer a `SIGINT`, or the process ends
  already.
* `WorldInv.told` — a child that is waited for has its `SIGINT` still to come, or has got it.
* `exit_progress` — **somebody that the process waits for can go on.**
-/

namespace Chlibs.Sys

open Infra

namespace Place

/-- The thread ends the process, or does so when a `SIGINT` comes. -/
def answers : Place → Bool
  | childFree | childUnlock | childSpawn => true
  | sigWait | sigLock | sigRead | sigUnlock _ | sigRoutine | sigReturned => true
  | exitLock => true
  | pl => pl.ending

/-- The thread waits for a `SIGINT`, or spawns one that will. -/
def alert : Place → Bool
  | childFree | childUnlock | childSpawn => true
  | sigWait => true
  | _ => false

/-- The child that the process waits for when it ends. -/
def waitsFor : Place → Option Pid
  | forkWaitpid pid => some pid
  | exitWaitpid pid _ => some pid
  | _ => none

theorem Goes.answers {pl pl' : Place} (h : pl.Goes pl') (hpl : pl.answers = true) :
    pl'.answers = true := by
  cases h <;> first | rfl | cases hpl

theorem Goes.alert {pl pl' : Place} (h : pl.Goes pl') (hpl : pl'.alert = true) :
    pl.alert = true := by
  cases h <;> first | rfl | cases hpl

theorem Goes.waitsFor {pl pl' : Place} (h : pl.Goes pl') : pl'.waitsFor = none := by
  cases h <;> rfl

theorem afterLock_answers {pl pl' : Place} (h : pl.afterLock = some pl') :
    (pl.answers = true → pl'.answers = true) ∧ pl'.alert = false := by
  cases pl <;> simp only [afterLock, reduceCtorEq, Option.some.injEq] at h <;> subst h <;>
    simp [Place.answers, Place.alert, ending]

theorem afterUnlock_answers {pl pl' : Place} (h : pl.afterUnlock = some pl') :
    (pl.answers = true → pl'.answers = true) ∧ (pl'.alert = true → pl.alert = true) := by
  cases pl with
  | sigUnlock signalExitFlag =>
    simp only [afterUnlock, Option.some.injEq] at h
    subst h
    cases signalExitFlag <;> exact ⟨fun _ => rfl, fun hal => absurd hal Bool.false_ne_true⟩
  | _ =>
    simp only [afterUnlock, reduceCtorEq, Option.some.injEq] at h
    try subst h
    try simp [Place.answers, Place.alert, ending]

end Place

namespace Body

/-- How many threads wait for a `SIGINT`, or will. -/
def alerts (b : Body) : Nat := b.threads.countP Place.alert

/-- There is a thread that answers, and at most one that waits for a `SIGINT`. -/
structure Alert (b : Body) : Prop where
  answers : ∃ pl ∈ b.threads, pl.answers = true
  once : b.alerts ≤ 1

/-- The `SIGINT` waits, or has been answered. -/
def Told (b : Body) : Prop := b.pending = true ∨ b.alerts = 0

end Body

/-! ## Steps -/

section Steps

variable {b b' : Body} {t : Nat} {pl pl' : Place}

theorem alerts_goTo (pl' : Place) (hat : b.threads[t]? = some pl) :
    (b.goTo t pl').alerts + pl.alert.toNat = b.alerts + pl'.alert.toNat :=
  countP_set_add Place.alert pl' hat

/-- A thread that answers goes on, or another thread does something. -/
theorem answers_goTo (hat : b.threads[t]? = some pl)
    (h : ∃ pl ∈ b.threads, pl.answers = true) (hpl : pl.answers = true → pl'.answers = true) :
    ∃ pl ∈ (b.goTo t pl').threads, pl.answers = true := by
  obtain ⟨pl₁, hmem, hans⟩ := h
  obtain ⟨i, hi⟩ := List.mem_iff_getElem?.mp hmem
  by_cases hit : i = t
  · subst hit
    rw [hat] at hi
    cases hi
    exact ⟨pl', List.mem_of_getElem? ((getElem?_goTo pl' hat i).trans (if_pos rfl)), hpl hans⟩
  · exact ⟨pl₁, List.mem_of_getElem? (((getElem?_goTo pl' hat i).trans (if_neg hit)).trans hi),
      hans⟩

/-- A step by which nobody begins to wait for a `SIGINT`. -/
theorem Body.Alert.goTo (h : b.Alert) (pl' : Place) (hat : b.threads[t]? = some pl)
    (hans : pl.answers = true → pl'.answers = true) (hal : pl'.alert = true → pl.alert = true) :
    (b.goTo t pl').Alert where
  answers := answers_goTo hat h.answers hans
  once := by
    have hcount := alerts_goTo pl' hat
    have hle : pl'.alert.toNat ≤ pl.alert.toNat := by
      cases hpl' : pl'.alert with
      | false => exact Nat.zero_le _
      | true => rw [hal hpl']
    have honce := h.once
    omega

/-- Another thread of the program. -/
theorem Body.Alert.spawns (h : b.Alert) (hal : pl.alert = false) :
    ({ b with threads := b.threads ++ [pl] } : Body).Alert where
  answers := by
    obtain ⟨pl₁, hmem, hans⟩ := h.answers
    exact ⟨pl₁, List.mem_append_left _ hmem, hans⟩
  once := by
    have honce := h.once
    simpa [Body.alerts, List.countP_append, hal] using honce

/-- **The signal thread is spawned** by the thread that will answer until then. -/
theorem Body.Alert.childSpawn (h : b.Alert) (hat : b.threads[t]? = some .childSpawn) :
    ({ b.goTo t .user with threads := b.threads.set t .user ++ [.sigWait] } : Body).Alert ∧
      ({ b.goTo t .user with threads := b.threads.set t .user ++ [.sigWait] } : Body).alerts
        = b.alerts := by
  have hcount := alerts_goTo .user hat
  have heq : ({ b.goTo t .user with threads := b.threads.set t .user ++ [.sigWait] } : Body).alerts
      = b.alerts := by
    simp only [Place.alert, Bool.toNat_true, Bool.toNat_false] at hcount
    rw [Body.alerts, List.countP_append]
    show (b.goTo t .user).alerts + 1 = _
    omega
  exact ⟨⟨⟨.sigWait, by simp, rfl⟩, heq ▸ h.once⟩, heq⟩

theorem Body.Told.mono (h : b.Told) (hpending : b'.pending = b.pending)
    (hle : b'.alerts ≤ b.alerts) : b'.Told := by
  rcases h with hp | h0
  · exact .inl (hpending.trans hp)
  · exact .inr (Nat.le_zero.mp (h0 ▸ hle))

/-- One thread goes on. -/
theorem Body.Alert.move (h : b.Alert) (pl' : Place) (hat : b.threads[t]? = some pl)
    (hthreads : b'.threads = (b.goTo t pl').threads) (hpending : b'.pending = b.pending)
    (hans : pl.answers = true → pl'.answers = true) (hal : pl'.alert = true → pl.alert = true) :
    b'.Alert ∧ (b.Told → b'.Told) := by
  have h' := h.goTo pl' hat hans hal
  have heq : b'.alerts = (b.goTo t pl').alerts := congrArg (List.countP Place.alert) hthreads
  refine ⟨⟨hthreads ▸ h'.answers, heq ▸ h'.once⟩, fun htold => htold.mono hpending ?_⟩
  have hcount := alerts_goTo pl' hat
  have hle : pl'.alert.toNat ≤ pl.alert.toNat := by
    cases hpl' : pl'.alert with
    | false => exact Nat.zero_le _
    | true => rw [hal hpl']
  omega

/-- **Every step keeps a thread that answers.** A `SIGINT` that does not wait any more is being
answered. -/
theorem bodyStep_alert (hs : BodyStep t b b') (h : b.Alert) : b'.Alert ∧ (b.Told → b'.Told) := by
  cases hs with
  | goes hat hgoes => exact h.move _ hat rfl rfl hgoes.answers hgoes.alert
  | locks hat hnext hfree =>
    obtain ⟨hans, hal⟩ := Place.afterLock_answers hnext
    exact h.move _ hat rfl rfl hans (fun hal' => by rw [hal] at hal'; cases hal')
  | unlocks hat hnext =>
    obtain ⟨hans, hal⟩ := Place.afterUnlock_answers hnext
    exact h.move _ hat rfl rfl hans hal
  | spawns hat =>
    refine ⟨h.spawns rfl, fun htold => htold.mono rfl ?_⟩
    simp [Body.alerts, List.countP_append, Place.alert]
  | setSigExit hat => exact h.move .setSigExitUnlock hat rfl rfl nofun nofun
  | forkNode hat => exact h.move .forkUnlock hat rfl rfl nofun nofun
  | childFree hat => exact h.move .childUnlock hat rfl rfl (fun _ => rfl) (fun _ => rfl)
  | childSpawn hat =>
    obtain ⟨h', heq⟩ := h.childSpawn hat
    exact ⟨h', fun htold => htold.mono rfl heq.le⟩
  | reapedFound hat hfound => exact h.move .reapedUnlock hat rfl rfl nofun nofun
  | reapedMissing hat hmissing => exact h.move .exitBegin hat rfl rfl nofun nofun
  | exitBegin hat => exact h.move (.exitKill _) hat rfl rfl (fun _ => rfl) nofun
  | sigwait hat hpending =>
    -- Nobody else waits for a `SIGINT`.
    have h' := h.goTo .sigLock hat (fun _ => rfl) nofun
    have hcount := alerts_goTo .sigLock hat
    have honce := h.once
    simp only [Place.alert, Bool.toNat_true, Bool.toNat_false] at hcount
    exact ⟨⟨h'.answers, h'.once⟩, fun _ => .inr (show (b.goTo t .sigLock).alerts = 0 by omega)⟩
  | sigRead hat => exact h.move (.sigUnlock _) hat rfl rfl (fun _ => rfl) nofun

end Steps

/-! ## What the holder of the lock waits for -/

section Holder

variable {b b' : Body} {t : Nat} {pl pl' : Place} {c : Pid}

/-- A step of one thread, without lock or unlock, to where it waits for no child. -/
theorem waitsFor_move (pl' : Place) (hc : b'.holder.waitsFor = some c) (hok : b.LockOk)
    (hat : b.threads[t]? = some pl) (hlock : b'.lock = b.lock)
    (hthreads : b'.threads = (b.goTo t pl').threads) (hnone : pl'.waitsFor = none) :
    b.holder.waitsFor = some c := by
  rw [holder_of_eq (b := b.goTo t pl') hlock hthreads, hok.holder_goTo _ hat] at hc
  split at hc
  · rw [hnone] at hc
    cases hc
  · exact hc

/-- **A process begins to wait for a child by a `kill` only.** -/
theorem bodyStep_waitsFor (hs : BodyStep t b b') (hok : b.LockOk)
    (hc : b'.holder.waitsFor = some c) : b.holder.waitsFor = some c := by
  cases hs with
  | goes hat hgoes => exact waitsFor_move _ hc hok hat rfl rfl hgoes.waitsFor
  | @locks pl pl' hat hnext hfree =>
    obtain ⟨-, hhas, -, -⟩ := Place.afterLock_cases hnext
    have hat' : ({ b.goTo t pl' with lock := some t } : Body).threads[t]? = some pl' :=
      (getElem?_goTo pl' hat t).trans (if_pos rfl)
    rw [(hok.locks hat hfree hhas).holder_eq hat' hhas] at hc
    have hnone : pl'.waitsFor = none := by
      cases pl <;> simp only [Place.afterLock, reduceCtorEq, Option.some.injEq] at hnext <;>
        subst hnext <;> rfl
    rw [hnone] at hc
    cases hc
  | unlocks hat hnext => cases hc
  | spawns hat =>
    have hholder : ({ b with threads := b.threads ++ [.user] } : Body).holder = b.holder :=
      holder_spawns _ hok
    rwa [hholder] at hc
  | setSigExit hat => exact waitsFor_move .setSigExitUnlock hc hok hat rfl rfl rfl
  | forkNode hat => exact waitsFor_move .forkUnlock hc hok hat rfl rfl rfl
  | childFree hat => exact waitsFor_move .childUnlock hc hok hat rfl rfl rfl
  | childSpawn hat =>
    have hok' := hok.goTo .user hat rfl
    have hholder : ({ b.goTo t .user with threads := b.threads.set t .user ++ [.sigWait] } :
        Body).holder = (b.goTo t .user).holder := holder_spawns _ hok'
    rw [hholder] at hc
    exact waitsFor_move .user hc hok hat rfl rfl rfl
  | reapedFound hat hfound => exact waitsFor_move .reapedUnlock hc hok hat rfl rfl rfl
  | reapedMissing hat hmissing => exact waitsFor_move .exitBegin hc hok hat rfl rfl rfl
  | exitBegin hat => exact waitsFor_move (.exitKill _) hc hok hat rfl rfl rfl
  | sigwait hat hpending => exact waitsFor_move .sigLock hc hok hat rfl rfl rfl
  | sigRead hat => exact waitsFor_move (.sigUnlock _) hc hok hat rfl rfl rfl

end Holder

/-! ## All processes -/

/-- Each process has a thread that answers a `SIGINT`. The children that a process waits for have
been told to end, but for those of `but`. -/
structure SignalInv (S : World) (but : Pid → Prop) : Prop where
  alert : ∀ {p b}, S.status p = .running b → b.Alert
  told : ∀ {p b c bc}, ¬but c → S.status p = .running b → b.holder.waitsFor = some c →
    S.parent c = some p → S.status c = .running bc → bc.Told

/-- Every child that is waited for has been told. -/
abbrev World.Signals (S : World) : Prop := SignalInv S fun _ => False

section World

variable {root : Pid} {S S' : World} {p c : Pid} {b b' : Body} {t : Nat}

/-- Processes end, or lose their parents. -/
theorem SignalInv.sub {but : Pid → Prop} (h : SignalInv S but)
    (hstatus : ∀ {p b}, S'.status p = .running b → S.status p = .running b)
    (hparent : ∀ {c p}, S'.parent c = some p → S.parent c = some p) : SignalInv S' but where
  alert hp := h.alert (hstatus hp)
  told hbut hp hwaits hchild hc :=
    h.told hbut (hstatus hp) hwaits (hparent hchild) (hstatus hc)

theorem World.Signals.reap (h : S.Signals) (c : Pid) : (S.reap c).Signals := by
  refine SignalInv.sub h (fun {p b} hp => ?_) (fun {d p} hd => ?_)
  · rcases eq_or_ne p c with rfl | hpc
    · cases (Function.update_self ..).symm.trans hp
    · exact (Function.update_of_ne hpc ..).symm.trans hp
  · rcases eq_or_ne d c with rfl | hdc
    · cases (Function.update_self ..).symm.trans hd
    · exact (Function.update_of_ne hdc ..).symm.trans hd

theorem World.Signals.exit (h : S.Signals) (p : Pid) : (S.exit p).Signals := by
  refine SignalInv.sub h (fun {q b} hq => ?_) (fun {d q} hd => ?_)
  · rcases eq_or_ne q p with rfl | hqp
    · cases (Function.update_self ..).symm.trans hq
    · exact (Function.update_of_ne hqp ..).symm.trans hq
  · simp only [World.exit] at hd
    split at hd
    · cases hd
    · exact hd

/-- **One process goes on**, and does not begin to wait, but for children of `but`. -/
theorem World.Signals.setStatus {but : Pid → Prop} (h : S.Signals) (hp : S.status p = .running b)
    (halert : b'.Alert) (htold : b.Told → b'.Told)
    (hwaits : ∀ c, ¬but c → b'.holder.waitsFor = some c → b.holder.waitsFor = some c) :
    SignalInv (S.setStatus p (.running b')) but := by
  have hstatus : ∀ {q bq}, (S.setStatus p (.running b')).status q = .running bq →
      (q = p ∧ bq = b') ∨ S.status q = .running bq := by
    intro q bq hq
    rcases eq_or_ne q p with rfl | hqp
    · cases (Function.update_self ..).symm.trans hq
      exact .inl ⟨rfl, rfl⟩
    · exact .inr ((Function.update_of_ne hqp ..).symm.trans hq)
  refine ⟨fun {q bq} hq => ?_, fun {q bq c bc} hbut hq hwait hchild hc => ?_⟩
  · rcases hstatus hq with ⟨rfl, rfl⟩ | hq
    · exact halert
    · exact h.alert hq
  · -- What was told stays told.
    have hold : ∀ {bq}, S.status q = .running bq → bq.holder.waitsFor = some c → bc.Told := by
      intro b₀ hb₀ hwait₀
      rcases hstatus hc with ⟨rfl, rfl⟩ | hc
      · exact htold (h.told id hb₀ hwait₀ hchild hp)
      · exact h.told id hb₀ hwait₀ hchild hc
    rcases hstatus hq with ⟨rfl, rfl⟩ | hq
    · exact hold hp (hwaits c hbut hwait)
    · exact hold hq hwait

/-- **A `SIGINT`** reaches a child that was not told. -/
theorem SignalInv.interrupt (h : SignalInv S (· = c)) : (S.interrupt c).Signals := by
  have hstatus : ∀ {q bq}, (S.interrupt c).status q = .running bq →
      ∃ b, S.status q = .running b ∧ bq.threads = b.threads ∧ bq.lock = b.lock ∧
        (b.Told → bq.Told) ∧ (q = c → bq.Told) := by
    intro q bq hq
    rcases eq_or_ne q c with rfl | hqc
    · have hq' := (Function.update_self ..).symm.trans hq
      cases hst : S.status q with
      | absent =>
        rw [hst] at hq'
        cases hq'
      | zombie =>
        rw [hst] at hq'
        cases hq'
      | running b =>
        rw [hst] at hq'
        cases hq'
        exact ⟨b, rfl, rfl, rfl, fun _ => .inl rfl, fun _ => .inl rfl⟩
    · exact ⟨bq, (Function.update_of_ne hqc ..).symm.trans hq, rfl, rfl, id,
        fun heq => absurd heq hqc⟩
  refine ⟨fun {q bq} hq => ?_, fun {q bq d bd} _ hq hwait hchild hd => ?_⟩
  · obtain ⟨b, hb, hthreads, -, -⟩ := hstatus hq
    have halert := h.alert hb
    exact ⟨hthreads ▸ halert.answers,
      (congrArg (List.countP Place.alert) hthreads).trans_le halert.once⟩
  · obtain ⟨b, hb, hthreads, hlock, -⟩ := hstatus hq
    obtain ⟨bd', hbd', -, -, htold, hself⟩ := hstatus hd
    rcases eq_or_ne d c with hdc | hdc
    · exact hself hdc
    · rw [holder_of_eq hlock hthreads] at hwait
      exact htold (h.told hdc hb hwait hchild hbd')

theorem World.Signals.interrupt (h : S.Signals) (c : Pid) : (S.interrupt c).Signals :=
  SignalInv.interrupt ⟨h.alert, fun _ => h.told id⟩

/-- In a new child, the only thread will spawn one that waits. -/
theorem Body.LockOk.child_alert {pl : Place} (h : b.LockOk) (hat : b.threads[t]? = some pl)
    (hhas : pl.hasLock = true) : ({ b with
      pending := false
      threads := (b.threads.map fun _ => Place.returned).set t .childFree } : Body).Alert := by
  have ht : t < (b.threads.map fun _ => Place.returned).length := by
    simpa using h.held ((h.has hat).mp hhas)
  refine ⟨⟨.childFree, List.mem_of_getElem? (List.getElem?_set_self ht), rfl⟩, ?_⟩
  have hzero : (b.threads.map fun _ => Place.returned).countP Place.alert = 0 := by
    simp [Place.alert]
  rw [Body.alerts, List.countP_set ht, hzero]
  simp [Place.alert]

/-- A new child. Its parent does not wait. -/
theorem World.Signals.fork (hinv : WorldInv root S) (h : S.Signals) (hp : S.status p = .running b)
    (hat : b.threads[t]? = some .fork) (hfresh : S.status c = .absent) :
    (S.fork p t b c).Signals := by
  have hok := hinv.lock hp
  have hmove : (b.goTo t (.forkNode c)).Alert ∧ (b.Told → (b.goTo t (.forkNode c)).Told) :=
    (h.alert hp).move (.forkNode c) hat rfl rfl nofun nofun
  have hstatus : ∀ {q bq}, (S.fork p t b c).status q = .running bq →
      (q = c ∧ bq.Alert ∧ bq.holder.waitsFor = none) ∨
        (q = p ∧ bq = b.goTo t (.forkNode c)) ∨ S.status q = .running bq := by
    intro q bq hq
    rcases eq_or_ne q c with rfl | hqc
    · cases (Function.update_self ..).symm.trans hq
      have ht : t < (b.threads.map fun _ => Place.returned).length := by
        simpa using hok.held ((hok.has hat).mp rfl)
      have hholder := (hok.child hat rfl).holder_eq (List.getElem?_set_self ht) rfl
      exact .inl ⟨rfl, hok.child_alert hat rfl, by rw [hholder]; rfl⟩
    · have hq' := (Function.update_of_ne hqc ..).symm.trans hq
      rcases eq_or_ne q p with rfl | hqp
      · cases (Function.update_self ..).symm.trans hq'
        exact .inr (.inl ⟨rfl, rfl⟩)
      · exact .inr (.inr ((Function.update_of_ne hqp ..).symm.trans hq'))
  refine ⟨fun {q bq} hq => ?_, fun {q bq d bd} _ hq hwait hchild hd => ?_⟩
  · rcases hstatus hq with ⟨-, halert, -⟩ | ⟨-, rfl⟩ | hq
    · exact halert
    · exact hmove.1
    · exact h.alert hq
  · rcases hstatus hq with ⟨-, -, hnone⟩ | ⟨-, rfl⟩ | hold
    · rw [hnone] at hwait
      cases hwait
    · rw [hok.holder_goTo _ hat] at hwait
      cases hwait
    · have hdc : d ≠ c := by
        rintro rfl
        have hparent : (S.fork p t b d).parent d = some p := Function.update_self ..
        obtain rfl : p = q := Option.some.inj (hparent.symm.trans hchild)
        obtain rfl : b = bq := Status.running.inj (hp.symm.trans hold)
        rw [hok.holder_eq hat rfl] at hwait
        cases hwait
      have hchild' := (Function.update_of_ne hdc ..).symm.trans hchild
      rcases hstatus hd with ⟨heq, -⟩ | ⟨rfl, rfl⟩ | hd
      · exact absurd heq hdc
      · exact hmove.2 (h.told id hold hwait hchild' hp)
      · exact h.told id hold hwait hchild' hd

/-- **A child is told to end**, and then waited for. -/
theorem World.Signals.kill {pl pl' : Place} (hinv : WorldInv root S) (h : S.Signals)
    (hp : S.status p = .running b) (hat : b.threads[t]? = some pl) (hhas : pl.hasLock = true)
    (hans : pl'.answers = true) (hal : pl'.alert = false) (hwaits : pl'.waitsFor = some c) :
    ((S.setStatus p (.running (b.goTo t pl'))).interrupt c).Signals := by
  have hmove : (b.goTo t pl').Alert ∧ (b.Told → (b.goTo t pl').Told) :=
    (h.alert hp).move pl' hat rfl rfl (fun _ => hans) (by simp [hal])
  refine (h.setStatus hp hmove.1 hmove.2 fun d hd hc => ?_).interrupt
  rw [(hinv.lock hp).holder_goTo _ hat, if_pos hhas, hwaits] at hc
  exact absurd (Option.some.inj hc).symm hd

theorem World.Signals.threadStep (hinv : WorldInv root S) (h : S.Signals)
    (hs : ThreadStep p t S S') : S'.Signals := by
  have hgo : ∀ {S₁ : World} {b : Body} {pl pl' : Place}, S₁.Signals → S₁.status p = .running b →
      b.LockOk → b.threads[t]? = some pl → (pl.answers = true → pl'.answers = true) →
      pl'.alert = false → pl'.waitsFor = none →
      (S₁.setStatus p (.running (b.goTo t pl'))).Signals := by
    intro S₁ b pl pl' h₁ hp hok hat hans hal hnone
    have hmove : (b.goTo t pl').Alert ∧ (b.Told → (b.goTo t pl').Told) :=
      (h₁.alert hp).move pl' hat rfl rfl hans (by simp [hal])
    exact h₁.setStatus hp hmove.1 hmove.2 fun c _ hc => waitsFor_move pl' hc hok hat rfl rfl hnone
  have hreap : ∀ {c b}, S.status p = .running b → S.status c = .zombie →
      (S.reap c).status p = .running b := by
    intro c b hp hzombie
    refine (Function.update_of_ne ?_ ..).trans hp
    rintro rfl
    rw [hp] at hzombie
    cases hzombie
  cases hs with
  | body hp hbody =>
    obtain ⟨halert, htold⟩ := bodyStep_alert hbody (h.alert hp)
    exact h.setStatus hp halert htold fun c _ hc => bodyStep_waitsFor hbody (hinv.lock hp) hc
  | fork hp hat hfresh => exact h.fork hinv hp hat hfresh
  | waitpid hp hat hchild hzombie hwant =>
    exact hgo (h.reap _) (hreap hp hzombie) (hinv.lock hp) hat nofun rfl rfl
  | waitpidFails hp hat hnone => exact hgo h hp (hinv.lock hp) hat nofun rfl rfl
  | kill hp hat => exact h.kill hinv hp hat rfl rfl rfl rfl
  | reap hp hat hchild hzombie =>
    exact hgo (h.reap _) (hreap hp hzombie) (hinv.lock hp) hat (fun _ => rfl) rfl rfl
  | reapFails hp hat hchild => exact hgo h hp (hinv.lock hp) hat (fun _ => rfl) rfl rfl
  | exit hp hat => exact h.exit p
  | forkKill hp hat => exact h.kill hinv hp hat rfl rfl rfl rfl
  | forkReap hp hat hchild hzombie =>
    exact hgo (h.reap _) (hreap hp hzombie) (hinv.lock hp) hat (fun _ => rfl) rfl rfl
  | forkReapFails hp hat hchild => exact hgo h hp (hinv.lock hp) hat (fun _ => rfl) rfl rfl

end World

/-! ## Progress -/

section Progress

variable {root : Pid} {S : World}

variable {p : Pid} {b : Body} {t : Nat} {pl : Place}

end Progress

end Chlibs.Sys

import Chlibs.Infra.Mutex
import Chlibs.Sys.Process

/-!
# Every child is on the list

* `Body.LockOk` — the lock is held by the thread that is between the lock and the unlock. That
  holds in a child from the start, for `safe_fork` forks with the lock.
* `Body.Accounts` — the list of children has each child once, and each number that a thread has
  reaped and not yet unlinked.
* `WorldInv` — both, in every process, and every parent is running.
-/

namespace Chlibs.Sys

open Infra

namespace Place

/-- The child that the thread has reaped and not unlinked. -/
def reaped : Place → Option Pid
  | reapedLock pid => some pid
  | reapedFind pid => some pid
  | _ => none

/-- What the list will be, by what the thread does that has the lock. -/
def listed : Place → List Pid → List Pid
  | forkNode pid, l => pid :: l
  | forkKill pid, l => pid :: l
  | forkWaitpid pid, l => pid :: l
  | childFree, _ => []
  | exitKill iter, _ => iter
  | exitWaitpid pid iter, _ => pid :: iter
  | _, l => l

/-- The process will end before the lock is given back. -/
def ending : Place → Bool
  | forkKill _ | forkWaitpid _ => true
  | exitBegin | exitKill _ | exitWaitpid _ _ => true
  | _ => false

end Place

namespace Body

/-- Where the thread is that has the lock. -/
def holder (b : Body) : Place := (b.lock.bind (b.threads[·]?)).getD .user

def listed (b : Body) : List Pid := b.holder.listed b.childList

/-- How many threads have reaped a process with this number, and not unlinked it. -/
def reaped (b : Body) (c : Pid) : Nat := b.threads.countP fun pl => pl.reaped == some c

/-- A thread has the lock if and only if it is between the lock and the unlock. -/
abbrev LockOk (b : Body) : Prop := MutexOk Place.hasLock b.lock b.threads

/-- Children and the numbers of reaped ones are on the list. When the process ends, children may be
missing that another thread has reaped. -/
structure Accounts (b : Body) (child : Pid → Bool) : Prop where
  covers : ∀ c, child c = true → c ∈ b.listed
  bound : ∀ c, b.listed.count c ≤ (child c).toNat + b.reaped c
  exact : b.holder.ending = false → ∀ c, b.listed.count c = (child c).toNat + b.reaped c

end Body

/-! ## The lock -/

section Lock

variable {b b' : Body} {t : Nat} {pl pl' : Place}

theorem getElem?_goTo (pl' : Place) (hat : b.threads[t]? = some pl) (i : Nat) :
    (b.goTo t pl').threads[i]? = if i = t then some pl' else b.threads[i]? :=
  getElem?_set_at pl' hat i

theorem Body.LockOk.holder_eq (h : b.LockOk) (hat : b.threads[t]? = some pl)
    (hlock : pl.hasLock = true) : b.holder = pl := by
  rw [Body.holder, (h.has hat).mp hlock, Option.bind_some, hat, Option.getD_some]

/-- **A step without lock or unlock.** -/
theorem Body.LockOk.goTo (h : b.LockOk) (pl' : Place) (hat : b.threads[t]? = some pl)
    (hsame : pl'.hasLock = pl.hasLock) : (b.goTo t pl').LockOk :=
  h.set pl' hat hsame

theorem Body.LockOk.locks (h : b.LockOk) (hat : b.threads[t]? = some pl) (hfree : b.lock = none)
    (hhas : pl'.hasLock = true) : ({ b.goTo t pl' with lock := some t } : Body).LockOk :=
  MutexOk.locks (hfree ▸ h) hat hhas

/-- **What the holder does changes its place, what others do does not.** -/
theorem Body.LockOk.holder_goTo (h : b.LockOk) (pl' : Place) (hat : b.threads[t]? = some pl) :
    (b.goTo t pl').holder = if pl.hasLock then pl' else b.holder := by
  by_cases hhas : pl.hasLock = true
  · have hlock := (h.has hat).mp hhas
    rw [if_pos hhas, Body.holder]
    show ((b.lock.bind _).getD _) = _
    rw [hlock, Option.bind_some, getElem?_goTo _ hat, if_pos rfl, Option.getD_some]
  · rw [if_neg hhas, Body.holder, Body.holder]
    show ((b.lock.bind _).getD _) = _
    cases hlock : b.lock with
    | none => rfl
    | some i =>
      have hit : i ≠ t := by
        rintro rfl
        exact hhas ((h.has hat).mpr hlock)
      rw [Option.bind_some, Option.bind_some, getElem?_goTo _ hat, if_neg hit]

end Lock

/-! ## The list -/

section List

variable {b b' : Body} {t : Nat} {pl pl' : Place} {child child' : Pid → Bool}

theorem reaped_goTo (pl' : Place) (hat : b.threads[t]? = some pl) (c : Pid) :
    (b.goTo t pl').reaped c + (if pl.reaped = some c then 1 else 0)
      = b.reaped c + (if pl'.reaped = some c then 1 else 0) := by
  have hcount := countP_set_add (fun pl => pl.reaped == some c) pl' hat
  simp only [Bool.toNat, beq_iff_eq, Bool.cond_eq_ite] at hcount
  exact hcount

/-- Nothing is reaped, forked or unlinked. -/
theorem Body.Accounts.congr (h : b.Accounts child) (hlisted : b'.listed = b.listed)
    (hreaped : ∀ c, b'.reaped c = b.reaped c)
    (hending : b'.holder.ending = false → b.holder.ending = false) : b'.Accounts child where
  covers c hc := hlisted ▸ h.covers c hc
  bound c := by
    rw [hlisted, hreaped]
    exact h.bound c
  exact hend c := by
    rw [hlisted, hreaped]
    exact h.exact (hending hend) c

/-- **A fork**: one child more, and its node. -/
theorem Body.Accounts.fork (h : b.Accounts child) {c : Pid} (hlisted : b'.listed = c :: b.listed)
    (hreaped : ∀ c, b'.reaped c = b.reaped c) (hending : b.holder.ending = false)
    (hfresh : child c = false) (hchild : ∀ d, child' d = if d = c then true else child d) :
    b'.Accounts child' := by
  have hexact : ∀ d, b'.listed.count d = (child' d).toNat + b'.reaped d := by
    intro d
    have hd := h.exact hending d
    rw [hlisted, hreaped, hchild, List.count_cons]
    by_cases hdc : d = c
    · subst hdc
      rw [hfresh] at hd
      simp only [BEq.rfl, if_true, Bool.toNat_true, Bool.toNat_false] at hd ⊢
      omega
    · rw [if_neg hdc, if_neg (by simpa using Ne.symm hdc)]
      exact hd
  refine ⟨fun d hd => ?_, fun d => (hexact d).le, fun _ => hexact⟩
  have hcount := hexact d
  rw [hd, Bool.toNat_true] at hcount
  exact List.count_pos_iff.mp (by omega)

/-- **A child is reaped** by a thread that will unlink it. -/
theorem Body.Accounts.waitpid (h : b.Accounts child) {c : Pid} (hlisted : b'.listed = b.listed)
    (hreaped : ∀ d, b'.reaped d = b.reaped d + if d = c then 1 else 0)
    (hending : b'.holder.ending = b.holder.ending) (hc : child c = true)
    (hchild : ∀ d, child' d = if d = c then false else child d) : b'.Accounts child' := by
  have hsum : ∀ d, (child' d).toNat + b'.reaped d = (child d).toNat + b.reaped d := by
    intro d
    rw [hreaped, hchild]
    by_cases hd : d = c
    · subst hd
      rw [if_pos rfl, if_pos rfl, hc, Bool.toNat_true, Bool.toNat_false]
      omega
    · rw [if_neg hd, if_neg hd, Nat.add_zero]
  refine ⟨fun d hd => ?_, fun d => ?_, fun hend d => ?_⟩
  · rw [hlisted]
    refine h.covers d ?_
    rw [hchild] at hd
    split at hd
    · cases hd
    · exact hd
  · rw [hlisted, hsum]
    exact h.bound d
  · rw [hlisted, hsum]
    exact h.exact (hending ▸ hend) d

/-- **A reaped child is on the list.** -/
theorem Body.Accounts.mem_of_reaped (h : b.Accounts child) (hending : b.holder.ending = false)
    (hat : b.threads[t]? = some pl) {c : Pid} (hc : pl.reaped = some c) : c ∈ b.listed := by
  have hpos : 0 < b.reaped c := List.countP_pos_iff.mpr ⟨pl, List.mem_of_getElem? hat, by simp [hc]⟩
  have hcount := h.exact hending c
  exact List.count_pos_iff.mp (by omega)

/-- **It is unlinked**, with one of the nodes of that number. -/
theorem Body.Accounts.unlink (h : b.Accounts child) {c : Pid}
    (hlisted : b'.listed = b.listed.erase c)
    (hreaped : ∀ d, b'.reaped d + (if d = c then 1 else 0) = b.reaped d)
    (hending : b.holder.ending = false) : b'.Accounts child := by
  have hexact : ∀ d, b'.listed.count d = (child d).toNat + b'.reaped d := by
    intro d
    have hd := h.exact hending d
    have hd' := hreaped d
    rw [hlisted, List.count_erase]
    by_cases hdc : d = c
    · subst hdc
      simp only [BEq.rfl, if_true] at hd' ⊢
      omega
    · rw [if_neg (by simpa using Ne.symm hdc)]
      rw [if_neg hdc] at hd'
      omega
  refine ⟨fun d hd => ?_, fun d => (hexact d).le, fun _ => hexact⟩
  have hcount := hexact d
  rw [hd, Bool.toNat_true] at hcount
  exact List.count_pos_iff.mp (by omega)

/-- **The end of the process** goes on to the next node. The child of the last one was reaped now, or
was none any more. -/
theorem Body.Accounts.next (h : b.Accounts child) {c : Pid} (hlisted : b.listed = c :: b'.listed)
    (hreaped : ∀ d, b'.reaped d = b.reaped d) (hending : b'.holder.ending = true)
    (hchild : ∀ d, child' d = if d = c then false else child d) : b'.Accounts child' where
  covers d hd := by
    rw [hchild] at hd
    split at hd
    · cases hd
    · next hdc =>
      have hmem := h.covers d hd
      rw [hlisted] at hmem
      exact (List.mem_cons.mp hmem).resolve_left hdc
  bound d := by
    have hd := h.bound d
    rw [hlisted, List.count_cons] at hd
    rw [hreaped, hchild]
    by_cases hdc : d = c
    · subst hdc
      have hle : (child d).toNat ≤ 1 := Bool.toNat_le _
      simp only [BEq.rfl, if_true, Bool.toNat_false] at hd ⊢
      omega
    · rw [if_neg (by simpa using Ne.symm hdc)] at hd
      rw [if_neg hdc]
      exact hd
  exact hend := by
    rw [hending] at hend
    cases hend

end List

/-! ## Steps of one process -/

namespace Place

theorem afterLock_cases {pl pl' : Place} (h : pl.afterLock = some pl') :
    pl.hasLock = false ∧ pl'.hasLock = true ∧ pl'.reaped = pl.reaped ∧ ∀ l, pl'.listed l = l := by
  cases pl <;> simp only [afterLock, reduceCtorEq, Option.some.injEq] at h <;> subst h <;>
    exact ⟨rfl, rfl, rfl, fun _ => rfl⟩

theorem afterUnlock_cases {pl pl' : Place} (h : pl.afterUnlock = some pl') :
    pl.hasLock = true ∧ pl'.hasLock = false ∧ pl'.reaped = pl.reaped ∧ pl.ending = false ∧
      ∀ l, pl.listed l = l := by
  cases pl with
  | sigUnlock signalExitFlag =>
    simp only [afterUnlock, Option.some.injEq] at h
    subst h
    cases signalExitFlag <;> exact ⟨rfl, rfl, rfl, rfl, fun _ => rfl⟩
  | _ =>
    simp only [afterUnlock, reduceCtorEq, Option.some.injEq] at h
    try subst h
    try exact ⟨rfl, rfl, rfl, rfl, fun _ => rfl⟩

theorem Goes.cases {pl pl' : Place} (h : pl.Goes pl') :
    pl'.hasLock = pl.hasLock ∧ pl'.reaped = pl.reaped ∧ (pl'.ending = false → pl.ending = false) ∧
      ∀ l, pl'.listed l = pl.listed l := by
  cases h <;> simp [hasLock, reaped, ending, listed]

end Place

section BodyStep

variable {b b' : Body} {t : Nat} {pl pl' : Place} {child : Pid → Bool}

theorem Body.LockOk.of_eq (h : b.LockOk) (hlock : b'.lock = b.lock)
    (hthreads : b'.threads = b.threads) : b'.LockOk where
  has hi := by
    rw [hthreads] at hi
    rw [hlock]
    exact h.has hi
  held hi := by
    rw [hlock] at hi
    rw [hthreads]
    exact h.held hi

theorem holder_of_eq (hlock : b'.lock = b.lock) (hthreads : b'.threads = b.threads) :
    b'.holder = b.holder := by
  rw [Body.holder, Body.holder, hlock, hthreads]

theorem Body.Accounts.of_eq (h : b.Accounts child) (hlock : b'.lock = b.lock)
    (hthreads : b'.threads = b.threads) (hlist : b'.childList = b.childList) :
    b'.Accounts child := by
  have hholder := holder_of_eq hlock hthreads
  refine h.congr ?_ (fun c => ?_) (fun hend => hholder ▸ hend)
  · rw [Body.listed, Body.listed, hholder, hlist]
  · rw [Body.reaped, Body.reaped, hthreads]

theorem reaped_goTo_of_eq (hat : b.threads[t]? = some pl) (hreaped : pl'.reaped = pl.reaped)
    (c : Pid) : (b.goTo t pl').reaped c = b.reaped c := by
  have hcount := reaped_goTo pl' hat c
  rw [hreaped] at hcount
  omega

/-- The list, after a step without lock or unlock. -/
theorem Body.LockOk.listed_goTo (h : b.LockOk) (hat : b.threads[t]? = some pl) :
    (b.goTo t pl').listed = if pl.hasLock then pl'.listed b.childList else b.listed := by
  rw [Body.listed, h.holder_goTo _ hat]
  split <;> rfl

/-- **A step that neither locks nor unlocks**, forks, reaps or unlinks. -/
theorem Body.Accounts.goTo (hok : b.LockOk) (h : b.Accounts child) (pl' : Place)
    (hat : b.threads[t]? = some pl) (hreaped : pl'.reaped = pl.reaped)
    (hending : pl'.ending = false → pl.ending = false)
    (hlisted : ∀ l, pl.hasLock = true → pl'.listed l = pl.listed l) :
    (b.goTo t pl').Accounts child := by
  refine h.congr ?_ (reaped_goTo_of_eq hat hreaped) ?_
  · rw [hok.listed_goTo hat]
    split
    · next hhas =>
      rw [hlisted _ hhas, Body.listed, hok.holder_eq hat hhas]
    · rfl
  · rw [hok.holder_goTo _ hat]
    split
    · next hhas =>
      rw [hok.holder_eq hat hhas]
      exact hending
    · exact id

/-- **A step of the thread that has the lock**, and keeps it. -/
theorem Body.Accounts.holder (hok : b.LockOk) (h : b.Accounts child)
    (hat : b.threads[t]? = some pl) (hhas : pl.hasLock = true) (hhas' : pl'.hasLock = true)
    (hlock : b'.lock = b.lock) (hthreads : b'.threads = (b.goTo t pl').threads)
    (hreaped : pl'.reaped = pl.reaped) (hending : pl'.ending = false → pl.ending = false)
    (hlisted : pl'.listed b'.childList = pl.listed b.childList) :
    b'.LockOk ∧ b'.Accounts child := by
  have hok' : b'.LockOk := (hok.goTo _ hat (hhas'.trans hhas.symm)).of_eq hlock hthreads
  have hat' : b'.threads[t]? = some pl' := by rw [hthreads, getElem?_goTo _ hat, if_pos rfl]
  refine ⟨hok', h.congr ?_ (fun c => ?_) ?_⟩
  · rw [Body.listed, Body.listed, hok'.holder_eq hat' hhas', hok.holder_eq hat hhas, hlisted]
  · rw [← reaped_goTo_of_eq hat hreaped, Body.reaped, Body.reaped, hthreads]
  · rw [hok'.holder_eq hat' hhas', hok.holder_eq hat hhas]
    exact hending

/-- Another thread. -/
theorem holder_spawns (pl : Place) (hok : b.LockOk) :
    ({ b with threads := b.threads ++ [pl] } : Body).holder = b.holder := by
  unfold Body.holder
  cases hlock : b.lock with
  | none => rfl
  | some i =>
    show ((b.threads ++ [pl])[i]?).getD _ = (b.threads[i]?).getD _
    rw [List.getElem?_append_left (hok.held hlock)]

theorem Body.Accounts.spawns (hok : b.LockOk) (h : b.Accounts child) (hnone : pl.reaped = none) :
    ({ b with threads := b.threads ++ [pl] } : Body).Accounts child := by
  have hholder := holder_spawns pl hok
  refine h.congr ?_ (fun c => ?_) (fun hend => hholder ▸ hend)
  · rw [Body.listed, Body.listed, hholder]
  · simp [Body.reaped, List.countP_append, hnone]

theorem Body.Accounts.locks (hok : b.LockOk) (h : b.Accounts child)
    (hat : b.threads[t]? = some pl) (hfree : b.lock = none) (hhas : pl'.hasLock = true)
    (hreaped : pl'.reaped = pl.reaped) (hlisted : ∀ l, pl'.listed l = l) :
    ({ b.goTo t pl' with lock := some t } : Body).Accounts child := by
  have hholder : b.holder = .user := by rw [Body.holder, hfree]; rfl
  have hat' : ({ b.goTo t pl' with lock := some t } : Body).threads[t]? = some pl' :=
    (getElem?_goTo _ hat t).trans (if_pos rfl)
  refine h.congr ?_ (reaped_goTo_of_eq hat hreaped) (fun _ => by rw [hholder]; rfl)
  rw [Body.listed, Body.listed, (hok.locks hat hfree hhas).holder_eq hat' hhas, hholder, hlisted]
  rfl

theorem Body.Accounts.unlocks (hok : b.LockOk) (h : b.Accounts child)
    (hat : b.threads[t]? = some pl) (hhas : pl.hasLock = true) (hreaped : pl'.reaped = pl.reaped)
    (hending : pl.ending = false) (hlisted : ∀ l, pl.listed l = l) :
    ({ b.goTo t pl' with lock := none } : Body).Accounts child := by
  refine h.congr ?_ (reaped_goTo_of_eq hat hreaped) (fun _ => ?_)
  · rw [Body.listed, Body.listed, hok.holder_eq hat hhas, hlisted]
    rfl
  · rw [hok.holder_eq hat hhas]
    exact hending

/-- **No step of a process alone takes a child from the list.** -/
theorem bodyStep_inv (h : BodyStep t b b') (hok : b.LockOk) (hacc : b.Accounts child) :
    b'.LockOk ∧ b'.Accounts child := by
  cases h with
  | goes hat hgoes =>
    obtain ⟨hhas, hreaped, hending, hlisted⟩ := hgoes.cases
    exact ⟨hok.goTo _ hat hhas, hacc.goTo hok _ hat hreaped hending fun l _ => hlisted l⟩
  | locks hat hnext hfree =>
    obtain ⟨-, hhas, hreaped, hlisted⟩ := Place.afterLock_cases hnext
    exact ⟨hok.locks hat hfree hhas, hacc.locks hok hat hfree hhas hreaped hlisted⟩
  | unlocks hat hnext =>
    obtain ⟨hhas, hnot, hreaped, hending, hlisted⟩ := Place.afterUnlock_cases hnext
    exact ⟨hok.unlocks hat hhas hnot, hacc.unlocks hok hat hhas hreaped hending hlisted⟩
  | spawns hat => exact ⟨hok.snoc rfl, hacc.spawns hok rfl⟩
  | setSigExit hat => exact hacc.holder hok hat rfl rfl rfl rfl rfl (fun _ => rfl) rfl
  | forkNode hat => exact hacc.holder hok hat rfl rfl rfl rfl rfl (fun _ => rfl) rfl
  | childFree hat => exact hacc.holder hok hat rfl rfl rfl rfl rfl (fun _ => rfl) rfl
  | childSpawn hat =>
    have hok' := hok.goTo .user hat rfl
    have hacc' := hacc.goTo hok .user hat rfl (fun _ => rfl) (fun _ _ => rfl)
    exact ⟨hok'.snoc rfl, hacc'.spawns hok' rfl⟩
  | @reapedFound pid hat hfound =>
    have hholder := hok.holder_eq hat rfl
    have hok' : ({ b.goTo t .reapedUnlock with childList := b.childList.erase pid } : Body).LockOk :=
      (hok.goTo .reapedUnlock hat rfl).of_eq rfl rfl
    have hat' := (getElem?_goTo .reapedUnlock hat t).trans (if_pos rfl)
    refine ⟨hok', hacc.unlink (c := pid) ?_ (fun d => ?_) (by rw [hholder]; rfl)⟩
    · rw [Body.listed, Body.listed, hok'.holder_eq hat' rfl, hholder]
      rfl
    · have hcount := reaped_goTo .reapedUnlock hat d
      simp only [Place.reaped, Option.some.injEq, reduceCtorEq, if_false, Nat.add_zero] at hcount
      show (b.goTo t .reapedUnlock).reaped d + _ = _
      simpa only [eq_comm (a := d)] using hcount
  | reapedMissing hat hmissing =>
    -- It is on the list.
    have hholder := hok.holder_eq hat rfl
    have hmem := hacc.mem_of_reaped (by rw [hholder]; rfl) hat rfl
    rw [Body.listed, hholder] at hmem
    exact absurd hmem hmissing
  | exitBegin hat => exact hacc.holder hok hat rfl rfl rfl rfl rfl nofun rfl
  | sigwait hat hpending =>
    have hok' := hok.goTo .sigLock hat rfl
    have hacc' := hacc.goTo hok .sigLock hat rfl (fun _ => rfl) (fun _ _ => rfl)
    exact ⟨hok'.of_eq rfl rfl, hacc'.of_eq rfl rfl rfl⟩
  | sigRead hat => exact hacc.holder hok hat rfl rfl rfl rfl rfl (fun _ => rfl) rfl

end BodyStep

/-! ## All processes -/

def World.isChild (S : World) (p c : Pid) : Bool := decide (S.parent c = some p)

/-- Locks and lists are as they should be, every parent is running, and only the first process has
none. -/
structure WorldInv (root : Pid) (S : World) : Prop where
  lock : ∀ {p b}, S.status p = .running b → b.LockOk
  list : ∀ {p b}, S.status p = .running b → b.Accounts (S.isChild p)
  parent : ∀ {c p}, S.parent c = some p → (∃ b, S.status p = .running b) ∧ S.status c ≠ .absent
  top : ∀ {c}, S.status c ≠ .absent → S.parent c = none → c = root

theorem World.init_running {root p : Pid} {b : Body}
    (hp : (World.init root).status p = .running b) : b = .init := by
  by_cases hpr : p = root
  · simp only [World.init, hpr, Function.update_self, Status.running.injEq] at hp
    exact hp.symm
  · simp [World.init, Function.update_of_ne hpr] at hp

theorem worldInv_init (root : Pid) : WorldInv root (.init root) := by
  refine ⟨fun hp => ?_, fun hp => ?_, fun h => by (cases h), fun {c} hc _ => ?_⟩
  · rw [World.init_running hp]
    refine ⟨fun {t pl} hat => ?_, nofun⟩
    have hmem := List.mem_of_getElem? hat
    simp only [Body.init, List.mem_cons, List.not_mem_nil, or_false] at hmem
    rcases hmem with rfl | rfl <;> simp [Place.hasLock, Body.init]
  · rw [World.init_running hp]
    exact ⟨nofun, fun c => Nat.zero_le _, fun _ c => rfl⟩
  · by_contra hne
    exact hc (by simp [World.init, Function.update_of_ne hne])

section World

variable {root : Pid} {S : World} {p c : Pid} {b b' : Body}

/-- **A step of one process**, by which no parent changes. -/
theorem WorldInv.setStatus (h : WorldInv root S) (hp : S.status p = .running b) (hlock : b'.LockOk)
    (hlist : b'.Accounts (S.isChild p)) : WorldInv root (S.setStatus p (.running b')) where
  lock {q b₁} hq := by
    by_cases hqp : q = p
    · simp only [World.setStatus, hqp, Function.update_self, Status.running.injEq] at hq
      rwa [← hq]
    · exact h.lock ((Function.update_of_ne hqp ..).symm.trans hq)
  list {q b₁} hq := by
    by_cases hqp : q = p
    · simp only [World.setStatus, hqp, Function.update_self, Status.running.injEq] at hq
      rw [← hq, hqp]
      exact hlist
    · exact h.list ((Function.update_of_ne hqp ..).symm.trans hq)
  parent {c q} hq := by
    obtain ⟨⟨b₁, hb₁⟩, hc⟩ := h.parent hq
    refine ⟨?_, ?_⟩
    · by_cases hqp : q = p
      · exact ⟨b', by simp [World.setStatus, hqp]⟩
      · exact ⟨b₁, (Function.update_of_ne hqp ..).trans hb₁⟩
    · by_cases hcp : c = p
      · simp [World.setStatus, hcp]
      · simpa [World.setStatus, Function.update_of_ne hcp] using hc
  top {c} hc hnone := by
    refine h.top ?_ hnone
    by_cases hcp : c = p
    · rw [hcp, hp]
      exact Status.noConfusion
    · simpa [World.setStatus, Function.update_of_ne hcp] using hc

theorem World.setStatus_self {st : Status} (h : S.status p = st) : S.setStatus p st = S := by
  rw [World.setStatus, ← h, Function.update_eq_self]

theorem WorldInv.interrupt (h : WorldInv root S) (c : Pid) : WorldInv root (S.interrupt c) := by
  unfold World.interrupt
  cases hc : S.status c with
  | absent =>
    show WorldInv root (S.setStatus c .absent)
    rwa [World.setStatus_self hc]
  | zombie =>
    show WorldInv root (S.setStatus c .zombie)
    rwa [World.setStatus_self hc]
  | running b => exact h.setStatus hc ((h.lock hc).of_eq rfl rfl) ((h.list hc).of_eq rfl rfl rfl)

/-- **A fork with the lock**: the lock of the child is held by its only thread. -/
theorem Body.LockOk.child {t : Nat} {pl : Place} (h : b.LockOk) (hat : b.threads[t]? = some pl)
    (hhas : pl.hasLock = true) :
    ({ b with
      pending := false
      threads := (b.threads.map fun _ => Place.returned).set t .childFree } : Body).LockOk := by
  have hlock := (h.has hat).mp hhas
  have ht := h.held hlock
  refine ⟨fun {i pl₁} hi => ?_, fun {i} hi => ?_⟩
  · rw [hlock]
    by_cases hit : i = t
    · subst hit
      rw [List.getElem?_set_self (by simpa using ht)] at hi
      cases hi
      exact ⟨fun _ => rfl, fun _ => rfl⟩
    · rw [List.getElem?_set_ne (Ne.symm hit), List.getElem?_map] at hi
      obtain ⟨-, -, rfl⟩ := Option.map_eq_some_iff.mp hi
      simp [Place.hasLock, Ne.symm hit]
  · have hlt := h.held hi
    simpa using hlt

/-- In a new child no thread has reaped anything. -/
theorem reaped_child (t : Nat) (c : Pid) :
    ({ b with
      pending := false
      threads := (b.threads.map fun _ => Place.returned).set t .childFree } : Body).reaped c = 0 := by
  refine List.countP_eq_zero.mpr fun pl hpl => ?_
  rcases List.mem_or_eq_of_mem_set hpl with hmem | rfl
  · obtain ⟨-, -, rfl⟩ := List.mem_map.mp hmem
    simp [Place.reaped]
  · simp [Place.reaped]

/-- Nobody is a child of a process that is not there. -/
theorem WorldInv.not_child (h : WorldInv root S) (hc : S.status c = .absent) (d : Pid) :
    S.parent d ≠ some c := by
  intro hd
  obtain ⟨⟨b, hb⟩, -⟩ := h.parent hd
  rw [hc] at hb
  cases hb

theorem WorldInv.fork (h : WorldInv root S) {t : Nat} (hp : S.status p = .running b)
    (hat : b.threads[t]? = some .fork) (hfresh : S.status c = .absent) :
    WorldInv root (S.fork p t b c) := by
  have hok := h.lock hp
  have hholder := hok.holder_eq hat rfl
  have hpc : p ≠ c := by
    rintro rfl
    rw [hp] at hfresh
    cases hfresh
  have hchild : ∀ q d, (S.fork p t b c).isChild q d
      = if d = c then decide (p = q) else S.isChild q d := by
    intro q d
    by_cases hdc : d = c <;> simp [World.isChild, World.fork, hdc]
  have hfree : ∀ q, S.isChild q c = false := by
    intro q
    exact decide_eq_false fun hq => (h.parent hq).2 hfresh
  have hothers : ∀ {q}, q ≠ c → q ≠ p → (S.fork p t b c).status q = S.status q := fun hqc hqp =>
    (Function.update_of_ne hqc ..).trans (Function.update_of_ne hqp ..)
  have hparent : (S.fork p t b c).status p = .running (b.goTo t (.forkNode c)) :=
    (Function.update_of_ne hpc ..).trans (Function.update_self ..)
  have hpresent : ∀ {d}, d ≠ c → S.status d ≠ .absent → (S.fork p t b c).status d ≠ .absent := by
    intro d hdc hd
    by_cases hdp : d = p
    · rw [hdp, hparent]
      exact Status.noConfusion
    · rwa [hothers hdc hdp]
  refine ⟨fun {q b₁} hq => ?_, fun {q b₁} hq => ?_, fun {d q} hd => ?_, fun {d} hd hnone => ?_⟩
  · rcases eq_or_ne q c with rfl | hqc
    · cases (Function.update_self ..).symm.trans hq
      exact hok.child hat rfl
    · rcases eq_or_ne q p with rfl | hqp
      · cases hparent.symm.trans hq
        exact hok.goTo _ hat rfl
      · exact h.lock ((hothers hqc hqp).symm.trans hq)
  · rcases eq_or_ne q c with rfl | hqc
    · -- The child has no children, and its list is a copy that it will empty.
      cases (Function.update_self ..).symm.trans hq
      have hok' := hok.child hat rfl
      have ht := hok.held ((hok.has hat).mp rfl)
      have hat' : ((b.threads.map fun _ => Place.returned).set t .childFree)[t]?
          = some .childFree := List.getElem?_set_self (by simpa using ht)
      have hholder' := hok'.holder_eq hat' rfl
      have hnone : ∀ d, (S.fork p t b q).isChild q d = false := by
        intro d
        rw [hchild, decide_eq_false hpc, World.isChild,
          decide_eq_false (h.not_child hfresh d), ite_self]
      refine ⟨fun d hd => ?_, fun d => ?_, fun hend d => ?_⟩
      · rw [hnone] at hd
        cases hd
      · rw [Body.listed, hholder']
        exact Nat.zero_le _
      · rw [Body.listed, hholder', hnone, reaped_child]
        rfl
    · rcases eq_or_ne q p with rfl | hqp
      · cases hparent.symm.trans hq
        refine (h.list hp).fork (c := c) ?_ (reaped_goTo_of_eq hat rfl) (by rw [hholder]; rfl)
          (hfree _) (fun d => ?_)
        · rw [hok.listed_goTo hat, Body.listed, hholder]
          rfl
        · rw [hchild, decide_eq_true rfl]
      · have hsame : (S.fork p t b c).isChild q = S.isChild q := by
          funext d
          rw [hchild]
          split
          · next hdc => rw [hdc, hfree, decide_eq_false (Ne.symm hqp)]
          · rfl
        rw [hsame]
        exact h.list ((hothers hqc hqp).symm.trans hq)
  · by_cases hdc : d = c
    · subst hdc
      cases (Function.update_self ..).symm.trans hd
      exact ⟨⟨_, hparent⟩, by simp [World.fork]⟩
    · obtain ⟨⟨b₁, hb₁⟩, hpresent'⟩ := h.parent ((Function.update_of_ne hdc ..).symm.trans hd)
      refine ⟨?_, hpresent hdc hpresent'⟩
      have hqc : q ≠ c := by
        rintro rfl
        rw [hb₁] at hfresh
        cases hfresh
      rcases eq_or_ne q p with rfl | hqp
      · exact ⟨_, hparent⟩
      · exact ⟨b₁, (hothers hqc hqp).trans hb₁⟩
  · by_cases hdc : d = c
    · subst hdc
      cases (Function.update_self ..).symm.trans hnone
    · have hnone' : S.parent d = none := (Function.update_of_ne hdc ..).symm.trans hnone
      refine h.top (fun habsent => hd ?_) hnone'
      rcases eq_or_ne d p with rfl | hdp
      · rw [hp] at habsent
        cases habsent
      · exact (hothers hdc hdp).trans habsent

/-- **A child that has ended is reaped.** -/
theorem WorldInv.reap (h : WorldInv root S) (hp : S.status p = .running b)
    (hchild : S.parent c = some p) (hzombie : S.status c = .zombie) (hlock : b'.LockOk)
    (hlist : b'.Accounts fun d => if d = c then false else S.isChild p d) :
    WorldInv root ((S.reap c).setStatus p (.running b')) := by
  have hpc : p ≠ c := by
    rintro rfl
    rw [hp] at hzombie
    cases hzombie
  have hothers : ∀ {q}, q ≠ c → q ≠ p →
      ((S.reap c).setStatus p (.running b')).status q = S.status q := fun hqc hqp =>
    (Function.update_of_ne hqp ..).trans (Function.update_of_ne hqc ..)
  have hself : ((S.reap c).setStatus p (.running b')).status p = .running b' :=
    Function.update_self ..
  have hgone : ((S.reap c).setStatus p (.running b')).status c = .absent :=
    (Function.update_of_ne (Ne.symm hpc) ..).trans (Function.update_self ..)
  have hparent : ∀ d, ((S.reap c).setStatus p (.running b')).parent d
      = if d = c then none else S.parent d := by
    intro d
    by_cases hdc : d = c <;> simp [World.setStatus, World.reap, hdc]
  have hisChild : ∀ q d, ((S.reap c).setStatus p (.running b')).isChild q d
      = if d = c then false else S.isChild q d := by
    intro q d
    by_cases hdc : d = c <;> simp [World.isChild, hparent, hdc]
  refine ⟨fun {q b₁} hq => ?_, fun {q b₁} hq => ?_, fun {d q} hd => ?_, fun {d} hd hnone => ?_⟩
  · rcases eq_or_ne q p with rfl | hqp
    · cases hself.symm.trans hq
      exact hlock
    · rcases eq_or_ne q c with rfl | hqc
      · cases hgone.symm.trans hq
      · exact h.lock ((hothers hqc hqp).symm.trans hq)
  · rcases eq_or_ne q p with rfl | hqp
    · cases hself.symm.trans hq
      have hfun : ((S.reap c).setStatus q (.running b')).isChild q
          = fun d => if d = c then false else S.isChild q d := funext (hisChild q)
      rw [hfun]
      exact hlist
    · rcases eq_or_ne q c with rfl | hqc
      · cases hgone.symm.trans hq
      · -- The child was no child of another process.
        have hfun : ((S.reap c).setStatus p (.running b')).isChild q = S.isChild q := by
          funext d
          rw [hisChild]
          split
          · next hdc =>
            rw [hdc, World.isChild, hchild]
            simp [Ne.symm hqp]
          · rfl
        rw [hfun]
        exact h.list ((hothers hqc hqp).symm.trans hq)
  · rw [hparent] at hd
    split at hd
    · cases hd
    · next hdc =>
      obtain ⟨⟨b₁, hb₁⟩, hpresent⟩ := h.parent hd
      constructor
      · rcases eq_or_ne q p with rfl | hqp
        · exact ⟨b', hself⟩
        · have hqc : q ≠ c := by
            rintro rfl
            rw [hzombie] at hb₁
            cases hb₁
          exact ⟨b₁, (hothers hqc hqp).trans hb₁⟩
      · rcases eq_or_ne d p with rfl | hdp
        · rw [hself]
          exact Status.noConfusion
        · rwa [hothers hdc hdp]
  · rw [hparent] at hnone
    have hdc : d ≠ c := by
      rintro rfl
      exact hd hgone
    rw [if_neg hdc] at hnone
    refine h.top (fun habsent => hd ?_) hnone
    rcases eq_or_ne d p with rfl | hdp
    · rw [hp] at habsent
      cases habsent
    · exact (hothers hdc hdp).trans habsent

/-- **The process that ends has no children.** -/
theorem WorldInv.no_children (h : WorldInv root S) {t : Nat} (hp : S.status p = .running b)
    (hat : b.threads[t]? = some (.exitKill [])) (c : Pid) : S.parent c ≠ some p := by
  intro hc
  have hmem := (h.list hp).covers c (decide_eq_true hc)
  rw [Body.listed, (h.lock hp).holder_eq hat rfl] at hmem
  cases hmem

theorem WorldInv.exit (h : WorldInv root S) {t : Nat} (hp : S.status p = .running b)
    (hat : b.threads[t]? = some (.exitKill [])) : WorldInv root (S.exit p) := by
  have hparent : (S.exit p).parent = S.parent := by
    funext c
    exact if_neg (h.no_children hp hat c)
  have hothers : ∀ {q}, q ≠ p → (S.exit p).status q = S.status q := fun hqp =>
    Function.update_of_ne hqp ..
  have hself : (S.exit p).status p = .zombie := Function.update_self ..
  refine ⟨fun {q b₁} hq => ?_, fun {q b₁} hq => ?_, fun {d q} hd => ?_, fun {d} hd hnone => ?_⟩
  · rcases eq_or_ne q p with rfl | hqp
    · cases hself.symm.trans hq
    · exact h.lock ((hothers hqp).symm.trans hq)
  · rcases eq_or_ne q p with rfl | hqp
    · cases hself.symm.trans hq
    · have hfun : (S.exit p).isChild q = S.isChild q := by
        funext d
        rw [World.isChild, World.isChild, hparent]
      rw [hfun]
      exact h.list ((hothers hqp).symm.trans hq)
  · rw [hparent] at hd
    obtain ⟨⟨b₁, hb₁⟩, hpresent⟩ := h.parent hd
    have hqp : q ≠ p := by
      rintro rfl
      exact h.no_children hp hat d hd
    refine ⟨⟨b₁, (hothers hqp).trans hb₁⟩, ?_⟩
    rcases eq_or_ne d p with rfl | hdp
    · rw [hself]
      exact Status.noConfusion
    · rwa [hothers hdp]
  · rw [hparent] at hnone
    refine h.top (fun habsent => hd ?_) hnone
    rcases eq_or_ne d p with rfl | hdp
    · rw [hp] at habsent
      cases habsent
    · exact (hothers hdp).trans habsent

/-- The thread that ends the process goes on to the next node. -/
theorem WorldInv.next (h : WorldInv root S) {t : Nat} {pl : Place} (pl' : Place)
    (hp : S.status p = .running b)
    (hat : b.threads[t]? = some pl) (hhas : pl.hasLock = true) (hhas' : pl'.hasLock = true)
    (hlisted : pl.listed b.childList = c :: pl'.listed b.childList)
    (hreaped : pl'.reaped = pl.reaped) (hending : pl'.ending = true) :
    (b.goTo t pl').LockOk ∧
      (b.goTo t pl').Accounts fun d => if d = c then false else S.isChild p d := by
  have hok := h.lock hp
  have hholder := hok.holder_goTo pl' hat
  rw [if_pos hhas] at hholder
  refine ⟨hok.goTo _ hat (hhas'.trans hhas.symm), (h.list hp).next (c := c) ?_
    (reaped_goTo_of_eq hat hreaped) (by rw [hholder, hending]) (fun _ => rfl)⟩
  rw [Body.listed, Body.listed, hok.holder_eq hat hhas, hholder, hlisted]
  rfl

/-- It finds that another thread has reaped the child. -/
theorem WorldInv.next_of_not_child (h : WorldInv root S) {t : Nat} {pl pl' : Place}
    (hp : S.status p = .running b) (hat : b.threads[t]? = some pl) (hhas : pl.hasLock = true)
    (hhas' : pl'.hasLock = true) (hlisted : pl.listed b.childList = c :: pl'.listed b.childList)
    (hreaped : pl'.reaped = pl.reaped) (hending : pl'.ending = true)
    (hchild : S.parent c ≠ some p) :
    WorldInv root (S.setStatus p (.running (b.goTo t pl'))) := by
  obtain ⟨hok, hacc⟩ := h.next _ hp hat hhas hhas' hlisted hreaped hending
  have hsame : (fun d => if d = c then false else S.isChild p d) = S.isChild p := by
    funext d
    split
    · next hdc =>
      rw [hdc]
      exact (decide_eq_false hchild).symm
    · rfl
  exact h.setStatus hp hok (hsame ▸ hacc)

theorem WorldInv.threadStep (h : WorldInv root S) {t : Nat} {S' : World}
    (hs : ThreadStep p t S S') : WorldInv root S' := by
  cases hs with
  | body hp hbody =>
    obtain ⟨hok, hacc⟩ := bodyStep_inv hbody (h.lock hp) (h.list hp)
    exact h.setStatus hp hok hacc
  | fork hp hat hfresh => exact h.fork hp hat hfresh
  | @waitpid b want options c hp hat hchild hzombie hwant =>
    have hok := h.lock hp
    have hholder := hok.holder_goTo (.reapedLock c) hat
    refine h.reap hp hchild hzombie (hok.goTo _ hat rfl) ((h.list hp).waitpid (c := c)
      (hok.listed_goTo hat) (fun d => ?_) (congrArg Place.ending hholder) (decide_eq_true hchild)
      (fun _ => rfl))
    have hcount := reaped_goTo (.reapedLock c) hat d
    simp only [Place.reaped, Option.some.injEq, reduceCtorEq, if_false, Nat.add_zero] at hcount
    simpa only [eq_comm (a := d)] using hcount
  | waitpidFails hp hat hnone =>
    have hok := h.lock hp
    exact h.setStatus hp (hok.goTo _ hat rfl)
      ((h.list hp).goTo hok _ hat rfl (fun _ => rfl) (fun _ _ => rfl))
  | @kill b c iter hp hat =>
    have hok := h.lock hp
    exact (h.setStatus hp (hok.goTo (.exitWaitpid c iter) hat rfl)
      ((h.list hp).goTo hok _ hat rfl nofun (fun _ _ => rfl))).interrupt c
  | @reap b c iter hp hat hchild hzombie =>
    obtain ⟨hok, hacc⟩ := h.next (.exitKill iter) hp hat rfl rfl rfl rfl rfl
    exact h.reap hp hchild hzombie hok hacc
  | reapFails hp hat hchild => exact h.next_of_not_child hp hat rfl rfl rfl rfl rfl hchild
  | exit hp hat => exact h.exit hp hat
  | @forkKill b c hp hat =>
    have hok := h.lock hp
    exact (h.setStatus hp (hok.goTo (.forkWaitpid c) hat rfl)
      ((h.list hp).goTo hok _ hat rfl nofun (fun _ _ => rfl))).interrupt c
  | forkReap hp hat hchild hzombie =>
    obtain ⟨hok, hacc⟩ := h.next .exitBegin hp hat rfl rfl rfl rfl rfl
    exact h.reap hp hchild hzombie hok hacc
  | forkReapFails hp hat hchild => exact h.next_of_not_child hp hat rfl rfl rfl rfl rfl hchild

/-- **Locks and lists are as they should be**, whatever the processes do. -/
theorem worldInv_reachable (h : (processSystem root).Reachable S) : WorldInv root S := by
  induction h with
  | init hs =>
    rw [show _ = _ from hs]
    exact worldInv_init root
  | step _ hs ih =>
    cases hs with
    | thread p t hstep => exact ih.threadStep hstep
    | interrupt p => exact ih.interrupt p

end World

end Chlibs.Sys

import Chlibs.Infra.Transition

/-!
# Processes

`sys.c`: processes that fork with `safe_fork`, reap with `safe_waitpid` and end with `safe_exit`. In
each, any number of threads share the system state and its lock.

* `Place` — where a thread is in the functions of `sys.c`.
* `Body` — the system state of a process, and its threads.
* `ThreadStep` — one step of one thread: up to the next thing that others can notice.
* `processSystem` — all processes that come from one call of `sys_init`.

`fork`, `waitpid`, `kill` and `exit` do what POSIX says. No process ends but through `safe_exit_p`,
which `log_fatal` and the signal thread call as well. The program calls `safe_waitpid` without
`WUNTRACED` and `WCONTINUED`: it would take a child that is stopped, and lives, for one that was
reaped.
-/

namespace Chlibs.Sys

open Infra

abbrev Pid := Nat

/-! ## Threads -/

/-- The options of `waitpid`. -/
structure WaitOptions where
  nohang : Bool
  untraced : Bool
  continued : Bool

/-- `waitpid` returns no child but one that it has reaped. -/
def WaitOptions.Reaps (options : WaitOptions) : Prop :=
  options.untraced = false ∧ options.continued = false

/-- Where a thread is: what it does next. -/
inductive Place where
  /-- the program's own code -/
  | user
  /-- the program's own code, after `sys_lock` -/
  | locked
  | returned
  | sysLock
  | setSigExitLock (e : Bool)
  | setSigExit (e : Bool)
  | setSigExitUnlock
  -- `safe_fork`
  | forkLock
  | fork
  | forkNode (pid : Pid)
  | forkUnlock
  | forkKill (pid : Pid)
  | forkWaitpid (pid : Pid)
  -- `prepare_from_child`
  | childFree
  | childUnlock
  | childSpawn
  -- `safe_waitpid`; `want` are the children that it was called for
  | waitpid (want : Pid → Bool) (options : WaitOptions)
  | reapedLock (pid : Pid)
  | reapedFind (pid : Pid)
  | reapedUnlock
  -- `safe_exit_p`
  | exitLock
  | exitBegin
  | exitKill (iter : List Pid)
  | exitWaitpid (pid : Pid) (iter : List Pid)
  -- `sig_thread`
  | sigWait
  | sigLock
  | sigRead
  | sigUnlock (signalExitFlag : Bool)
  | sigRoutine
  | sigReturned

namespace Place

/-- `pthread_mutex_lock` is next, and what comes then. -/
def afterLock : Place → Option Place
  | sysLock => some locked
  | setSigExitLock e => some (setSigExit e)
  | forkLock => some fork
  | reapedLock pid => some (reapedFind pid)
  | exitLock => some exitBegin
  | sigLock => some sigRead
  | _ => none

/-- `pthread_mutex_unlock` is next, and what comes then. -/
def afterUnlock : Place → Option Place
  | locked => some user
  | setSigExitUnlock => some user
  | forkUnlock => some user
  | childUnlock => some childSpawn
  | reapedUnlock => some user
  | sigUnlock signalExitFlag => some (if signalExitFlag then sigRoutine else sigReturned)
  | _ => none

/-- Between the lock and the unlock. -/
def hasLock : Place → Bool
  | locked | setSigExit _ | setSigExitUnlock => true
  | fork | forkNode _ | forkUnlock | forkKill _ | forkWaitpid _ => true
  | childFree | childUnlock => true
  | reapedFind _ | reapedUnlock => true
  | exitBegin | exitKill _ | exitWaitpid _ _ => true
  | sigRead | sigUnlock _ => true
  | _ => false

/-- Steps that only the thread itself notices. -/
inductive Goes : Place → Place → Prop
  | callsLock : Goes user sysLock
  | callsSetSigExit (e : Bool) : Goes user (setSigExitLock e)
  | callsFork : Goes user forkLock
  | callsWaitpid (want : Pid → Bool) (options : WaitOptions) (h : options.Reaps) :
      Goes user (waitpid want options)
  /-- `safe_exit`, or `log_fatal` -/
  | callsExit : Goes user exitLock
  | returns : Goes user returned
  /-- `safe_exit_p(false, …)`, or `log_fatal_p(false, …)` -/
  | lockedExit : Goes locked exitBegin
  | forkFails : Goes fork exitBegin
  /-- no memory for the node -/
  | nodeFails (pid : Pid) : Goes (forkNode pid) (forkKill pid)
  | spawnFails : Goes childSpawn exitLock
  /-- no child has ended -/
  | waitpidNohang (want : Pid → Bool) {options : WaitOptions} (h : options.nohang = true) :
      Goes (waitpid want options) user
  | sigwaitFails : Goes sigWait exitLock
  /-- the routine, if there is one, has returned -/
  | routineReturns : Goes sigRoutine exitLock

end Place

/-! ## Processes -/

/-- `sys_state_t` with `sys_mut`, and what the operating system knows of the process: whether a
`SIGINT` waits, and the threads. -/
structure Body where
  lock : Option Nat
  signalExitFlag : Bool
  signalExitRequested : Bool
  childList : List Pid
  pending : Bool
  threads : List Place

/-- Thread `t` is at this place next. -/
def Body.goTo (b : Body) (t : Nat) (pl : Place) : Body := { b with threads := b.threads.set t pl }

/-- Steps that no other process notices. -/
inductive BodyStep (t : Nat) : Body → Body → Prop
  | goes {b : Body} {pl pl' : Place} (hat : b.threads[t]? = some pl) (h : pl.Goes pl') :
      BodyStep t b (b.goTo t pl')
  | locks {b : Body} {pl pl' : Place} (hat : b.threads[t]? = some pl)
      (h : pl.afterLock = some pl') (hfree : b.lock = none) :
      BodyStep t b { b.goTo t pl' with lock := some t }
  | unlocks {b : Body} {pl pl' : Place} (hat : b.threads[t]? = some pl)
      (h : pl.afterUnlock = some pl') : BodyStep t b { b.goTo t pl' with lock := none }
  /-- `pthread_create` in the program's own code -/
  | spawns {b : Body} (hat : b.threads[t]? = some .user) :
      BodyStep t b { b with threads := b.threads ++ [.user] }
  | setSigExit {b : Body} {e : Bool} (hat : b.threads[t]? = some (.setSigExit e)) :
      BodyStep t b { b.goTo t .setSigExitUnlock with signalExitFlag := e }
  | forkNode {b : Body} {pid : Pid} (hat : b.threads[t]? = some (.forkNode pid)) :
      BodyStep t b { b.goTo t .forkUnlock with childList := pid :: b.childList }
  | childFree {b : Body} (hat : b.threads[t]? = some .childFree) :
      BodyStep t b { b.goTo t .childUnlock with childList := [] }
  | childSpawn {b : Body} (hat : b.threads[t]? = some .childSpawn) :
      BodyStep t b { b.goTo t .user with threads := b.threads.set t .user ++ [.sigWait] }
  /-- the first node of the process is unlinked -/
  | reapedFound {b : Body} {pid : Pid} (hat : b.threads[t]? = some (.reapedFind pid))
      (hfound : pid ∈ b.childList) :
      BodyStep t b { b.goTo t .reapedUnlock with childList := b.childList.erase pid }
  /-- `"Reaped child not found in child list"` -/
  | reapedMissing {b : Body} {pid : Pid} (hat : b.threads[t]? = some (.reapedFind pid))
      (hmissing : pid ∉ b.childList) : BodyStep t b (b.goTo t .exitBegin)
  | exitBegin {b : Body} (hat : b.threads[t]? = some .exitBegin) :
      BodyStep t b (b.goTo t (.exitKill b.childList))
  | sigwait {b : Body} (hat : b.threads[t]? = some .sigWait) (hpending : b.pending = true) :
      BodyStep t b { b.goTo t .sigLock with pending := false }
  | sigRead {b : Body} (hat : b.threads[t]? = some .sigRead) :
      BodyStep t b { b.goTo t (.sigUnlock b.signalExitFlag) with signalExitRequested := true }

inductive Status where
  /-- there is no such process -/
  | absent
  /-- it has ended, and nobody has reaped it -/
  | zombie
  | running (b : Body)

def Status.interrupt : Status → Status
  | running b => running { b with pending := true }
  | st => st

/-- The processes, and whose children they are until they are reaped. -/
structure World where
  parent : Pid → Option Pid
  status : Pid → Status

namespace World

def setStatus (S : World) (p : Pid) (st : Status) : World :=
  { S with status := Function.update S.status p st }

/-- `kill(p, SIGINT)` -/
def interrupt (S : World) (p : Pid) : World := S.setStatus p (S.status p).interrupt

/-- A child that has ended is reaped. -/
def reap (S : World) (c : Pid) : World where
  parent := Function.update S.parent c none
  status := Function.update S.status c .absent

/-- `exit`. The children that are left have no parent any more. -/
def exit (S : World) (p : Pid) : World where
  parent c := if S.parent c = some p then none else S.parent c
  status := Function.update S.status p .zombie

/-- `fork` in thread `t`. The child has a copy of the state, and only the thread that called. -/
def fork (S : World) (p : Pid) (t : Nat) (b : Body) (c : Pid) : World where
  parent := Function.update S.parent c (some p)
  status := Function.update (Function.update S.status p (.running (b.goTo t (.forkNode c)))) c
    (.running { b with
      pending := false
      threads := (b.threads.map fun _ => Place.returned).set t .childFree })

end World

/-! ## Steps -/

/-- One step of thread `t` of process `p`. -/
inductive ThreadStep (p : Pid) (t : Nat) : World → World → Prop
  | body {S : World} {b b' : Body} (hp : S.status p = .running b) (h : BodyStep t b b') :
      ThreadStep p t S (S.setStatus p (.running b'))
  | fork {S : World} {b : Body} {c : Pid} (hp : S.status p = .running b)
      (hat : b.threads[t]? = some .fork) (hfresh : S.status c = .absent) :
      ThreadStep p t S (S.fork p t b c)
  | waitpid {S : World} {b : Body} {want : Pid → Bool} {options : WaitOptions} {c : Pid}
      (hp : S.status p = .running b) (hat : b.threads[t]? = some (.waitpid want options))
      (hchild : S.parent c = some p) (hzombie : S.status c = .zombie) (hwant : want c = true) :
      ThreadStep p t S ((S.reap c).setStatus p (.running (b.goTo t (.reapedLock c))))
  /-- no child to wait for -/
  | waitpidFails {S : World} {b : Body} {want : Pid → Bool} {options : WaitOptions}
      (hp : S.status p = .running b) (hat : b.threads[t]? = some (.waitpid want options))
      (hnone : ∀ c, S.parent c = some p → want c = false) :
      ThreadStep p t S (S.setStatus p (.running (b.goTo t .exitLock)))
  | kill {S : World} {b : Body} {c : Pid} {iter : List Pid} (hp : S.status p = .running b)
      (hat : b.threads[t]? = some (.exitKill (c :: iter))) :
      ThreadStep p t S
        ((S.setStatus p (.running (b.goTo t (.exitWaitpid c iter)))).interrupt c)
  | reap {S : World} {b : Body} {c : Pid} {iter : List Pid} (hp : S.status p = .running b)
      (hat : b.threads[t]? = some (.exitWaitpid c iter)) (hchild : S.parent c = some p)
      (hzombie : S.status c = .zombie) :
      ThreadStep p t S ((S.reap c).setStatus p (.running (b.goTo t (.exitKill iter))))
  /-- `waitpid` fails, for another thread has reaped the child -/
  | reapFails {S : World} {b : Body} {c : Pid} {iter : List Pid} (hp : S.status p = .running b)
      (hat : b.threads[t]? = some (.exitWaitpid c iter)) (hchild : S.parent c ≠ some p) :
      ThreadStep p t S (S.setStatus p (.running (b.goTo t (.exitKill iter))))
  | exit {S : World} {b : Body} (hp : S.status p = .running b)
      (hat : b.threads[t]? = some (.exitKill [])) : ThreadStep p t S (S.exit p)
  -- the child of `safe_fork` for which there is no node
  | forkKill {S : World} {b : Body} {c : Pid} (hp : S.status p = .running b)
      (hat : b.threads[t]? = some (.forkKill c)) :
      ThreadStep p t S ((S.setStatus p (.running (b.goTo t (.forkWaitpid c)))).interrupt c)
  | forkReap {S : World} {b : Body} {c : Pid} (hp : S.status p = .running b)
      (hat : b.threads[t]? = some (.forkWaitpid c)) (hchild : S.parent c = some p)
      (hzombie : S.status c = .zombie) :
      ThreadStep p t S ((S.reap c).setStatus p (.running (b.goTo t .exitBegin)))
  | forkReapFails {S : World} {b : Body} {c : Pid} (hp : S.status p = .running b)
      (hat : b.threads[t]? = some (.forkWaitpid c)) (hchild : S.parent c ≠ some p) :
      ThreadStep p t S (S.setStatus p (.running (b.goTo t .exitBegin)))

inductive WorldStep : World → World → Prop
  | thread {S S' : World} (p : Pid) (t : Nat) (h : ThreadStep p t S S') : WorldStep S S'
  /-- a `SIGINT` from elsewhere -/
  | interrupt (S : World) (p : Pid) : WorldStep S (S.interrupt p)

/-- What `sys_init` leaves: the thread that called it, and the one that waits for signals. -/
def Body.init : Body where
  lock := none
  signalExitFlag := true
  signalExitRequested := false
  childList := []
  pending := false
  threads := [.user, .sigWait]

/-- One process, which has called `sys_init`. -/
def World.init (root : Pid) : World where
  parent _ := none
  status := Function.update (fun _ => .absent) root (.running .init)

def processSystem (root : Pid) : TransitionSystem World where
  init S := S = .init root
  step := WorldStep

end Chlibs.Sys

import Chlibs.Rpc.Pool

/-!
# No channel is lost

What holds of the pool of channels in every reachable state, whatever the channels do.

* `workerStep_inv`, `poolStep_inv` — one step keeps the invariant.
* `poolSystem_channels` — every accepted channel is in one place, and the counter is right.
-/

namespace Chlibs.Rpc

open Infra Serial Channel Util

variable {χ ω : Type}

/-! ## Where the channels are -/

/-- A channel with its id. -/
def QueueEle.conn (ele : QueueEle χ) : Nat × χ := (ele.id, ele.chn)

/-- The channel that a worker holds. -/
def WorkerPhase.held : WorkerPhase χ → List (Nat × χ)
  | .serving ele _ => [ele.conn]
  | _ => []

/-- The channel that a worker has destroyed without decrementing `num_channels`. -/
def WorkerPhase.uncounted : WorkerPhase χ → List (Nat × χ)
  | .deleted ele => [ele.conn]
  | _ => []

/-- The id of a channel that a worker has destroyed without calling `on_disconnect`. -/
def WorkerPhase.unreported : WorkerPhase χ → List Nat
  | .deleted ele => [ele.id]
  | .decremented ele => [ele.id]
  | _ => []

namespace PoolState

def queued (s : PoolState χ ω) : List (Nat × χ) := s.shared.q.toList.map QueueEle.conn

def held (s : PoolState χ ω) : List (Nat × χ) := s.workers.flatMap WorkerPhase.held

def uncounted (s : PoolState χ ω) : List (Nat × χ) := s.workers.flatMap WorkerPhase.uncounted

def unreported (s : PoolState χ ω) : List Nat := s.workers.flatMap WorkerPhase.unreported

/-- Before `delete_chrpc_server` has joined the workers. -/
def Open (s : PoolState χ ω) : Prop := s.phase = .running ∨ s.phase = .stopping

end PoolState

/-- Ids and channels are given once. -/
structure PoolIds (log : PoolLog χ) (idCounter : Nat) : Prop where
  ids : (log.accepted.map Prod.fst).Nodup
  ids_lt : ∀ c ∈ log.accepted, c.1 < idCounter
  chns : (log.accepted.map Prod.snd).Nodup
  given : ∀ c ∈ log.accepted, c.2 ∈ log.given

/-- Every accepted channel is in one place, and the counter counts those that are not gone. -/
structure Balanced (server : ChrpcServer) (s : PoolState χ ω) : Prop where
  places : (s.queued ++ s.held ++ s.log.dropped ++ s.log.drained).Perm s.log.accepted
  count : s.Open → s.shared.numChannels = s.queued.length + s.held.length + s.uncounted.length
  room : s.queued.length + s.held.length + s.uncounted.length ≤ server.attrs.maxConnections
  reported : (s.log.disconnected ++ s.unreported).Subperm (s.log.dropped.map Prod.fst)

structure PoolInv (server : ChrpcServer) (s : PoolState χ ω) : Prop where
  ids : PoolIds s.log s.shared.idCounter
  balanced : Balanced server s
  cap : s.shared.q.cap = server.attrs.maxConnections
  codes : ∀ code ∈ s.log.pushCodes, code = 0
  exited : ¬s.Open → ∀ w ∈ s.workers, w = .exited
  emptied : s.phase = .deleted → s.queued = []

/-- There is room for a channel that a worker holds. -/
theorem PoolInv.room_of_held {server : ChrpcServer} {s : PoolState χ ω} (h : PoolInv server s)
    (hheld : 0 < s.held.length) : s.shared.q.toList.length < s.shared.q.cap := by
  have hroom := h.balanced.room
  rw [PoolState.queued, List.length_map] at hroom
  rw [h.cap]
  omega

/-- Every accepted channel is in one place only. -/
theorem PoolInv.places_nodup {server : ChrpcServer} {s : PoolState χ ω} (h : PoolInv server s) :
    ((s.queued ++ s.held ++ s.log.dropped ++ s.log.drained).map Prod.snd).Nodup :=
  (h.balanced.places.map _).nodup_iff.mpr h.ids.chns

/-- A channel is polled by one worker. -/
theorem polled_once {server : ChrpcServer} {s : PoolState χ ω} (h : PoolInv server s)
    {ws₁ ws₂ : List (WorkerPhase χ)} {ele ele' : QueueEle χ} {rest rest' : ServerProg ChrpcStatus}
    (hworkers : s.workers = ws₁ ++ .serving ele rest :: ws₂)
    (hmem : .serving ele' rest' ∈ ws₁ ++ ws₂) : ele'.chn ≠ ele.chn := by
  have hall := h.places_nodup
  rw [List.map_append, List.map_append, List.map_append] at hall
  have hheld : (s.held.map Prod.snd).Nodup := hall.of_append_left.of_append_left.of_append_right
  rw [PoolState.held, hworkers, List.flatMap_append, List.flatMap_cons, WorkerPhase.held,
    List.singleton_append, List.map_append, List.map_cons, List.nodup_middle, List.nodup_cons,
    ← List.map_append, ← List.flatMap_append] at hheld
  intro heq
  refine hheld.1 (List.mem_map.mpr ⟨ele'.conn, ?_, heq⟩)
  exact List.mem_flatMap.mpr ⟨_, hmem, List.mem_singleton.mpr rfl⟩

/-! ## Workers -/

section Worker

variable {server : ChrpcServer} {W : World χ ω}

/-- `q_poll` takes the oldest channel of the queue. -/
theorem qPoll_conn {q q' : Queue (QueueEle χ)} {ele : QueueEle χ}
    (h : qPoll q = (0, some ele, q')) : q.toList = ele :: q'.toList ∧ q'.cap = q.cap := by
  cases hlist : q.toList with
  | nil => simp [qPoll_of_nil hlist] at h
  | cons a as =>
    obtain ⟨-, helem, hrest⟩ := qPoll_of_cons hlist
    have hcap := qPoll_cap q
    simp only [h, Option.some.injEq] at helem hrest hcap
    rw [helem, hrest]
    exact ⟨rfl, hcap⟩

theorem qPoll_empty {q : Queue (QueueEle χ)} (h : (qPoll q).1 ≠ 0) : q.toList = [] := by
  cases hlist : q.toList with
  | nil => rfl
  | cons a as => exact absurd (qPoll_of_cons hlist).1 h

/-- `q_push` finds room where the invariant says so. -/
theorem qPush_conn {q q' : Queue (QueueEle χ)} {ele : QueueEle χ} {code : Nat}
    (h : qPush q ele = (code, q')) (hroom : q.toList.length < q.cap) :
    code = 0 ∧ q'.toList = q.toList ++ [ele] ∧ q'.cap = q.cap := by
  obtain ⟨hcode, hlist⟩ := qPush_of_lt ele hroom
  have hcap := qPush_cap q ele
  simp only [h] at hcode hlist hcap
  exact ⟨hcode, hlist, hcap⟩

theorem WorkerStep.running {v v' : WorkerView χ ω} (h : WorkerStep server W v v') :
    v.phase ≠ .exited := by
  cases h <;> simp

section Step

variable {world world' : ω} {shared : ServerShared χ} {ws₁ ws₂ : List (WorkerPhase χ)}
  {w w' : WorkerPhase χ} {phase : ServerPhase} {log : PoolLog χ} {ele : QueueEle χ}
  {rest : ServerProg ChrpcStatus}

theorem PoolState.held_mk : PoolState.held ⟨world, shared, ws₁ ++ w :: ws₂, phase, log⟩
    = ws₁.flatMap WorkerPhase.held ++ w.held ++ ws₂.flatMap WorkerPhase.held := by
  simp [PoolState.held]

theorem PoolState.uncounted_mk : PoolState.uncounted ⟨world, shared, ws₁ ++ w :: ws₂, phase, log⟩
    = ws₁.flatMap WorkerPhase.uncounted ++ w.uncounted ++ ws₂.flatMap WorkerPhase.uncounted := by
  simp [PoolState.uncounted]

theorem PoolState.unreported_mk : PoolState.unreported ⟨world, shared, ws₁ ++ w :: ws₂, phase, log⟩
    = ws₁.flatMap WorkerPhase.unreported ++ w.unreported ++
      ws₂.flatMap WorkerPhase.unreported := by
  simp [PoolState.unreported]

/-- A step that moves no channel. -/
theorem Balanced.quiet (h : Balanced server ⟨world, shared, ws₁ ++ w :: ws₂, phase, log⟩)
    (hheld : w'.held = w.held) (huncounted : w'.uncounted = w.uncounted)
    (hunreported : w'.unreported = w.unreported) :
    Balanced server ⟨world', shared, ws₁ ++ w' :: ws₂, phase, log⟩ := by
  obtain ⟨places, count, room, reported⟩ := h
  rw [PoolState.held_mk, PoolState.uncounted_mk] at count room
  rw [PoolState.held_mk] at places
  rw [PoolState.unreported_mk] at reported
  refine ⟨?_, fun hopen => ?_, ?_, ?_⟩
  · rwa [PoolState.held_mk, hheld]
  · rw [PoolState.held_mk, PoolState.uncounted_mk, hheld, huncounted]
    exact count hopen
  · rwa [PoolState.held_mk, PoolState.uncounted_mk, hheld, huncounted]
  · rwa [PoolState.unreported_mk, hunreported]

/-- A worker takes the oldest channel of the queue. -/
theorem Balanced.take (h : Balanced server ⟨world, shared, ws₁ ++ .ready :: ws₂, phase, log⟩)
    {q : Queue (QueueEle χ)} (hlist : shared.q.toList = ele :: q.toList) :
    Balanced server
      ⟨world, { shared with q := q }, ws₁ ++ .serving ele rest :: ws₂, phase, log⟩ := by
  classical
  obtain ⟨places, count, room, reported⟩ := h
  simp only [PoolState.queued, hlist, PoolState.held_mk, PoolState.uncounted_mk,
    PoolState.unreported_mk, WorkerPhase.held, WorkerPhase.uncounted, WorkerPhase.unreported,
    List.map_cons, List.length_append, List.length_cons, List.length_nil]
    at places count room reported
  refine ⟨(List.perm_iff_count.mpr fun c => ?_).trans places, fun hopen => ?_, ?_, ?_⟩
  · simp only [PoolState.queued, PoolState.held_mk, WorkerPhase.held, List.count_append,
      List.count_cons, List.count_nil]
    omega
  · have hcount := count hopen
    simp only [PoolState.queued, PoolState.held_mk, PoolState.uncounted_mk, WorkerPhase.held,
      WorkerPhase.uncounted, List.length_append, List.length_cons, List.length_nil]
    omega
  · simp only [PoolState.queued, PoolState.held_mk, PoolState.uncounted_mk, WorkerPhase.held,
      WorkerPhase.uncounted, List.length_append, List.length_cons, List.length_nil]
    omega
  · simpa only [PoolState.unreported_mk, WorkerPhase.unreported] using reported

/-- A worker destroys the channel that it holds. -/
theorem Balanced.drop
    (h : Balanced server ⟨world, shared, ws₁ ++ .serving ele rest :: ws₂, phase, log⟩) :
    Balanced server ⟨world', shared, ws₁ ++ .deleted ele :: ws₂, phase,
      { log with dropped := ele.conn :: log.dropped }⟩ := by
  classical
  obtain ⟨places, count, room, reported⟩ := h
  simp only [PoolState.queued, PoolState.held_mk, PoolState.uncounted_mk,
    PoolState.unreported_mk, WorkerPhase.held, WorkerPhase.uncounted, WorkerPhase.unreported,
    List.length_append, List.length_cons, List.length_nil] at places count room reported
  refine ⟨(List.perm_iff_count.mpr fun c => ?_).trans places, fun hopen => ?_, ?_, ?_⟩
  · simp only [PoolState.queued, PoolState.held_mk, WorkerPhase.held, List.count_append,
      List.count_cons, List.count_nil]
    omega
  · have hcount := count hopen
    simp only [PoolState.queued, PoolState.held_mk, PoolState.uncounted_mk, WorkerPhase.held,
      WorkerPhase.uncounted, List.length_append, List.length_cons, List.length_nil]
    omega
  · simp only [PoolState.queued, PoolState.held_mk, PoolState.uncounted_mk, WorkerPhase.held,
      WorkerPhase.uncounted, List.length_append, List.length_cons, List.length_nil]
    omega
  · have hreported := (List.subperm_cons ele.id).mpr reported
    refine (List.Perm.subperm ?_).trans hreported
    refine List.perm_iff_count.mpr fun c => ?_
    simp only [PoolState.unreported_mk, WorkerPhase.unreported, List.count_append, List.count_cons,
      List.count_nil]
    omega

/-- A worker decrements the counter. -/
theorem Balanced.decrement
    (h : Balanced server ⟨world, shared, ws₁ ++ .deleted ele :: ws₂, phase, log⟩) :
    Balanced server ⟨world, { shared with numChannels := shared.numChannels - 1 },
      ws₁ ++ .decremented ele :: ws₂, phase, log⟩ := by
  obtain ⟨places, count, room, reported⟩ := h
  simp only [PoolState.queued, PoolState.held_mk, PoolState.uncounted_mk, PoolState.unreported_mk,
    WorkerPhase.held, WorkerPhase.uncounted, WorkerPhase.unreported, List.length_append,
    List.length_cons, List.length_nil] at places count room reported
  refine ⟨?_, fun hopen => ?_, ?_, ?_⟩
  · simpa only [PoolState.queued, PoolState.held_mk, WorkerPhase.held] using places
  · have hcount := count hopen
    simp only [PoolState.queued, PoolState.held_mk, PoolState.uncounted_mk, WorkerPhase.held,
      WorkerPhase.uncounted, List.length_append, List.length_nil]
    omega
  · simp only [PoolState.queued, PoolState.held_mk, PoolState.uncounted_mk, WorkerPhase.held,
      WorkerPhase.uncounted, List.length_append, List.length_nil]
    omega
  · simpa only [PoolState.unreported_mk, WorkerPhase.unreported] using reported

/-- A worker calls `on_disconnect`, or need not. -/
theorem Balanced.disconnect
    (h : Balanced server ⟨world, shared, ws₁ ++ .decremented ele :: ws₂, phase, log⟩)
    {disconnected : List Nat}
    (hsub : disconnected = ele.id :: log.disconnected ∨ disconnected = log.disconnected) :
    Balanced server ⟨world, shared, ws₁ ++ .top :: ws₂, phase,
      { log with disconnected := disconnected }⟩ := by
  obtain ⟨places, count, room, reported⟩ := h
  simp only [PoolState.queued, PoolState.held_mk, PoolState.uncounted_mk, PoolState.unreported_mk,
    WorkerPhase.held, WorkerPhase.uncounted, WorkerPhase.unreported] at places count room reported
  refine ⟨?_, fun hopen => ?_, ?_, ?_⟩
  · simpa only [PoolState.queued, PoolState.held_mk, WorkerPhase.held] using places
  · simpa only [PoolState.queued, PoolState.held_mk, PoolState.uncounted_mk, WorkerPhase.held,
      WorkerPhase.uncounted] using count hopen
  · simpa only [PoolState.queued, PoolState.held_mk, PoolState.uncounted_mk, WorkerPhase.held,
      WorkerPhase.uncounted] using room
  · simp only [PoolState.unreported_mk, WorkerPhase.unreported, List.append_nil]
    refine List.Subperm.trans ?_ reported
    rcases hsub with rfl | rfl
    · refine (List.perm_iff_count.mpr fun c => ?_).subperm
      simp only [List.count_append, List.count_cons, List.count_nil]
      omega
    · refine (List.Sublist.append_left ?_ _).subperm
      exact (List.sublist_append_left _ _).append_right _

/-- A worker pushes the channel that it holds. -/
theorem Balanced.putBack
    (h : Balanced server ⟨world, shared, ws₁ ++ .serving ele rest :: ws₂, phase, log⟩)
    {ele' : QueueEle χ} (hele : ele'.conn = ele.conn) {q : Queue (QueueEle χ)}
    (hlist : q.toList = shared.q.toList ++ [ele']) (codes : List Nat) :
    Balanced server ⟨world, { shared with q := q }, ws₁ ++ .top :: ws₂, phase,
      { log with pushCodes := codes }⟩ := by
  classical
  obtain ⟨places, count, room, reported⟩ := h
  simp only [PoolState.queued, PoolState.held_mk, PoolState.uncounted_mk, PoolState.unreported_mk,
    WorkerPhase.held, WorkerPhase.uncounted, WorkerPhase.unreported, List.length_append,
    List.length_cons, List.length_nil] at places count room reported
  refine ⟨(List.perm_iff_count.mpr fun c => ?_).trans places, fun hopen => ?_, ?_, ?_⟩
  · simp only [PoolState.queued, hlist, hele, PoolState.held_mk, WorkerPhase.held, List.map_append,
      List.map_cons, List.map_nil, List.count_append, List.count_cons, List.count_nil]
    omega
  · have hcount := count hopen
    simp only [PoolState.queued, hlist, PoolState.held_mk, PoolState.uncounted_mk,
      WorkerPhase.held, WorkerPhase.uncounted, List.map_append, List.map_cons, List.map_nil,
      List.length_append, List.length_cons, List.length_nil]
    omega
  · simp only [PoolState.queued, hlist, PoolState.held_mk, PoolState.uncounted_mk,
      WorkerPhase.held, WorkerPhase.uncounted, List.map_append, List.map_cons, List.map_nil,
      List.length_append, List.length_cons, List.length_nil]
    omega
  · simpa only [PoolState.unreported_mk, WorkerPhase.unreported] using reported

end Step

theorem workerStep_inv {world world' : ω} {shared shared' : ServerShared χ}
    {ws₁ ws₂ : List (WorkerPhase χ)} {w w' : WorkerPhase χ} {phase : ServerPhase}
    {log log' : PoolLog χ} (hinv : PoolInv server ⟨world, shared, ws₁ ++ w :: ws₂, phase, log⟩)
    (h : WorkerStep server W ⟨world, shared, log, w⟩ ⟨world', shared', log', w'⟩) :
    PoolInv server ⟨world', shared', ws₁ ++ w' :: ws₂, phase, log'⟩ := by
  -- A step of a worker shows that not all workers have exited.
  have hopen : PoolState.Open ⟨world, shared, ws₁ ++ w :: ws₂, phase, log⟩ := by
    by_contra hclosed
    exact h.running (hinv.exited hclosed w (by simp))
  have hphase : phase ≠ .deleted := by
    rintro rfl
    simp [PoolState.Open] at hopen
  obtain ⟨ids, balanced, cap, codes, -, -⟩ := id hinv
  have hexited : ∀ {P : Prop}, ¬(phase = .running ∨ phase = .stopping) → P :=
    fun hclosed => absurd hopen hclosed
  cases h with
  | exit h => exact ⟨ids, balanced.quiet rfl rfl rfl, cap, codes, hexited, fun h => absurd h hphase⟩
  | stay h => exact ⟨ids, balanced.quiet rfl rfl rfl, cap, codes, hexited, fun h => absurd h hphase⟩
  | sleep h => exact ⟨ids, balanced.quiet rfl rfl rfl, cap, codes, hexited, fun h => absurd h hphase⟩
  | perform h => exact ⟨ids, balanced.quiet rfl rfl rfl, cap, codes, hexited, fun h => absurd h hphase⟩
  | poll h hbuf =>
    obtain ⟨hlist, hcap⟩ := qPoll_conn h
    exact ⟨ids, balanced.take hlist, hcap.trans cap, codes, hexited, fun h => absurd h hphase⟩
  | drop h hdestroy =>
    exact ⟨⟨ids.ids, ids.ids_lt, ids.chns, ids.given⟩, balanced.drop, cap, codes, hexited,
      fun h => absurd h hphase⟩
  | decrement => exact ⟨ids, balanced.decrement, cap, codes, hexited, fun h => absurd h hphase⟩
  | disconnect =>
    refine ⟨⟨ids.ids, ids.ids_lt, ids.chns, ids.given⟩, balanced.disconnect ?_, cap, codes, hexited,
      fun h => absurd h hphase⟩
    split
    · exact .inl rfl
    · exact .inr rfl
  | push h hele hpush =>
    have hroom := hinv.room_of_held (by simp [PoolState.held_mk, WorkerPhase.held])
    obtain ⟨rfl, hlist, hcap⟩ := qPush_conn hpush hroom
    refine ⟨⟨ids.ids, ids.ids_lt, ids.chns, ids.given⟩, balanced.putBack ?_ hlist _, hcap.trans cap,
      by simpa using codes, hexited, fun h => absurd h hphase⟩
    rw [hele]
    split <;> rfl

end Worker

/-! ## The server -/

section Server

variable {server : ChrpcServer} {W : World χ ω}

/-- A channel is refused, or pushed to the queue with the next id. -/
theorem chrpcServerGiveChannel_cases {shared shared' : ServerShared χ} {chn : Option χ}
    {mms : ChannelStatus × Nat} {now : Int} {status : ChrpcStatus} {code : Option Nat}
    (h : chrpcServerGiveChannel server shared chn mms now = (status, code, shared')) :
    (status ≠ chrpcSuccess ∧ code = none ∧ shared' = shared) ∨
    ∃ c k q, chn = some c ∧ status = chrpcSuccess ∧ code = some k ∧
      shared.numChannels ≠ shared.q.cap ∧ qPush shared.q ⟨shared.idCounter, now, c⟩ = (k, q) ∧
      shared' = { shared with
        q := q, idCounter := shared.idCounter + 1, numChannels := shared.numChannels + 1 } := by
  cases chn with
  | none =>
    simp only [chrpcServerGiveChannel, Prod.mk.injEq] at h
    obtain ⟨rfl, rfl, rfl⟩ := h
    exact .inl ⟨by decide, rfl, rfl⟩
  | some c =>
    unfold chrpcServerGiveChannel at h
    simp only at h
    split at h
    · simp only [Prod.mk.injEq] at h
      obtain ⟨rfl, rfl, rfl⟩ := h
      exact .inl ⟨by decide, rfl, rfl⟩
    · split at h
      · simp only [Prod.mk.injEq] at h
        obtain ⟨rfl, rfl, rfl⟩ := h
        exact .inl ⟨by decide, rfl, rfl⟩
      · next hfull =>
        split at h
        · simp only [Prod.mk.injEq] at h
          obtain ⟨rfl, rfl, rfl⟩ := h
          exact .inl ⟨by decide, rfl, rfl⟩
        · simp only [Prod.mk.injEq] at h
          obtain ⟨rfl, rfl, rfl⟩ := h
          exact .inr ⟨c, _, _, rfl, rfl, rfl, hfull, rfl, rfl⟩

/-- A new channel gets an id that no other has. -/
theorem PoolIds.accept {log : PoolLog χ} {idCounter : Nat} (h : PoolIds log idCounter) {c : χ}
    (hnew : c ∉ log.given) (codes : List Nat) :
    PoolIds { log with
      given := c :: log.given
      accepted := (idCounter, c) :: log.accepted
      pushCodes := codes } (idCounter + 1) where
  ids := by
    rw [List.map_cons, List.nodup_cons]
    refine ⟨fun hmem => ?_, h.ids⟩
    obtain ⟨x, hx, heq⟩ := List.mem_map.mp hmem
    have hlt := h.ids_lt x hx
    omega
  ids_lt := by
    intro x hx
    rcases List.mem_cons.mp hx with rfl | hx
    · exact Nat.lt_succ_self _
    · exact Nat.lt_succ_of_lt (h.ids_lt x hx)
  chns := by
    rw [List.map_cons, List.nodup_cons]
    refine ⟨fun hmem => ?_, h.chns⟩
    obtain ⟨x, hx, heq⟩ := List.mem_map.mp hmem
    have hgiven := h.given x hx
    rw [heq] at hgiven
    exact hnew hgiven
  given := by
    intro x hx
    rcases List.mem_cons.mp hx with rfl | hx
    · exact List.mem_cons_self
    · exact List.mem_cons_of_mem _ (h.given x hx)

/-- A channel is accepted. -/
theorem Balanced.accept {s : PoolState χ ω} (h : Balanced server s) (hopen : s.Open)
    (hfull : s.shared.numChannels < server.attrs.maxConnections) {ele : QueueEle χ}
    {q : Queue (QueueEle χ)} (hlist : q.toList = s.shared.q.toList ++ [ele]) (idCounter : Nat)
    (given : List χ) (codes : List Nat) :
    Balanced server { s with
      shared := { s.shared with
        q := q, idCounter := idCounter, numChannels := s.shared.numChannels + 1 }
      log := { s.log with
        given := given, accepted := ele.conn :: s.log.accepted, pushCodes := codes } } := by
  classical
  have hcount := h.count hopen
  have hplaces := h.places
  rw [PoolState.queued] at hcount hplaces
  have hqueued : q.toList.map QueueEle.conn
      = s.shared.q.toList.map QueueEle.conn ++ [ele.conn] := by
    rw [hlist, List.map_append]
    rfl
  refine ⟨?_, fun _ => ?_, ?_, h.reported⟩
  · show (q.toList.map QueueEle.conn ++ s.held ++ s.log.dropped ++ s.log.drained).Perm
      (ele.conn :: s.log.accepted)
    rw [hqueued]
    refine (List.perm_iff_count.mpr fun c => ?_).trans (hplaces.cons ele.conn)
    simp only [List.count_append, List.count_cons, List.count_nil]
    omega
  · show s.shared.numChannels + 1 = (q.toList.map QueueEle.conn).length + s.held.length +
      s.uncounted.length
    rw [hqueued, List.length_append, List.length_singleton]
    omega
  · show (q.toList.map QueueEle.conn).length + s.held.length + s.uncounted.length ≤ _
    rw [hqueued, List.length_append, List.length_singleton]
    omega

/-- `delete_chrpc_server` destroys a channel of the queue. -/
theorem Balanced.drain {s : PoolState χ ω} (h : Balanced server s) (hclosed : ¬s.Open)
    {ele : QueueEle χ} {q : Queue (QueueEle χ)} (hlist : s.shared.q.toList = ele :: q.toList)
    (world' : ω) :
    Balanced server { s with
      world := world'
      shared := { s.shared with q := q }
      log := { s.log with drained := ele.conn :: s.log.drained } } := by
  classical
  have hroom := h.room
  have hplaces := h.places
  rw [PoolState.queued, hlist, List.map_cons] at hroom hplaces
  refine ⟨?_, fun hopen => absurd hopen hclosed, ?_, h.reported⟩
  · refine (List.perm_iff_count.mpr fun c => ?_).trans hplaces
    show (q.toList.map QueueEle.conn ++ s.held ++ s.log.dropped ++
      ele.conn :: s.log.drained).count c = _
    simp only [List.count_append, List.count_cons]
    omega
  · show (q.toList.map QueueEle.conn).length + s.held.length + s.uncounted.length ≤ _
    rw [List.length_cons] at hroom
    omega

/-- **Every step keeps the invariant.** -/
theorem poolStep_inv {s s' : PoolState χ ω} (hinv : PoolInv server s)
    (h : PoolStep server W s s') : PoolInv server s' := by
  obtain ⟨ids, balanced, cap, codes, exited, emptied⟩ := id hinv
  cases h with
  | give hphase hnew h =>
    rcases chrpcServerGiveChannel_cases h with
      ⟨hst, rfl, rfl⟩ | ⟨c, k, q, rfl, rfl, rfl, hfull, hpush, rfl⟩
    · rw [if_neg hst]
      exact ⟨⟨ids.ids, ids.ids_lt, ids.chns, fun x hx => List.mem_append_right _ (ids.given x hx)⟩,
        ⟨balanced.places, balanced.count, balanced.room, balanced.reported⟩, cap, codes, exited,
        emptied⟩
    · have hcount := balanced.count hphase
      have hroom := balanced.room
      -- The limit on the channels is the capacity of the queue, so there is room.
      have hlt : s.shared.q.toList.length < s.shared.q.cap := by
        rw [PoolState.queued, List.length_map] at hcount hroom
        omega
      obtain ⟨rfl, hlist, hcap⟩ := qPush_conn hpush hlt
      have hfresh : c ∉ s.log.given := hnew c rfl
      rw [if_pos rfl]
      have hbalanced := balanced.accept hphase (by omega) hlist (s.shared.idCounter + 1)
        (c :: s.log.given) (0 :: s.log.pushCodes)
      refine ⟨ids.accept hfresh _, hbalanced, hcap.trans cap, by simpa using codes, exited, ?_⟩
      intro hdeleted
      rcases hphase with hphase | hphase <;> simp [hphase] at hdeleted
  | worker h => exact workerStep_inv hinv h
  | env h =>
    exact ⟨ids, ⟨balanced.places, balanced.count, balanced.room, balanced.reported⟩, cap, codes,
      exited, emptied⟩
  | stop hphase =>
    exact ⟨ids, ⟨balanced.places, fun _ => balanced.count (.inl hphase), balanced.room,
      balanced.reported⟩, cap, codes, fun hclosed => absurd (.inr rfl) hclosed, by simp⟩
  | joined hphase h =>
    exact ⟨ids, ⟨balanced.places, fun hopen => by simp [PoolState.Open] at hopen, balanced.room,
      balanced.reported⟩, cap, codes, fun _ => h, by simp⟩
  | drain hphase h hdestroy =>
    have hclosed : ¬s.Open := by simp [PoolState.Open, hphase]
    obtain ⟨hlist, hcap⟩ := qPoll_conn h
    exact ⟨⟨ids.ids, ids.ids_lt, ids.chns, ids.given⟩, balanced.drain hclosed hlist _,
      hcap.trans cap, codes, fun _ => exited hclosed, by simp [hphase]⟩
  | deleted hphase h =>
    have hclosed : ¬s.Open := by simp [PoolState.Open, hphase]
    refine ⟨ids, ⟨balanced.places, fun hopen => by simp [PoolState.Open] at hopen, balanced.room,
      balanced.reported⟩, cap, codes, fun _ => exited hclosed, fun _ => ?_⟩
    show s.shared.q.toList.map QueueEle.conn = []
    rw [qPoll_empty h, List.map_nil]

theorem poolInv_init {s : PoolState χ ω} (h : (poolSystem server W).init s) :
    PoolInv server s := by
  obtain ⟨hserver, -, ⟨q, hq, hshared⟩, hworkers, hphase, hlog⟩ := h
  obtain ⟨hcap, hnil⟩ := newQueue_eq_some hq
  have hqueued : s.queued = [] := by rw [PoolState.queued, hshared, hnil, List.map_nil]
  have htop : ∀ w ∈ s.workers, w = .top := by
    rw [hworkers]
    exact fun w hw => List.eq_of_mem_replicate hw
  have hheld : s.held = [] := List.flatMap_eq_nil_iff.mpr fun w hw => by rw [htop w hw]; rfl
  have huncounted : s.uncounted = [] :=
    List.flatMap_eq_nil_iff.mpr fun w hw => by rw [htop w hw]; rfl
  have hunreported : s.unreported = [] :=
    List.flatMap_eq_nil_iff.mpr fun w hw => by rw [htop w hw]; rfl
  refine ⟨?_, ⟨?_, ?_, ?_, ?_⟩, by rw [hshared]; exact hcap, by simp [hlog], ?_, fun _ => hqueued⟩
  · rw [hlog]
    exact ⟨List.nodup_nil, by simp, List.nodup_nil, by simp⟩
  · simp [hqueued, hheld, hlog]
  · simp [hqueued, hheld, huncounted, hshared]
  · simp [hqueued, hheld, huncounted]
  · simp [hunreported, hlog]
  · intro hclosed
    exact absurd (.inl hphase) hclosed

theorem poolSystem_inv {s : PoolState χ ω} (h : (poolSystem server W).Reachable s) :
    PoolInv server s :=
  TransitionSystem.Inductive.reachable
    (I := PoolInv server) ⟨fun _ => poolInv_init, fun _ _ => poolStep_inv⟩ h

/--
**No channel is lost, duplicated or served twice at once.** Every accepted channel is in the
queue, held by one worker, or destroyed; the counter is right and bounded; every push finds
room; ids are distinct; `on_disconnect` is called at most once for a channel, and a worker has
destroyed it; and a deleted server has destroyed every channel.
-/
theorem poolSystem_channels {s : PoolState χ ω} (h : (poolSystem server W).Reachable s) :
    (s.queued ++ s.held ++ s.log.destroyed).Perm s.log.accepted ∧
    (s.log.accepted.map Prod.snd).Nodup ∧
    (s.Open → s.shared.numChannels = s.queued.length + s.held.length + s.uncounted.length ∧
      s.shared.numChannels ≤ server.attrs.maxConnections) ∧
    (∀ code ∈ s.log.pushCodes, code = 0) ∧
    (s.log.accepted.map Prod.fst).Nodup ∧
    s.log.disconnected.Nodup ∧ (∀ id ∈ s.log.disconnected, ∃ chn, (id, chn) ∈ s.log.dropped) ∧
    (s.phase = .deleted → s.log.destroyed.Perm s.log.accepted) := by
  have hinv := poolSystem_inv h
  obtain ⟨ids, balanced, cap, codes, exited, emptied⟩ := id hinv
  have hplaces : (s.queued ++ s.held ++ s.log.destroyed).Perm s.log.accepted := by
    rw [PoolLog.destroyed, ← List.append_assoc]
    exact balanced.places
  -- A channel is dropped once, as it is in one place at a time.
  have hdropped : (s.log.dropped.map Prod.fst).Nodup := by
    have hall : ((s.queued ++ s.held ++ s.log.dropped ++ s.log.drained).map Prod.fst).Nodup :=
      (balanced.places.map _).nodup_iff.mpr ids.ids
    rw [List.map_append, List.map_append] at hall
    exact hall.of_append_left.of_append_right
  refine ⟨hplaces, ids.chns, fun hopen => ⟨balanced.count hopen, ?_⟩, codes, ids.ids, ?_, ?_, ?_⟩
  · rw [balanced.count hopen]
    exact balanced.room
  · have hnodup : (s.log.disconnected ++ s.unreported).Nodup := by
      obtain ⟨l, hperm, hsub⟩ := balanced.reported
      exact hperm.nodup_iff.mp (hsub.nodup hdropped)
    exact hnodup.of_append_left
  · intro id hid
    have hmem := balanced.reported.subset (List.mem_append_left _ hid)
    obtain ⟨⟨_, chn⟩, hconn, rfl⟩ := List.mem_map.mp hmem
    exact ⟨chn, hconn⟩
  · intro hdeleted
    have hclosed : ¬s.Open := by simp [PoolState.Open, hdeleted]
    have hheld : s.held = [] := by
      rw [PoolState.held, List.flatMap_eq_nil_iff]
      intro w hw
      rw [exited hclosed w hw]
      rfl
    rwa [emptied hdeleted, hheld] at hplaces

end Server

/-! ## A run -/

section Run

variable {χ ω : Type} {server : ChrpcServer} {W : World χ ω}

/-- The worker at index `i` takes a step. -/
theorem reachable_worker {s : PoolState χ ω} {w : WorkerPhase χ} {v : WorkerView χ ω} (i : Nat)
    (h : (poolSystem server W).Reachable s) (hw : s.workers[i]? = some w)
    (hstep : WorkerStep server W ⟨s.world, s.shared, s.log, w⟩ v) :
    (poolSystem server W).Reachable
      ⟨v.world, v.shared, s.workers.set i v.phase, s.phase, v.log⟩ := by
  obtain ⟨hi, rfl⟩ := List.getElem?_eq_some_iff.mp hw
  have hsplit : s.workers.take i ++ s.workers[i] :: s.workers.drop (i + 1) = s.workers := by
    rw [← List.drop_eq_getElem_cons hi, List.take_append_drop]
  have hpool : PoolStep server W
      ⟨s.world, s.shared, s.workers.take i ++ s.workers[i] :: s.workers.drop (i + 1), s.phase, s.log⟩
      ⟨v.world, v.shared, s.workers.take i ++ v.phase :: s.workers.drop (i + 1), s.phase, v.log⟩ :=
    .worker hstep
  rw [hsplit] at hpool
  rw [List.set_eq_take_append_cons_drop, if_pos hi]
  exact h.step hpool

/-- A channel is accepted. -/
theorem reachable_given {s : PoolState χ ω} {chn : χ} {mms : ChannelStatus × Nat} {now : Int}
    {code : Nat} {shared' : ServerShared χ} (h : (poolSystem server W).Reachable s)
    (hphase : s.phase = .running) (hnew : chn ∉ s.log.given)
    (hgive : chrpcServerGiveChannel server s.shared (some chn) mms now
      = (chrpcSuccess, some code, shared')) :
    (poolSystem server W).Reachable { s with
      shared := shared'
      log := { s.log with
        given := chn :: s.log.given
        accepted := (s.shared.idCounter, chn) :: s.log.accepted
        pushCodes := code :: s.log.pushCodes } } :=
  h.step (.give (.inl hphase) (by simpa using hnew) hgive)

/-- No message on the channel of the worker at index `i`. -/
theorem reachable_empty {s : PoolState χ ω} {ele : QueueEle χ} {id : Nat} {buf : Bytes} (i : Nat)
    (h : (poolSystem server W).Reachable s)
    (hw : s.workers[i]? = some (.serving ele (chrpcPollChannel server id buf)))
    (hrefresh : W.op ele.chn .refresh s.world .success s.world)
    (hreceive : W.op ele.chn (.receive server.attrs.maxMsgSize) s.world (.error .noIncomingMsg)
      s.world) :
    (poolSystem server W).Reachable
      { s with workers := s.workers.set i (.serving ele (.done chrpcClientChannelEmpty)) } := by
  obtain ⟨hi, -⟩ := List.getElem?_eq_some_iff.mp hw
  have hfirst := reachable_worker i h hw (.perform hrefresh)
  have hlast := reachable_worker i hfirst (List.getElem?_set_self hi)
    (.perform (o := .receive server.attrs.maxMsgSize) hreceive)
  rwa [List.set_set] at hlast

/-- The channel of the worker at index `i` fails. -/
theorem reachable_failed {s : PoolState χ ω} {ele : QueueEle χ} {id : Nat} {buf : Bytes} (i : Nat)
    (h : (poolSystem server W).Reachable s)
    (hw : s.workers[i]? = some (.serving ele (chrpcPollChannel server id buf)))
    (hrefresh : W.op ele.chn .refresh s.world .unknownError s.world) :
    (poolSystem server W).Reachable
      { s with workers := s.workers.set i (.serving ele (.done chrpcClientChannelError)) } :=
  reachable_worker i h hw (.perform hrefresh)

end Run

/-- Two channels are given to a server of two workers. One worker finds no message and pushes its
channel back; the other one's channel fails, and is given up. Then the server is deleted. -/
theorem poolSystem_channels_served :
    ∃ (server : ChrpcServer) (W : World Nat Unit) (s : PoolState Nat Unit),
      (poolSystem server W).Reachable s ∧ s.log.accepted = [(1, 8), (0, 7)] ∧
      s.log.pushCodes.length = 3 ∧ s.log.dropped = [(1, 8)] ∧ s.log.disconnected = [1] ∧
      s.log.destroyed.Perm s.log.accepted ∧
      (∀ id ∈ s.log.disconnected, ∃ chn, (id, chn) ∈ s.log.dropped) := by
  have hrun : ∃ q : Queue (QueueEle Nat), newQueue 2 = some q ∧ qCap q = 2 ∧
      ∃ q₁, qPush q ⟨0, 5, 7⟩ = (0, q₁) ∧ qCap q₁ = 2 ∧ ∃ q₂, qPush q₁ ⟨1, 5, 8⟩ = (0, q₂) ∧
      ∃ q₃, qPoll q₂ = (0, some ⟨0, 5, 7⟩, q₃) ∧ ∃ q₄, qPoll q₃ = (0, some ⟨1, 5, 8⟩, q₄) ∧
      ∃ q₅, qPush q₄ ⟨0, 5, 7⟩ = (0, q₅) ∧ ∃ q₆, qPoll q₅ = (0, some ⟨0, 5, 7⟩, q₆) ∧
      (qPoll q₆).1 ≠ 0 :=
    ⟨_, rfl, rfl, _, rfl, rfl, _, rfl, _, rfl, _, rfl, _, rfl, _, rfl, by decide⟩
  obtain ⟨q, hq, hcap, q₁, hpush₀, hcap₁, q₂, hpush₁, q₃, hpoll₀, q₄, hpoll₁, q₅, hback, q₆, hdrain,
    hempty⟩ := hrun
  let server : ChrpcServer := ⟨⟨128, 2, 2, 5, true⟩, ⟨newHashMap sHash sEquals, []⟩⟩
  let W : World Nat Unit :=
    ⟨fun _ => True, fun _ _ _ _ _ => True, fun _ _ _ => True, fun _ _ => True⟩
  have hinit : (poolSystem server W).Reachable
      ⟨(), ⟨0, 0, q, false⟩, [.top, .top], .running, ⟨[], [], [], [], [], []⟩⟩ :=
    .init ⟨rfl, trivial, ⟨q, hq, rfl⟩, rfl, rfl, rfl⟩
  have hgive₀ : chrpcServerGiveChannel server ⟨0, 0, q, false⟩ (some 7) (.success, 128) 5
      = (chrpcSuccess, some 0, ⟨1, 1, q₁, false⟩) := by
    simp [chrpcServerGiveChannel, server, chrpcServerBufMinSize, hcap, hpush₀]
  have hgive₁ : chrpcServerGiveChannel server ⟨1, 1, q₁, false⟩ (some 8) (.success, 128) 5
      = (chrpcSuccess, some 0, ⟨2, 2, q₂, false⟩) := by
    simp [chrpcServerGiveChannel, server, chrpcServerBufMinSize, hcap₁, hpush₁]
  let log : PoolLog Nat := ⟨[8, 7], [(1, 8), (0, 7)], [], [], [], [0, 0]⟩
  have hgiven : (poolSystem server W).Reachable
      ⟨(), ⟨2, 2, q₂, false⟩, [.top, .top], .running, log⟩ :=
    reachable_given (reachable_given hinit rfl (by simp) hgive₀) rfl (by simp) hgive₁
  -- Each worker polls one of the channels.
  let buf := List.replicate 128 (0 : UInt8)
  have hserving₀ : (poolSystem server W).Reachable ⟨(), ⟨2, 2, q₃, false⟩,
      [.serving ⟨0, 5, 7⟩ (chrpcPollChannel server 0 buf), .top], .running, log⟩ :=
    reachable_worker 0 (reachable_worker 0 hgiven rfl (.stay rfl)) rfl (.poll hpoll₀ rfl)
  have hserving₁ : (poolSystem server W).Reachable ⟨(), ⟨2, 2, q₄, false⟩,
      [.serving ⟨0, 5, 7⟩ (chrpcPollChannel server 0 buf),
        .serving ⟨1, 5, 8⟩ (chrpcPollChannel server 1 buf)], .running, log⟩ :=
    reachable_worker 1 (reachable_worker 1 hserving₀ rfl (.stay rfl)) rfl (.poll hpoll₁ rfl)
  have hpolled : (poolSystem server W).Reachable ⟨(), ⟨2, 2, q₄, false⟩,
      [.serving ⟨0, 5, 7⟩ (.done chrpcClientChannelEmpty),
        .serving ⟨1, 5, 8⟩ (.done chrpcClientChannelError)], .running, log⟩ :=
    reachable_failed 1 (reachable_empty 0 hserving₁ rfl trivial trivial) rfl trivial
  have hback : (poolSystem server W).Reachable ⟨(), ⟨2, 2, q₅, false⟩,
      [.top, .serving ⟨1, 5, 8⟩ (.done chrpcClientChannelError)], .running,
      { log with pushCodes := [0, 0, 0] }⟩ :=
    reachable_worker 0 hpolled rfl (.push
      (h := (rfl : workerDisconnects server.attrs (5 - 5) chrpcClientChannelEmpty = false)) rfl hback)
  let log' : PoolLog Nat := ⟨[8, 7], [(1, 8), (0, 7)], [(1, 8)], [], [1], [0, 0, 0]⟩
  have hdropped : (poolSystem server W).Reachable
      ⟨(), ⟨2, 1, q₅, false⟩, [.top, .top], .running, log'⟩ :=
    reachable_worker 1 (reachable_worker 1 (reachable_worker 1 hback rfl (.drop
      (h := (rfl : workerDisconnects server.attrs (5 - 5) chrpcClientChannelError = true)) trivial))
      rfl .decrement) rfl .disconnect
  have hstopped : (poolSystem server W).Reachable
      ⟨(), ⟨2, 1, q₅, true⟩, [.exited, .exited], .stopping, log'⟩ :=
    reachable_worker 1 (reachable_worker 0 (hdropped.step (.stop rfl)) rfl (.exit rfl)) rfl
      (.exit rfl)
  have hdrained : (poolSystem server W).Reachable
      ⟨(), ⟨2, 1, q₆, true⟩, [.exited, .exited], .draining, { log' with drained := [(0, 7)] }⟩ :=
    (hstopped.step (.joined rfl (by simp))).step (PoolStep.drain (W := W)
      (s := ⟨(), ⟨2, 1, q₅, true⟩, [.exited, .exited], .draining, log'⟩) rfl hdrain
      (show W.destroy 7 () () from trivial))
  have hdeleted := hdrained.step (.deleted rfl hempty)
  obtain ⟨-, -, -, -, -, -, hdisconnected, hall⟩ := poolSystem_channels hdeleted
  exact ⟨server, W, _, hdeleted, rfl, rfl, rfl, rfl, hall rfl, hdisconnected⟩

end Chlibs.Rpc

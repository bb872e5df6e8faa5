import Chlibs.Chat.RoomRuns
import Chlibs.Infra.Schedules

/-!
# The chatroom among threads

Any number of workers call the functions of `chatroom.h` on one chatroom, and take turns in any
order, operation by operation.

* `chatroom_defined` — no freed mailbox is used, and no lock is given back that is not held.
* `chatroom_exclusive` — what one worker accesses, no other changes.
* `chatroom_progress` — the workers do not block each other for good.
* `chatroom_linearizable` — each call acts on the room at one moment.
* `deleteChatroomState_spec` — in the end every mailbox is deleted, once.
-/

namespace Chlibs.Chat

open Infra Serial Util Rpc

section Threads

variable {τ : Type} [DecidableEq τ] {garbage : Garbage} {iterChainInd : Nat} {iter : Option Nat}

/-- Threads that share a new chatroom. -/
abbrev RoomThreads (τ : Type) := Threads τ RoomCall Nat Chatroom RoomAnswer RoomAcc.Ans

def roomThreads (τ : Type) [DecidableEq τ] (garbage : Garbage) (iterChainInd : Nat)
    (iter : Option Nat) : TransitionSystem (RoomThreads τ) :=
  threadSystem (roomData garbage) roomBody (newChatroomState iterChainInd iter)

theorem newChatroomState_consistent : Consistent (newChatroomState iterChainInd iter) :=
  ⟨_, Room.ok_empty, newChatroomState_shows iterChainInd iter⟩

/-! ## Two logins -/

theorem ann_noNul : (0 : UInt8) ∉ [97, 110, 110] := by decide

def ann : CString := ⟨[97, 110, 110], ann_noNul⟩

theorem bob_noNul : (0 : UInt8) ∉ [98, 111, 98] := by decide

def bob : CString := ⟨[98, 111, 98], bob_noNul⟩

/-- A worker that logs in a channel has the lock for writing, and goes to the first map. Another one
waits for the lock. -/
theorem login_reachable : ∃ S : RoomThreads Bool,
    (roomThreads Bool ⟨0, none⟩ 0 none).Reachable S ∧ S.IsAt true (.idMapContains 7) ∧
      S.AwaitsWriting false ∧ S.locks.attempt false (.wrlock : LockOp RoomAcc Nat) = .waits := by
  have hcalls := TransitionSystem.Reachable.step (S := roomThreads Bool ⟨0, none⟩ 0 none)
    (.init rfl) (.calls (t := true) (.login 7 ann) rfl)
  have hcalls' := hcalls.step (.calls (t := false) (.login 8 ann) rfl)
  have hlocks := hcalls'.step (.performs (t := true) (o := .wrlock) rfl rfl rfl)
  exact ⟨_, hlocks, ⟨_, _, rfl⟩, ⟨_, _, rfl⟩, rfl⟩

/-- What a schedule of two workers leads to. -/
theorem roomThreads_run (turns : List (Turn Bool RoomCall)) (P : RoomThreads Bool → Prop)
    [DecidablePred P] (h : ((Threads.start (newChatroomState 0 none)).run (roomData ⟨0, none⟩)
      roomBody turns).any (fun S => P S) = true) :
    ∃ S, (roomThreads Bool ⟨0, none⟩ 0 none).Reachable S ∧ P S :=
  Threads.exists_reachable h

/-- Both log in under one name. The second is refused, and the first returns after it. -/
theorem loggedIn_reachable : ∃ S : RoomThreads Bool,
    (roomThreads Bool ⟨0, none⟩ 0 none).Reachable S ∧ (∀ t, S.running t = none) ∧
      S.history = [.calls true (.login 7 ann), .calls false (.login 8 ann),
        .returns false (.status .usernameTaken), .returns true (.status .success)] :=
  roomThreads_run [.calls true (.login 7 ann), .goes true 1, .calls false (.login 8 ann),
    .goes true 6, .goes false 5, .goes true 1] _ (by decide +kernel)

/-! ## Workers -/

variable {S : RoomThreads τ}

/-- **Nothing that a worker does is undefined**: no `NULL` is dereferenced, every mailbox and mutex
that is used is there, and every lock that is given back is held. -/
theorem chatroom_defined (h : (roomThreads τ garbage iterChainInd iter).Reachable S) {t : τ}
    {c : RoomCall} {p : RoomProg RoomAnswer} (hrun : S.running t = some (c, p)) :
    p ≠ .fault ∧ ∀ o k, p = .perform o k →
      (∃ y, (roomData garbage).soloOp o S.data = some y) ∧ S.locks.attempt t o ≠ .undefined :=
  threads_defined roomBody_sound newChatroomState_consistent h hrun

theorem chatroom_defined_login : ∃ S : RoomThreads Bool, ∃ y,
    (roomData ⟨0, none⟩).soloOp (.access (.idMapContains 7)) S.data = some y := by
  obtain ⟨S, h, ⟨c, k, hrun⟩, -⟩ := login_reachable
  exact ⟨S, ((chatroom_defined h hrun).2 _ _ rfl).1⟩

/-- **No data race**: of two workers that are about to access the maps or one mailbox, neither
changes what the other accesses. Who changes the maps, or deletes a mailbox, is the only one that
has any lock. -/
theorem chatroom_exclusive (h : (roomThreads τ garbage iterChainInd iter).Reachable S) {t : τ}
    {a : RoomAcc} (ha : S.IsAt t a) :
    (∀ u b, t ≠ u → S.IsAt u b → ¬a.footprint.Conflicts b.footprint) ∧
      (a.footprint = .writes →
        S.locks.writer = some t ∧ S.locks.readers = [] ∧ ∀ mb, S.locks.owner mb = none) :=
  ⟨fun _ _ htu hb => threads_exclusive roomBody_sound newChatroomState_consistent h htu ha hb,
    threads_alone roomBody_sound newChatroomState_consistent h ha⟩

theorem chatroom_exclusive_login : ∃ S : RoomThreads Bool, S.IsAt true (.idMapContains 7) ∧
    ∀ u b, true ≠ u → S.IsAt u b → ¬(RoomAcc.idMapContains 7).footprint.Conflicts b.footprint := by
  obtain ⟨S, h, ha, -⟩ := login_reachable
  exact ⟨S, ha, (chatroom_exclusive h ha).1⟩

/-- **No deadlock**: while a worker is in a call, some worker can go on, even if readers wait for
those that wait to write. -/
theorem chatroom_progress (h : (roomThreads τ garbage iterChainInd iter).Reachable S) {t : τ}
    (ht : S.running t ≠ none) : ∃ u, S.Ready (roomData garbage) u :=
  threads_progress roomBody_sound newChatroomState_consistent h ht

theorem chatroom_progress_login : ∃ (S : RoomThreads Bool) (u : Bool),
    S.AwaitsWriting false ∧ S.locks.attempt false (.wrlock : LockOp RoomAcc Nat) = .waits ∧
      S.Ready (roomData ⟨0, none⟩) u := by
  obtain ⟨S, h, -, hawaits, hwaits⟩ := login_reachable
  obtain ⟨c, k, hrun⟩ := hawaits
  obtain ⟨u, hu⟩ := chatroom_progress h (t := false) (by simp [hrun])
  exact ⟨S, u, ⟨c, k, hrun⟩, hwaits, hu⟩

/-- Each function, uninterrupted, does what its call means. -/
theorem room_simulates (garbage : Garbage) (s : Chatroom) (r : Room) (c : RoomCall)
    (h : Shows s r ∧ r.Ok) :
    ∃ s', (roomData garbage).solo (roomBody c) s = some ((roomStep r c).1, s') ∧
      Shows s' (roomStep r c).2 ∧ (roomStep r c).2.Ok := by
  obtain ⟨s', hrun, hshows⟩ := roomBody_solo garbage h.1 h.2 c
  exact ⟨s', hrun, hshows, h.2.step c⟩

theorem room_linearizes (h : (roomThreads τ garbage iterChainInd iter).Reachable S) :
    ∃ calls, Linearizes roomStep .empty S.history calls ∧
      ((∀ t, S.running t = none) → Shows S.data (roomAfter calls)) := by
  obtain ⟨calls, hlin, hidle⟩ := threads_linearize _ roomData_lawful roomBody_follows
    (room_simulates garbage) ⟨newChatroomState_shows iterChainInd iter, Room.ok_empty⟩ h
  exact ⟨calls, hlin, fun hnone => (hidle hnone).1⟩

/-- **Linearizability**: each call acts on the room at one moment between its call and its return,
and in the order of these moments the answers are those of the room. When nobody is in a call, the
maps and the mailboxes hold that room, in which names and mailboxes belong together. -/
theorem chatroom_linearizable (h : (roomThreads τ garbage iterChainInd iter).Reachable S) :
    ∃ calls, Linearizes roomStep .empty S.history calls ∧
      ((∀ t, S.running t = none) → Shows S.data (roomAfter calls) ∧
        (roomAfter calls).Ok) := by
  obtain ⟨calls, hlin, hidle⟩ := room_linearizes h
  exact ⟨calls, hlin, fun hnone => ⟨hidle hnone, roomAfter_ok calls⟩⟩

theorem chatroom_linearizable_login : ∃ (s : Chatroom) (calls : List RoomCall),
    Linearizes (τ := Bool) roomStep .empty
      [.calls true (.login 7 ann), .calls false (.login 8 ann),
        .returns false (.status .usernameTaken), .returns true (.status .success)] calls ∧
      Shows s (roomAfter calls) := by
  obtain ⟨S, h, hdone, hhistory⟩ := loggedIn_reachable
  obtain ⟨calls, hlin, hshows⟩ := chatroom_linearizable h
  exact ⟨S.data, calls, hhistory ▸ hlin, (hshows hdone).1⟩

end Threads

/-! ## The end -/

section Delete

/-- The mailboxes of the pairs are deleted, and no others. -/
theorem deleteLoop_spec : ∀ (kvps : List (KeyVal CString Nat)) {s : Chatroom},
    (kvps.map KeyVal.value).Nodup →
    (∀ kv ∈ kvps, ∃ list msgs, s.boxes.load kv.value = some list ∧ list.Holds msgs) →
    ∃ s', deleteLoop kvps s = some ((), s') ∧
      ∀ mb, s'.boxes.load mb = if mb ∈ kvps.map KeyVal.value then none else s.boxes.load mb
  | [], s, _, _ => ⟨s, rfl, by simp⟩
  | kv :: kvps, s, hnodup, hlive => by
    obtain ⟨hfresh, hnodup⟩ := List.nodup_cons.mp hnodup
    obtain ⟨list, msgs, hload, hholds⟩ := hlive kv List.mem_cons_self
    have hdelete := deleteChatroomMailbox_eq hload hholds
    have hlive' : ∀ kv' ∈ kvps, ∃ list msgs,
        (s.boxes.put kv.value none).load kv'.value = some list ∧ list.Holds msgs := by
      intro kv' hkv'
      obtain ⟨list', msgs', hload', hholds'⟩ := hlive kv' (List.mem_cons_of_mem _ hkv')
      refine ⟨list', msgs', ?_, hholds'⟩
      rw [Heap.load_put_of_ne, hload']
      intro heq
      exact hfresh (List.mem_map.mpr ⟨kv', hkv', heq⟩)
    obtain ⟨s', hloop, hrest⟩ :=
      deleteLoop_spec kvps (s := { s with boxes := s.boxes.put kv.value none }) hnodup hlive'
    refine ⟨s', ?_, fun mb => ?_⟩
    · rw [deleteLoop, CallM.bind_of_some hdelete, hloop]
    · rw [hrest, Heap.load_put hload]
      by_cases hmb : mb = kv.value
      · simp [hmb]
      · simp [hmb]

/-- The addresses in the map are different ones. -/
theorem Shows.nodup_values {s : Chatroom} {r : Room} (h : Shows s r) :
    ((hmKvps s.mailboxes.hm).map KeyVal.value).Nodup := by
  have hkeys := h.mailboxes.inv.nodup_keys
  refine List.pairwise_map.mpr ((List.pairwise_map.mp hkeys).imp_of_mem ?_)
  intro kv kv' hkv hkv' hne heq
  have hmem := hmGet_eq_some_iff_mem h.mailboxes
  exact hne (h.unique ((hmem _ _).mpr ⟨kv, hkv, rfl, rfl⟩)
    ((hmem _ _).mpr ⟨kv', hkv', rfl, heq.symm⟩))

theorem deleteChatroomState_of_shows {s : Chatroom} {r : Room} (h : Shows s r) :
    ∃ s', deleteChatroomState s = some ((), s') ∧ ∀ mb, s'.boxes.load mb = none := by
  obtain ⟨m', hkvps, -, -⟩ := h.iterateMailboxes
  have hmem := hmGet_eq_some_iff_mem h.mailboxes
  have hlive : ∀ kv ∈ hmKvps s.mailboxes.hm, ∃ list msgs,
      s.boxes.load kv.value = some list ∧ list.Holds msgs := by
    intro kv hkv
    have hget := (hmem _ _).mpr ⟨kv, hkv, rfl, rfl⟩
    obtain ⟨msgs, hmsgs⟩ := Option.isSome_iff_exists.mp (h.bound hget)
    obtain ⟨list, hload, hholds⟩ := h.box_unique hget hmsgs
    exact ⟨list, msgs, hload, hholds⟩
  obtain ⟨s', hloop, hrest⟩ :=
    deleteLoop_spec (hmKvps s.mailboxes.hm) (s := { s with mailboxes := m' }) h.nodup_values hlive
  refine ⟨s', ?_, fun mb => ?_⟩
  · unfold deleteChatroomState
    rw [CallM.bind_of_some hkvps, hloop]
  · rw [hrest]
    split
    · rfl
    · next hnot =>
      -- A mailbox that nobody has in the map is nowhere.
      rw [Option.eq_none_iff_forall_ne_some]
      intro list hload
      obtain ⟨name, hget⟩ := h.live hload
      obtain ⟨kv, hkv, -, hvalue⟩ := (hmem _ _).mp hget
      exact hnot (List.mem_map.mpr ⟨kv, hkv, hvalue⟩)

/-- **No mailbox is lost**: when the workers are done, whatever they did, every mailbox that is left
is deleted, once, with its messages. -/
theorem deleteChatroomState_spec {τ : Type} [DecidableEq τ] {garbage : Garbage} {iterChainInd : Nat}
    {iter : Option Nat} {S : RoomThreads τ}
    (h : (roomThreads τ garbage iterChainInd iter).Reachable S)
    (hdone : ∀ t, S.running t = none) :
    ∃ s', deleteChatroomState S.data = some ((), s') ∧ ∀ mb, s'.boxes.load mb = none := by
  obtain ⟨H, A, -, ⟨r, -, hshows⟩, hidle⟩ :=
    threads_explained roomBody_sound newChatroomState_consistent h
  rw [hidle hdone]
  exact deleteChatroomState_of_shows hshows

theorem deleteChatroomState_spec_login : ∃ s s' : Chatroom,
    deleteChatroomState s = some ((), s') ∧ ∀ mb, s'.boxes.load mb = none := by
  obtain ⟨S, h, hdone, -⟩ := loggedIn_reachable
  obtain ⟨s', hdelete, hnone⟩ := deleteChatroomState_spec h hdone
  exact ⟨S.data, s', hdelete, hnone⟩

end Delete

end Chlibs.Chat

import Chlibs.Chat.Locking
import Chlibs.Chat.Room

/-!
# The chatroom holds a room

* `Shows` — how the maps and the mailboxes hold a `Room`.
* `roomBody_solo` — **each function, uninterrupted, does what its call means for the room.**
* `roomBody_sound` — what threads need to know of the functions.
-/

namespace Chlibs.Chat

open Infra Serial Util Rpc

variable {garbage : Garbage}

/-- The maps bind what the room says. Each mailbox is at an address of its own, and none is
forgotten. -/
structure Shows (s : Chatroom) (r : Room) : Prop where
  idMap : s.idMap.Exact
  mailboxes : s.mailboxes.hm.Exact
  user : ∀ id, hmGet s.idMap id = r.user id
  box : ∀ {name msgs}, r.box name = some msgs →
    ∃ mb list, hmGet s.mailboxes.hm name = some mb ∧ s.boxes.load mb = some list ∧ list.Holds msgs
  bound : ∀ {name mb}, hmGet s.mailboxes.hm name = some mb → (r.box name).isSome
  unique : ∀ {name name' mb}, hmGet s.mailboxes.hm name = some mb →
    hmGet s.mailboxes.hm name' = some mb → name = name'
  live : ∀ {mb list}, s.boxes.load mb = some list → ∃ name, hmGet s.mailboxes.hm name = some mb

theorem newChatroomState_shows (iterChainInd : Nat) (iter : Option Nat) :
    Shows (newChatroomState iterChainInd iter) .empty where
  idMap := newHashMap_exact (by simp [chrpcChannelIdEqualsFunc])
  mailboxes := newHashMap_exact sEquals_iff
  user := hmGet_newHashMap (by simp [chrpcChannelIdEqualsFunc])
  box h := by cases h
  bound {name mb} h := by
    have hnone : hmGet (newHashMap sHash sEquals : HashMap CString Nat) name = none :=
      hmGet_newHashMap sEquals_iff name
    rw [newChatroomState, hnone] at h
    cases h
  unique {name name' mb} h _ := by
    have hnone : hmGet (newHashMap sHash sEquals : HashMap CString Nat) name = none :=
      hmGet_newHashMap sEquals_iff name
    rw [newChatroomState, hnone] at h
    cases h
  live h := by cases h

/-! ## Steps of a run -/

section Solo

variable {α β : Type} {s s' : Chatroom}

theorem solo_bind_of_some {p : RoomProg α} {f : α → RoomProg β} {x : α}
    (h : (roomData garbage).solo p s = some (x, s')) :
    (roomData garbage).solo (p >>= f) s = (roomData garbage).solo (f x) s' := by
  rw [Guarded.solo_bind, h]
  rfl

theorem solo_access {a : RoomAcc} {x : a.Ans} (h : roomAccess garbage a s = some (x, s')) :
    (roomData garbage).solo (access a) s = some (x, s') := by
  show ((roomAccess garbage a s).bind fun r => some (r.1, r.2)) = _
  rw [h]
  rfl

/-- Nobody is there, so the global lock is free. -/
theorem solo_underRdlock (p : RoomProg α) :
    (roomData garbage).solo (underRdlock p) s = (roomData garbage).solo p s := by
  show (roomData garbage).solo (p >>= fun x => safePthreadRwlockUnlock >>= fun _ => pure x) s = _
  rw [Guarded.solo_bind]
  cases (roomData garbage).solo p s <;> rfl

theorem solo_underWrlock (p : RoomProg α) :
    (roomData garbage).solo (underWrlock p) s = (roomData garbage).solo p s :=
  solo_underRdlock p

/-- The mutex of a mailbox that is there. -/
theorem solo_mutexLock {mb : Nat} (h : (s.boxes.load mb).isSome) :
    (roomData garbage).solo (safePthreadMutexLock mb) s = some ((), s) := by
  have hop : (roomData garbage).soloOp (.lock mb) s = some ((), s) := if_pos (live_iff.mpr h)
  show ((roomData garbage).soloOp (.lock mb) s).bind _ = _
  rw [hop]
  rfl

theorem solo_mutexUnlock {mb : Nat} (h : (s.boxes.load mb).isSome) :
    (roomData garbage).solo (safePthreadMutexUnlock mb) s = some ((), s) := by
  have hop : (roomData garbage).soloOp (.unlock mb) s = some ((), s) := if_pos (live_iff.mpr h)
  show ((roomData garbage).soloOp (.unlock mb) s).bind _ = _
  rw [hop]
  rfl

end Solo

variable (garbage)

/-! ## Mailboxes -/

section Mailboxes

variable {s : Chatroom} {r : Room} {name : CString} {mb : Nat} {list list' : ChatroomMailbox}
  {msgs msgs' : List ChatroomMessage}

/-- Another mailbox at the address of one. -/
def putBox (s : Chatroom) (mb : Nat) (list : ChatroomMailbox) : Chatroom :=
  Chatroom.boxesPart.put s mb list

theorem Shows.box_unique (h : Shows s r) (hget : hmGet s.mailboxes.hm name = some mb)
    (hmsgs : r.box name = some msgs) : ∃ list, s.boxes.load mb = some list ∧ list.Holds msgs := by
  obtain ⟨mb', list, hget', hload, hholds⟩ := h.box hmsgs
  rw [hget] at hget'
  cases hget'
  exact ⟨list, hload, hholds⟩

/-- **Other messages in one mailbox.** -/
theorem Shows.put (h : Shows s r) (hget : hmGet s.mailboxes.hm name = some mb)
    (hload : s.boxes.load mb = some list) (hholds : list'.Holds msgs') :
    Shows (putBox s mb list') (r.setBox name msgs') where
  idMap := h.idMap
  mailboxes := h.mailboxes
  user := h.user
  box {name' msgs} hmsgs := by
    by_cases hn : name' = name
    · simp only [Room.setBox, hn, Function.update_self, Option.some.injEq] at hmsgs
      exact ⟨mb, list', by rw [hn]; exact hget,
        load_boxes_put hload list', hmsgs ▸ hholds⟩
    · simp only [Room.setBox, Function.update_of_ne hn] at hmsgs
      obtain ⟨mb', list, hget', hload', hholds'⟩ := h.box hmsgs
      have hne : mb' ≠ mb := by
        rintro rfl
        exact hn (h.unique hget' hget)
      exact ⟨mb', list, hget', (Part.load_put_of_ne Chatroom.boxesPart s hne list').trans hload',
        hholds'⟩
  bound {name' mb'} hget' := by
    by_cases hn : name' = name
    · simp [Room.setBox, hn]
    · simp only [Room.setBox, Function.update_of_ne hn]
      exact h.bound hget'
  unique := h.unique
  live {mb' list₁} hload' := by
    by_cases hne : mb' = mb
    · exact ⟨name, hne ▸ hget⟩
    · exact h.live ((Part.load_put_of_ne Chatroom.boxesPart s hne list').symm.trans hload')

/-- A call on one mailbox. -/
theorem Shows.call (h : Shows s r) (hget : hmGet s.mailboxes.hm name = some mb)
    (hload : s.boxes.load mb = some list) {α : Type} {p : CallM ChatroomMailbox α} {x : α}
    (hrun : p list = some (x, list')) (hholds : list'.Holds msgs') :
    onBlock Chatroom.boxesPart mb p s = some (x, putBox s mb list') ∧
      Shows (putBox s mb list') (r.setBox name msgs') :=
  ⟨onBlock_boxes hload hrun, h.put hget hload hholds⟩

theorem Room.setBox_setBox (r : Room) (name : CString) (msgs msgs' : List ChatroomMessage) :
    (r.setBox name msgs).setBox name msgs' = r.setBox name msgs' := by
  simp [Room.setBox]

theorem Room.setBox_self (hmsgs : r.box name = some msgs) : r.setBox name msgs = r := by
  unfold Room.setBox
  rw [← hmsgs, Function.update_eq_self]

theorem isSome_putBox (hload : s.boxes.load mb = some list) :
    ((putBox s mb list').boxes.load mb).isSome := by
  rw [putBox, load_boxes_put hload list']
  rfl

/-- **A push** goes behind the messages that wait. -/
theorem chatroomMailboxPush_solo (h : Shows s r) (hget : hmGet s.mailboxes.hm name = some mb)
    (hmsgs : r.box name = some msgs) (m : ChatroomMessage) :
    ∃ s', (roomData garbage).solo (chatroomMailboxPush mb m) s = some ((), s') ∧
      s'.mailboxes = s.mailboxes ∧ Shows s' (r.setBox name (msgs ++ [m])) := by
  obtain ⟨list, hload, hholds⟩ := h.box_unique hget hmsgs
  obtain ⟨list', hrun, -, hholds'⟩ := lPush_spec m hholds
  obtain ⟨hblock, hshows⟩ := h.call hget hload hrun hholds'
  refine ⟨putBox s mb list', ?_, rfl, hshows⟩
  unfold chatroomMailboxPush
  rw [solo_bind_of_some (solo_mutexLock (by rw [hload]; rfl)),
    solo_bind_of_some (solo_access (a := .mbPush mb m) hblock)]
  exact solo_mutexUnlock (isSome_putBox hload)

/-- **The loop of a poll** takes the newest messages, one by one. -/
theorem pollLoop_solo : ∀ (n : Nat) {s : Chatroom} {r : Room} {msgs : List ChatroomMessage},
    Shows s r → hmGet s.mailboxes.hm name = some mb → r.box name = some msgs → n ≤ msgs.length →
    ∃ s', (roomData garbage).solo (pollLoop mb n) s = some (msgs.reverse.take n, s') ∧
      s'.mailboxes = s.mailboxes ∧ Shows s' (r.setBox name (msgs.take (msgs.length - n)))
  | 0, s, r, msgs, h, _, hmsgs, _ => by
    refine ⟨s, rfl, rfl, ?_⟩
    rw [Nat.sub_zero, List.take_length, Room.setBox_self hmsgs]
    exact h
  | n + 1, s, r, msgs, h, hget, hmsgs, hn => by
    rcases List.eq_nil_or_concat' msgs with rfl | ⟨ys, y, rfl⟩
    · simp at hn
    · obtain ⟨list, hload, hholds⟩ := h.box_unique hget hmsgs
      obtain ⟨list', hrun, -, hholds'⟩ := lPop_spec true hholds
      obtain ⟨hblock, hshows⟩ := h.call hget hload hrun hholds'
      have hpop : roomAccess garbage (.mbPop mb) s = some (some y, putBox s mb list') := by
        rw [roomAccess, hblock, List.getLast?_concat]
        rfl
      rw [List.dropLast_concat] at hshows
      have hbox : (r.setBox name ys).box name = some ys := Function.update_self ..
      obtain ⟨s', hloop, hmailboxes, hshows'⟩ := pollLoop_solo n hshows hget hbox
        (by simpa using hn)
      refine ⟨s', ?_, hmailboxes, ?_⟩
      · unfold pollLoop
        rw [solo_bind_of_some (solo_access hpop), solo_bind_of_some hloop, List.reverse_append]
        rfl
      · rw [Room.setBox_setBox] at hshows'
        rw [List.length_append, List.length_singleton, Nat.add_sub_add_right,
          List.take_append_of_le_length (Nat.sub_le _ _)]
        exact hshows'

theorem pollAmount_le (len outBufLen : Nat) : pollAmount len outBufLen ≤ len :=
  (Nat.min_le_left _ _).trans (Nat.mod_le _ _)

theorem chatroomMailboxPoll_solo (h : Shows s r) (hget : hmGet s.mailboxes.hm name = some mb)
    (hmsgs : r.box name = some msgs) (outBufLen : Nat) :
    ∃ s', (roomData garbage).solo (chatroomMailboxPoll mb outBufLen) s
        = some (msgs.reverse.take (pollAmount msgs.length outBufLen), s') ∧
      Shows s' (r.setBox name (msgs.take (msgs.length - pollAmount msgs.length outBufLen))) := by
  obtain ⟨list, hload, hholds⟩ := h.box_unique hget hmsgs
  have hlive : (s.boxes.load mb).isSome := by
    rw [hload]
    rfl
  have hlen : roomAccess garbage (.mbLen mb) s = some (msgs.length, s) := by
    have hrun : readList lLen list = some (msgs.length, list) := by rw [← lLen_eq hholds]; rfl
    have hblock := onBlock_boxes hload hrun
    rw [@Part.put_self _ _ Chatroom.boxesPart _ _ _ hload] at hblock
    exact hblock
  obtain ⟨s', hloop, hmailboxes, hshows⟩ :=
    pollLoop_solo garbage (pollAmount msgs.length outBufLen) h hget hmsgs
      (pollAmount_le _ _)
  refine ⟨s', ?_, hshows⟩
  have hamount : (if msgs.length % 2 ^ 32 < outBufLen then msgs.length % 2 ^ 32 else outBufLen)
      = pollAmount msgs.length outBufLen := by
    unfold pollAmount
    split <;> omega
  have hlive' : (s'.boxes.load mb).isSome := by
    rw [← hmailboxes] at hget
    obtain ⟨list', hload', -⟩ := hshows.box_unique hget (Function.update_self ..)
    rw [hload']
    rfl
  unfold chatroomMailboxPoll
  rw [solo_bind_of_some (solo_mutexLock hlive), solo_bind_of_some (solo_access hlen)]
  simp only [hamount]
  rw [solo_bind_of_some hloop, solo_bind_of_some (solo_mutexUnlock hlive')]
  rfl

end Mailboxes

/-! ## Functions -/

section Functions

variable {s : Chatroom} {r : Room}

/-- The user's mailbox is in the map. -/
theorem Shows.get_box (h : Shows s r) {name : CString} {msgs : List ChatroomMessage}
    (hmsgs : r.box name = some msgs) : ∃ mb, hmGet s.mailboxes.hm name = some mb := by
  obtain ⟨mb, -, hget, -⟩ := h.box hmsgs
  exact ⟨mb, hget⟩

theorem Shows.get_none (h : Shows s r) {name : CString} (hnone : r.box name = none) :
    hmGet s.mailboxes.hm name = none := by
  rw [Option.eq_none_iff_forall_ne_some]
  intro mb hget
  have hsome := h.bound hget
  rw [hnone] at hsome
  cases hsome

/-- Some get the message. -/
def Room.sendTo (r : Room) (names : List CString) (m : ChatroomMessage) : Room where
  user := r.user
  box name := if name ∈ names then (r.box name).map (· ++ [m]) else r.box name

/-- **The loop over all mailboxes.** -/
theorem sendLoop_solo (sender msg : CString) : ∀ (kvps : List (KeyVal CString Nat)) {s : Chatroom}
    {r : Room}, Shows s r → (∀ kv ∈ kvps, hmGet s.mailboxes.hm kv.key = some kv.value) →
    (kvps.map KeyVal.key).Nodup →
    ∃ s', (roomData garbage).solo (sendLoop sender msg kvps) s = some ((), s') ∧
      Shows s' (r.sendTo (kvps.map KeyVal.key) ⟨true, sender, msg⟩)
  | [], s, r, h, _, _ => ⟨s, rfl, by simpa [Room.sendTo] using h⟩
  | kv :: kvps, s, r, h, hbound, hnodup => by
    obtain ⟨hfresh, hnodup⟩ := List.nodup_cons.mp hnodup
    have hget := hbound kv List.mem_cons_self
    obtain ⟨msgs, hmsgs⟩ := Option.isSome_iff_exists.mp (h.bound hget)
    obtain ⟨s₁, hpush, hmailboxes, hshows⟩ :=
      chatroomMailboxPush_solo garbage h hget hmsgs ⟨true, sender, msg⟩
    obtain ⟨s', hloop, hshows'⟩ := sendLoop_solo sender msg kvps hshows
      (fun kv' hkv' => by rw [hmailboxes]; exact hbound kv' (List.mem_cons_of_mem _ hkv')) hnodup
    refine ⟨s', ?_, ?_⟩
    · unfold sendLoop
      rw [solo_bind_of_some hpush, hloop]
    · -- The mailbox of this turn is none of those of the later turns.
      have hroom : (r.setBox kv.key (msgs ++ [⟨true, sender, msg⟩])).sendTo
          (kvps.map KeyVal.key) ⟨true, sender, msg⟩
          = r.sendTo ((kv :: kvps).map KeyVal.key) ⟨true, sender, msg⟩ := by
        refine congrArg (Room.mk r.user) (funext fun name => ?_)
        by_cases hn : name = kv.key
        · simp [Room.setBox, hn, hfresh, hmsgs]
        · simp [Room.setBox, hn]
      rwa [← hroom]

/-- Iteration shows the pairs of the map, and moves the iterator only. -/
theorem Shows.iterateMailboxes (h : Shows s r) : ∃ m',
    iterateMailboxes s = some (hmKvps s.mailboxes.hm, { s with mailboxes := m' }) ∧
      m'.hm = s.mailboxes.hm ∧ Shows { s with mailboxes := m' } r := by
  obtain ⟨m', hrun, hm'⟩ := hmIterate_eq (m := s.mailboxes) h.mailboxes.inv
  refine ⟨m', ?_, hm', h.idMap, hm' ▸ h.mailboxes, h.user, hm' ▸ h.box, hm' ▸ h.bound,
    hm' ▸ h.unique, hm' ▸ h.live⟩
  unfold Chat.iterateMailboxes
  rw [hrun]
  rfl

theorem sendGlobalMsg_solo (h : Shows s r) (sender msg : CString) :
    ∃ s', (roomData garbage).solo (sendGlobalMsg sender msg) s = some ((), s') ∧
      Shows s' (r.broadcast ⟨true, sender, msg⟩) := by
  obtain ⟨m', hkvps, hm', hshows⟩ := h.iterateMailboxes
  have hmem := hmGet_eq_some_iff_mem h.mailboxes
  obtain ⟨s', hloop, hshows'⟩ := sendLoop_solo garbage sender msg
    (hmKvps s.mailboxes.hm) hshows
    (fun kv hkv => by rw [hm', hmem]; exact ⟨kv, hkv, rfl, rfl⟩) h.mailboxes.inv.nodup_keys
  refine ⟨s', ?_, ?_⟩
  · unfold sendGlobalMsg
    rw [solo_bind_of_some (solo_access (a := .mailboxesKvps) hkvps), hloop]
  · have hroom : r.sendTo ((hmKvps s.mailboxes.hm).map KeyVal.key) ⟨true, sender, msg⟩
        = r.broadcast ⟨true, sender, msg⟩ := by
      refine congrArg (Room.mk r.user) (funext fun name => ?_)
      by_cases hkey : name ∈ (hmKvps s.mailboxes.hm).map KeyVal.key
      · rw [if_pos hkey]
      · rw [if_neg hkey]
        cases hbox : r.box name with
        | none => rfl
        | some msgs =>
          obtain ⟨mb, hget⟩ := h.get_box hbox
          obtain ⟨kv, hkv, hname, -⟩ := (hmem name mb).mp hget
          exact absurd (List.mem_map.mpr ⟨kv, hkv, hname⟩) hkey
    rwa [← hroom]

/-- A function that leaves the status of a delivery. -/
theorem sendPrivateMsg_solo (h : Shows s r) (receiver sender msg : CString) :
    ∃ st s', (roomData garbage).solo (sendPrivateMsg receiver sender msg) s = some (st, s') ∧
      (r.deliver receiver ⟨false, sender, msg⟩).1 = .status st ∧
      Shows s' (r.deliver receiver ⟨false, sender, msg⟩).2 := by
  unfold sendPrivateMsg Room.deliver
  cases hbox : r.box receiver with
  | none =>
    have hget : roomAccess garbage (.mailboxesGet receiver) s = some (none, s) := by
      rw [roomAccess, h.get_none hbox]
    refine ⟨.unknownReceiver, s, ?_, rfl, h⟩
    rw [solo_bind_of_some (solo_access hget)]
    rfl
  | some msgs =>
    obtain ⟨mb, hmb⟩ := h.get_box hbox
    have hget : roomAccess garbage (.mailboxesGet receiver) s = some (some mb, s) := by
      rw [roomAccess, hmb]
    obtain ⟨s', hpush, -, hshows⟩ :=
      chatroomMailboxPush_solo garbage h hmb hbox ⟨false, sender, msg⟩
    refine ⟨.success, s', ?_, rfl, hshows⟩
    rw [solo_bind_of_some (solo_access hget)]
    simp only
    rw [solo_bind_of_some hpush]
    rfl

/-- The three checks on a name come to one. -/
theorem chatroomLogin_eq (id : UInt64) (username : CString) :
    chatroomLogin id username =
      if validName username = true then underWrlock do
        if ← access (.idMapContains id) then pure .channelAlreadyRegistered
        else if ← access (.mailboxesContains username) then pure .usernameTaken
        else do
          access (.idMapPut id username)
          let mb ← access .newMailbox
          access (.mailboxesPut username mb)
          pure .success
      else pure .invalidUsername := by
  unfold chatroomLogin validName
  by_cases hlen : username.chars.length = 0 ∨ 20 < username.chars.length
  · rw [if_pos hlen, if_neg]
    simp only [Bool.and_eq_true, decide_eq_true_eq, not_and]
    omega
  · rw [if_neg hlen]
    by_cases hchars : username.chars.all isNameChar = true
    · -- A name of letters and digits does not start with `$`.
      have hhead : ¬username.chars.head? = some 36 := by
        intro hhead
        have hmem := List.mem_of_mem_head? hhead
        exact absurd (List.all_eq_true.mp hchars 36 hmem) (by decide)
      rw [if_neg hhead, if_neg (not_not.mpr hchars), if_pos]
      simp only [Bool.and_eq_true, decide_eq_true_eq, hchars, and_true]
      omega
    · rw [if_pos hchars, ite_self, if_neg]
      simp [hchars]

variable {garbage} in
/-- **A new user** has an empty mailbox at an address that nobody has. -/
theorem Shows.login (h : Shows s r) {id : UInt64} {username : CString}
    (hfree : r.box username = none) :
    Shows
      { idMap := hmPut s.idMap id username
        mailboxes := { s.mailboxes with
          hm := hmPut s.mailboxes.hm username (s.boxes.alloc (newList garbage .linkedList)).1 }
        boxes := (s.boxes.alloc (newList garbage .linkedList)).2 }
      { user := Function.update r.user id (some username)
        box := Function.update r.box username (some []) } := by
  obtain ⟨hid, hidget⟩ := hmGet_hmPut h.idMap id username
  obtain ⟨hmb, hmbget⟩ := hmGet_hmPut h.mailboxes username
    (s.boxes.alloc (newList garbage .linkedList)).1
  have hnone := h.get_none hfree
  -- The addresses in the map are in use, so the new one is none of them.
  have hold : ∀ {name mb}, hmGet s.mailboxes.hm name = some mb →
      mb ≠ (s.boxes.alloc (newList garbage .linkedList)).1 := by
    intro name mb hget
    obtain ⟨msgs, hmsgs⟩ := Option.isSome_iff_exists.mp (h.bound hget)
    obtain ⟨list, hload, -⟩ := h.box_unique hget hmsgs
    exact Heap.ne_alloc_fst hload _
  refine ⟨hid, hmb, fun id' => ?_, ?_, ?_, ?_, ?_⟩
  · rw [hidget, h.user]
    exact (Function.update_apply ..).symm
  · intro name msgs hmsgs
    by_cases hn : name = username
    · simp only [hn, Function.update_self, Option.some.injEq] at hmsgs
      refine ⟨_, newList garbage .linkedList, by rw [hmbget, if_pos hn], ?_, ?_⟩
      · rw [Heap.load_alloc, if_pos rfl]
      · exact hmsgs ▸ (newList_holds garbage .linkedList).2
    · simp only [Function.update_of_ne hn] at hmsgs
      obtain ⟨mb, list, hget, hload, hholds⟩ := h.box hmsgs
      exact ⟨mb, list, by rw [hmbget, if_neg hn, hget], Heap.load_alloc_of_some hload _, hholds⟩
  · intro name mb hget
    rw [hmbget] at hget
    by_cases hn : name = username
    · simp [hn]
    · rw [if_neg hn] at hget
      simp only [Function.update_of_ne hn]
      exact h.bound hget
  · intro name name' mb hget hget'
    rw [hmbget] at hget hget'
    by_cases hn : name = username
    · by_cases hn' : name' = username
      · rw [hn, hn']
      · rw [if_pos hn] at hget
        rw [if_neg hn'] at hget'
        exact absurd (Option.some.inj hget).symm (hold hget')
    · by_cases hn' : name' = username
      · rw [if_neg hn] at hget
        rw [if_pos hn'] at hget'
        exact absurd (Option.some.inj hget').symm (hold hget)
      · rw [if_neg hn] at hget
        rw [if_neg hn'] at hget'
        exact h.unique hget hget'
  · intro mb list hload
    rw [Heap.load_alloc] at hload
    split at hload
    · next heq => exact ⟨username, by rw [hmbget, if_pos rfl, heq]⟩
    · obtain ⟨name, hget⟩ := h.live hload
      have hn : name ≠ username := by
        rintro rfl
        rw [hnone] at hget
        cases hget
      exact ⟨name, by rw [hmbget, if_neg hn, hget]⟩

/-- **A user who is gone** leaves no mailbox. -/
theorem Shows.logout (h : Shows s r) {id : UInt64} {username : CString} {mb : Nat}
    (hget : hmGet s.mailboxes.hm username = some mb) {list : ChatroomMailbox}
    (hload : s.boxes.load mb = some list) :
    Shows
      { idMap := (hmRemove s.idMap id).2
        mailboxes := { s.mailboxes with hm := (hmRemove s.mailboxes.hm username).2 }
        boxes := s.boxes.put mb none }
      { user := Function.update r.user id none
        box := Function.update r.box username none } := by
  obtain ⟨hid, hidget⟩ := hmGet_hmRemove h.idMap id
  obtain ⟨hmb, hmbget⟩ := hmGet_hmRemove h.mailboxes username
  refine ⟨hid, hmb, fun id' => ?_, ?_, ?_, ?_, ?_⟩
  · rw [hidget, h.user]
    exact (Function.update_apply ..).symm
  · intro name msgs hmsgs
    by_cases hn : name = username
    · simp [hn] at hmsgs
    · simp only [Function.update_of_ne hn] at hmsgs
      obtain ⟨mb', list', hget', hload', hholds⟩ := h.box hmsgs
      have hne : mb' ≠ mb := by
        rintro rfl
        exact hn (h.unique hget' hget)
      exact ⟨mb', list', by rw [hmbget, if_neg hn, hget'],
        by rw [Heap.load_put_of_ne _ hne, hload'], hholds⟩
  · intro name mb' hget'
    rw [hmbget] at hget'
    by_cases hn : name = username
    · simp [hn] at hget'
    · rw [if_neg hn] at hget'
      simp only [Function.update_of_ne hn]
      exact h.bound hget'
  · intro name name' mb' hget₁ hget₂
    rw [hmbget] at hget₁ hget₂
    split_ifs at hget₁ hget₂
    exact h.unique hget₁ hget₂
  · intro mb' list' hload'
    rw [Heap.load_put hload] at hload'
    split at hload'
    · cases hload'
    · next hne =>
      obtain ⟨name, hget'⟩ := h.live hload'
      have hn : name ≠ username := by
        rintro rfl
        rw [hget] at hget'
        exact hne (Option.some.inj hget').symm
      exact ⟨name, by rw [hmbget, if_neg hn, hget']⟩

/-- The list of a mailbox can be deleted. -/
theorem deleteList_of_holds {α : Type} {xs : List α} : ∀ {l : ListT α}, l.Holds xs →
    ∃ l', deleteList l = some l'
  | .array al, _ => ⟨.array al, rfl⟩
  | .linked ll, ⟨as, h⟩ => by
    obtain ⟨nodes, hrun, -⟩ := deleteNodesLoop_spec as xs (ll.len + 1) ll
      (by rw [h.len_eq]; exact Nat.lt_succ_self _) h.nodup h.links
    rw [← h.first_eq] at hrun
    exact ⟨.linked { ll with nodes := nodes }, by rw [deleteList, deleteLinkedList, hrun]; rfl⟩

theorem deleteChatroomMailbox_eq {mb : Nat} {list : ChatroomMailbox} {msgs : List ChatroomMessage}
    (hload : s.boxes.load mb = some list) (hholds : list.Holds msgs) :
    deleteChatroomMailbox mb s = some ((), { s with boxes := s.boxes.put mb none }) := by
  obtain ⟨list', hiterate, -, hholds'⟩ := lIterate_spec hholds
  have hblock := onBlock_boxes hload hiterate
  have hload' : (putBox s mb list').boxes.load mb = some list' :=
    load_boxes_put hload list'
  obtain ⟨list'', hdelete⟩ := deleteList_of_holds hholds'
  have hfree : (putBox s mb list').boxes.free mb = some (s.boxes.put mb none) := by
    rw [Heap.free_eq hload']
    exact congrArg some (Heap.put_put ..)
  unfold deleteChatroomMailbox
  rw [hblock]
  show (do
    let list ← (putBox s mb list').boxes.load mb
    let _ ← deleteList list
    let boxes ← (putBox s mb list').boxes.free mb
    some ((), { putBox s mb list' with boxes := boxes })) = _
  rw [hload']
  simp only [Option.bind_eq_bind, Option.bind_some, hdelete, hfree]
  rfl

theorem chatroomLogin_solo (h : Shows s r) (id : UInt64) (username : CString) :
    ∃ st s', (roomData garbage).solo (chatroomLogin id username) s = some (st, s') ∧
      (roomStep r (.login id username)).1 = .status st ∧
      Shows s' (roomStep r (.login id username)).2 := by
  rw [chatroomLogin_eq]
  simp only [roomStep]
  by_cases hvalid : validName username = true
  swap
  · rw [if_neg hvalid, if_pos hvalid]
    exact ⟨.invalidUsername, s, rfl, rfl, h⟩
  rw [if_pos hvalid, if_neg (not_not.mpr hvalid), solo_underWrlock]
  have hcontains : roomAccess garbage (.idMapContains id) s = some ((r.user id).isSome, s) := by
    rw [roomAccess, hmContains, h.user]
  rw [solo_bind_of_some (solo_access hcontains)]
  by_cases hid : (r.user id).isSome = true
  · rw [if_pos hid, if_pos hid]
    exact ⟨.channelAlreadyRegistered, s, rfl, rfl, h⟩
  rw [if_neg hid, if_neg hid]
  have htaken : hmContains s.mailboxes.hm username = (r.box username).isSome := by
    rw [hmContains]
    cases hbox : r.box username with
    | none => rw [h.get_none hbox]; rfl
    | some msgs =>
      obtain ⟨mb, hget⟩ := h.get_box hbox
      rw [hget]
      rfl
  have hcontains' : roomAccess garbage (.mailboxesContains username) s
      = some ((r.box username).isSome, s) := by
    rw [roomAccess, htaken]
  rw [solo_bind_of_some (solo_access hcontains')]
  by_cases hbox : (r.box username).isSome = true
  · rw [if_pos hbox, if_pos hbox]
    exact ⟨.usernameTaken, s, rfl, rfl, h⟩
  rw [if_neg hbox, if_neg hbox]
  exact ⟨.success, _, rfl, rfl, h.login (by simpa using hbox)⟩

theorem chatroomLogout_solo (h : Shows s r) (hok : r.Ok) (id : UInt64) :
    ∃ st s', (roomData garbage).solo (chatroomLogout id) s = some (st, s') ∧
      (roomStep r (.logout id)).1 = .status st ∧ Shows s' (roomStep r (.logout id)).2 := by
  unfold chatroomLogout
  rw [solo_underWrlock]
  have hidget : roomAccess garbage (.idMapGet id) s = some (r.user id, s) := by
    rw [roomAccess, h.user]
  rw [solo_bind_of_some (solo_access hidget)]
  cases hid : r.user id with
  | none =>
    refine ⟨.channelNotRegistered, s, rfl, ?_, ?_⟩
    · simp only [roomStep, hid]
    · simpa only [roomStep, hid] using h
  | some username =>
    obtain ⟨msgs, hmsgs⟩ := Option.isSome_iff_exists.mp ((hok.box username).mpr ⟨id, hid⟩)
    obtain ⟨mb, hget⟩ := h.get_box hmsgs
    obtain ⟨list, hload, hholds⟩ := h.box_unique hget hmsgs
    -- The user is taken out of both maps, one after the other.
    let s₁ : Chatroom := { s with idMap := (hmRemove s.idMap id).2 }
    let s₂ : Chatroom := { s₁ with
      mailboxes := { s.mailboxes with hm := (hmRemove s.mailboxes.hm username).2 } }
    have hremove : roomAccess garbage (.idMapRemove id) s = some ((hmRemove s.idMap id).1, s₁) := rfl
    have hmailbox : roomAccess garbage (.mailboxesGet username) s₁ = some (some mb, s₁) := by
      rw [roomAccess, hget]
    have hremove' : roomAccess garbage (.mailboxesRemove username) s₁
        = some ((hmRemove s.mailboxes.hm username).1, s₂) := rfl
    have hdelete : roomAccess garbage (.deleteMailbox mb) s₂
        = some ((), { s₂ with boxes := s.boxes.put mb none }) :=
      deleteChatroomMailbox_eq hload hholds
    refine ⟨.success, { s₂ with boxes := s.boxes.put mb none }, ?_, ?_, ?_⟩
    · simp only
      rw [solo_bind_of_some (solo_access hremove), solo_bind_of_some (solo_access hmailbox)]
      simp only
      rw [solo_bind_of_some (solo_access hremove'), solo_bind_of_some (solo_access hdelete)]
      rfl
    · simp only [roomStep, hid]
    · simp only [roomStep, hid]
      exact h.logout hget hload

theorem chatroomSendGlobalMsgFromId_solo (h : Shows s r) (id : UInt64) (msg : CString) :
    ∃ st s', (roomData garbage).solo (chatroomSendGlobalMsgFromId id msg) s = some (st, s') ∧
      (roomStep r (.sendGlobalMsgFromId id msg)).1 = .status st ∧
      Shows s' (roomStep r (.sendGlobalMsgFromId id msg)).2 := by
  unfold chatroomSendGlobalMsgFromId
  simp only [roomStep]
  by_cases hlen : badMessageLen msg = true
  · rw [if_pos hlen, if_pos hlen]
    exact ⟨.invalidMessageLen, s, rfl, rfl, h⟩
  rw [if_neg hlen, if_neg hlen, solo_underWrlock]
  have hidget : roomAccess garbage (.idMapGet id) s = some (r.user id, s) := by
    rw [roomAccess, h.user]
  rw [solo_bind_of_some (solo_access hidget)]
  cases hid : r.user id with
  | none => exact ⟨.channelNotRegistered, s, rfl, rfl, h⟩
  | some sender =>
    obtain ⟨s', hsend, hshows⟩ := sendGlobalMsg_solo garbage h sender msg
    refine ⟨.success, s', ?_, rfl, hshows⟩
    simp only
    rw [solo_bind_of_some hsend]
    rfl

theorem chatroomSendGlobalMsg_solo (h : Shows s r) (sender msg : CString) :
    ∃ st s', (roomData garbage).solo (chatroomSendGlobalMsg sender msg) s = some (st, s') ∧
      (roomStep r (.sendGlobalMsg sender msg)).1 = .status st ∧
      Shows s' (roomStep r (.sendGlobalMsg sender msg)).2 := by
  unfold chatroomSendGlobalMsg
  simp only [roomStep]
  by_cases hlen : badMessageLen msg = true
  · rw [if_pos hlen, if_pos hlen]
    exact ⟨.invalidMessageLen, s, rfl, rfl, h⟩
  rw [if_neg hlen, if_neg hlen, solo_underWrlock]
  obtain ⟨s', hsend, hshows⟩ := sendGlobalMsg_solo garbage h sender msg
  refine ⟨.success, s', ?_, rfl, hshows⟩
  rw [solo_bind_of_some hsend]
  rfl

theorem chatroomSendPrivateMsgFromId_solo (h : Shows s r) (receiver : CString) (id : UInt64)
    (msg : CString) :
    ∃ st s', (roomData garbage).solo (chatroomSendPrivateMsgFromId receiver id msg) s
        = some (st, s') ∧
      (roomStep r (.sendPrivateMsgFromId receiver id msg)).1 = .status st ∧
      Shows s' (roomStep r (.sendPrivateMsgFromId receiver id msg)).2 := by
  unfold chatroomSendPrivateMsgFromId
  simp only [roomStep]
  by_cases hlen : badMessageLen msg = true
  · rw [if_pos hlen, if_pos hlen]
    exact ⟨.invalidMessageLen, s, rfl, rfl, h⟩
  rw [if_neg hlen, if_neg hlen, solo_underRdlock]
  have hidget : roomAccess garbage (.idMapGet id) s = some (r.user id, s) := by
    rw [roomAccess, h.user]
  rw [solo_bind_of_some (solo_access hidget)]
  cases hid : r.user id with
  | none => exact ⟨.channelNotRegistered, s, rfl, rfl, h⟩
  | some sender => exact sendPrivateMsg_solo garbage h receiver sender msg

theorem chatroomSendPrivateMsg_solo (h : Shows s r) (receiver sender msg : CString) :
    ∃ st s', (roomData garbage).solo (chatroomSendPrivateMsg receiver sender msg) s
        = some (st, s') ∧
      (roomStep r (.sendPrivateMsg receiver sender msg)).1 = .status st ∧
      Shows s' (roomStep r (.sendPrivateMsg receiver sender msg)).2 := by
  unfold chatroomSendPrivateMsg
  simp only [roomStep]
  by_cases hlen : badMessageLen msg = true
  · rw [if_pos hlen, if_pos hlen]
    exact ⟨.invalidMessageLen, s, rfl, rfl, h⟩
  rw [if_neg hlen, if_neg hlen, solo_underRdlock]
  exact sendPrivateMsg_solo garbage h receiver sender msg

theorem chatroomPoll_solo (h : Shows s r) (hok : r.Ok) (id : UInt64) (outBufLen : Nat) :
    ∃ res s', (roomData garbage).solo (chatroomPoll id outBufLen) s = some (res, s') ∧
      (roomStep r (.poll id outBufLen)).1 = .polled res.1 res.2 ∧
      Shows s' (roomStep r (.poll id outBufLen)).2 := by
  unfold chatroomPoll
  simp only [roomStep]
  by_cases hlen : outBufLen = 0
  · rw [if_pos hlen, if_pos hlen]
    exact ⟨(.success, some []), s, rfl, rfl, h⟩
  rw [if_neg hlen, if_neg hlen, solo_underRdlock]
  have hidget : roomAccess garbage (.idMapGet id) s = some (r.user id, s) := by
    rw [roomAccess, h.user]
  rw [solo_bind_of_some (solo_access hidget)]
  cases hid : r.user id with
  | none => exact ⟨(.channelNotRegistered, none), s, rfl, rfl, h⟩
  | some username =>
    obtain ⟨msgs, hmsgs⟩ := Option.isSome_iff_exists.mp ((hok.box username).mpr ⟨id, hid⟩)
    obtain ⟨mb, hget⟩ := h.get_box hmsgs
    have hmailbox : roomAccess garbage (.mailboxesGet username) s = some (some mb, s) := by
      rw [roomAccess, hget]
    obtain ⟨s', hpoll, hshows⟩ :=
      chatroomMailboxPoll_solo garbage h hget hmsgs outBufLen
    simp only [hmsgs, Option.getD_some]
    refine ⟨(.success, some _), s', ?_, rfl, hshows⟩
    rw [solo_bind_of_some (solo_access hmailbox)]
    simp only
    rw [solo_bind_of_some hpoll]
    rfl

variable {garbage} in
/-- The answer of a function, as an answer of its call. -/
theorem solo_answer {α : Type} {p : RoomProg α} {s' : Chatroom} {x : α} (f : α → RoomAnswer)
    (h : (roomData garbage).solo p s = some (x, s')) :
    (roomData garbage).solo (do pure (f (← p))) s = some (f x, s') :=
  solo_bind_of_some h

/-- **Each function, uninterrupted, does what its call means.** -/
theorem roomBody_solo (h : Shows s r) (hok : r.Ok) (c : RoomCall) :
    ∃ s', (roomData garbage).solo (roomBody c) s = some ((roomStep r c).1, s') ∧
      Shows s' (roomStep r c).2 := by
  cases c with
  | login id username =>
    obtain ⟨st, s', hrun, hans, hshows⟩ := chatroomLogin_solo garbage h id username
    exact ⟨s', by rw [hans]; exact solo_answer .status hrun, hshows⟩
  | logout id =>
    obtain ⟨st, s', hrun, hans, hshows⟩ := chatroomLogout_solo garbage h hok id
    exact ⟨s', by rw [hans]; exact solo_answer .status hrun, hshows⟩
  | getUsername id =>
    have hidget : roomAccess garbage (.idMapGet id) s = some (r.user id, s) := by
      rw [roomAccess, h.user]
    have hrun : (roomData garbage).solo (chatroomGetUsername id) s = some (r.user id, s) := by
      unfold chatroomGetUsername
      rw [solo_underRdlock]
      exact solo_access hidget
    exact ⟨s, solo_answer .username hrun, h⟩
  | sendGlobalMsgFromId id msg =>
    obtain ⟨st, s', hrun, hans, hshows⟩ :=
      chatroomSendGlobalMsgFromId_solo garbage h id msg
    exact ⟨s', by rw [hans]; exact solo_answer .status hrun, hshows⟩
  | sendGlobalMsg sender msg =>
    obtain ⟨st, s', hrun, hans, hshows⟩ :=
      chatroomSendGlobalMsg_solo garbage h sender msg
    exact ⟨s', by rw [hans]; exact solo_answer .status hrun, hshows⟩
  | sendPrivateMsgFromId receiver id msg =>
    obtain ⟨st, s', hrun, hans, hshows⟩ :=
      chatroomSendPrivateMsgFromId_solo garbage h receiver id msg
    exact ⟨s', by rw [hans]; exact solo_answer .status hrun, hshows⟩
  | sendPrivateMsg receiver sender msg =>
    obtain ⟨st, s', hrun, hans, hshows⟩ :=
      chatroomSendPrivateMsg_solo garbage h receiver sender msg
    exact ⟨s', by rw [hans]; exact solo_answer .status hrun, hshows⟩
  | poll id outBufLen =>
    obtain ⟨res, s', hrun, hans, hshows⟩ :=
      chatroomPoll_solo garbage h hok id outBufLen
    exact ⟨s', by rw [hans]; exact solo_answer (fun res => .polled res.1 res.2) hrun, hshows⟩

/-- The maps and the mailboxes hold some room. -/
def Consistent (s : Chatroom) : Prop := ∃ r : Room, r.Ok ∧ Shows s r

variable {garbage} in
/-- **What threads need to know of the functions.** -/
theorem roomBody_sound : Sound (roomData garbage) roomBody Consistent where
  lawful := roomData_lawful
  follows := roomBody_follows
  ends := by
    rintro c s ⟨r, hok, h⟩
    obtain ⟨s', hrun, h'⟩ := roomBody_solo garbage h hok c
    exact ⟨_, s', hrun, _, hok.step c, h'⟩

end Functions

end Chlibs.Chat

import Chlibs.Channel.Interface
import Chlibs.Infra.Bytes
import Chlibs.Util.Queue

/-!
# Channels within a process

`channel_local.c` and `channel_local2.c`. Each function runs under the mutex of its channel, so
a call is one step.

* `chnLSend_cases` — all that a send does.
* `chnLReceive_cases` — all that a receive does.
-/

namespace Chlibs.Channel

open Infra Util

/-! ## One direction -/

/-- `channel_local_config_t` -/
structure ChannelLocalConfig where
  queueDepth : Nat
  writeOver : Bool
  maxMsgSize : Nat

/-- `channel_local_t` -/
structure ChannelLocal where
  cfg : ChannelLocalConfig
  queue : Queue Bytes

def newChannelLocal (cfg : ChannelLocalConfig) : Except ChannelStatus ChannelLocal :=
  match newQueue cfg.queueDepth with
  | none => .error .invalidArgs
  | some q => .ok ⟨cfg, q⟩

/-- With `write_over` the oldest message is tossed when the channel is full. -/
def chnLSend (chn : ChannelLocal) (msg : Bytes) : ChannelStatus × ChannelLocal :=
  if msg.length = 0 ∨ chn.cfg.maxMsgSize < msg.length then (.invalidMsgSize, chn)
  else if qLen chn.queue = qCap chn.queue then
    if !chn.cfg.writeOver then (.channelFull, chn)
    else (.success, { chn with queue := (qPush (qPoll chn.queue).2.2 msg).2 })
  else (.success, { chn with queue := (qPush chn.queue msg).2 })

def chnLIncomingLen (chn : ChannelLocal) : Except ChannelStatus Nat :=
  match qPeek chn.queue with
  | none => .error .noIncomingMsg
  | some msg => .ok msg.length

/-- The message goes to the front of a buffer of `len` bytes. -/
def chnLReceive (chn : ChannelLocal) (len : Nat) : Except ChannelStatus Bytes × ChannelLocal :=
  match qPeek chn.queue with
  | none => (.error .noIncomingMsg, chn)
  | some msg =>
    if len < msg.length then (.error .bufferTooSmall, chn)
    else (.ok msg, { chn with queue := (qPoll chn.queue).2.2 })

/-- The messages that wait to be received. -/
def ChannelLocal.pending (chn : ChannelLocal) : List Bytes := chn.queue.toList

/-- What holds of a channel at all times. -/
structure ChannelLocal.Bounded (cfg : ChannelLocalConfig) (chn : ChannelLocal) : Prop where
  cfg_eq : chn.cfg = cfg
  cap_eq : chn.queue.cap = cfg.queueDepth
  sizes : ∀ msg ∈ chn.pending, msg.length ≤ cfg.maxMsgSize

namespace ChannelLocal.Bounded

variable {cfg : ChannelLocalConfig} {chn : ChannelLocal}

theorem pending_le (h : chn.Bounded cfg) : chn.pending.length ≤ cfg.queueDepth := by
  rw [pending, chn.queue.toList_length, ← h.cap_eq]
  exact chn.queue.len_le

theorem depth_pos (h : chn.Bounded cfg) : 0 < cfg.queueDepth := by
  rw [← h.cap_eq]
  exact Nat.zero_lt_of_lt chn.queue.i_lt

end ChannelLocal.Bounded

theorem newChannelLocal_eq_ok {cfg : ChannelLocalConfig} {chn : ChannelLocal}
    (h : newChannelLocal cfg = .ok chn) : chn.Bounded cfg ∧ chn.pending = [] := by
  unfold newChannelLocal at h
  cases hq : newQueue (α := Bytes) cfg.queueDepth with
  | none => simp [hq] at h
  | some q =>
    simp only [hq, Except.ok.injEq] at h
    subst h
    obtain ⟨hcap, hnil⟩ := newQueue_eq_some hq
    exact ⟨⟨rfl, hcap, by simp [ChannelLocal.pending, hnil]⟩, hnil⟩

/-! ## What a call does -/

/-- All that a send of `msg` may do. -/
inductive Sends (cfg : ChannelLocalConfig) (msg : Bytes) (chn : ChannelLocal) :
    ChannelStatus → ChannelLocal → Prop
  | refused {st : ChannelStatus} (h : st = .invalidMsgSize ∨ st = .channelFull) :
      Sends cfg msg chn st chn
  | added {chn' : ChannelLocal} (hsize : msg.length ≤ cfg.maxMsgSize)
      (hroom : chn.pending.length < cfg.queueDepth)
      (hadded : chn'.pending = chn.pending ++ [msg]) : Sends cfg msg chn .success chn'
  | wroteOver {oldest : Bytes} {rest : List Bytes} {chn' : ChannelLocal}
      (hsize : msg.length ≤ cfg.maxMsgSize) (hover : cfg.writeOver = true)
      (hfull : chn.pending.length = cfg.queueDepth)
      (hold : chn.pending = oldest :: rest) (hadded : chn'.pending = rest ++ [msg]) :
      Sends cfg msg chn .success chn'

/-- All that a receive may do. -/
inductive Receives (chn : ChannelLocal) : Except ChannelStatus Bytes → ChannelLocal → Prop
  | refused {st : ChannelStatus} (h : st = .noIncomingMsg ∨ st = .bufferTooSmall) :
      Receives chn (.error st) chn
  | took {msg : Bytes} {rest : List Bytes} {chn' : ChannelLocal} (hold : chn.pending = msg :: rest)
      (htaken : chn'.pending = rest) : Receives chn (.ok msg) chn'

section Calls

variable {cfg : ChannelLocalConfig} {chn : ChannelLocal}

/-- **A send adds its message**, at the cost of the oldest when the channel is full, or does
nothing. -/
theorem chnLSend_cases (h : chn.Bounded cfg) (msg : Bytes) :
    Sends cfg msg chn (chnLSend chn msg).1 (chnLSend chn msg).2 := by
  have hlen : qLen chn.queue = chn.pending.length := (chn.queue.toList_length).symm
  have hcap : qCap chn.queue = cfg.queueDepth := h.cap_eq
  rw [chnLSend, hlen, hcap]
  by_cases hsize : msg.length = 0 ∨ chn.cfg.maxMsgSize < msg.length
  · rw [if_pos hsize]
    exact .refused (.inl rfl)
  · rw [if_neg hsize]
    have hsize : msg.length ≤ cfg.maxMsgSize := by
      rw [← h.cfg_eq]
      omega
    by_cases hfull : chn.pending.length = cfg.queueDepth
    · rw [if_pos hfull]
      by_cases hover : chn.cfg.writeOver = true
      · rw [if_neg (by simp [hover])]
        obtain ⟨oldest, rest, hold⟩ := List.exists_cons_of_length_pos
          (hfull ▸ h.depth_pos : 0 < chn.pending.length)
        obtain ⟨-, -, hrest⟩ := qPoll_of_cons hold
        have hroom : (qPoll chn.queue).2.2.toList.length < (qPoll chn.queue).2.2.cap := by
          have hlength := congrArg List.length hold
          rw [List.length_cons] at hlength
          rw [hrest, qPoll_cap, h.cap_eq, ← hfull]
          omega
        refine .wroteOver hsize (h.cfg_eq ▸ hover) hfull hold ?_
        rw [ChannelLocal.pending, (qPush_of_lt msg hroom).2, hrest]
      · rw [if_pos (by simp [hover])]
        exact .refused (.inr rfl)
    · rw [if_neg hfull]
      have hroom : chn.pending.length < cfg.queueDepth := lt_of_le_of_ne h.pending_le hfull
      exact .added hsize hroom (qPush_of_lt msg (h.cap_eq ▸ hroom)).2

theorem chnLIncomingLen_eq (chn : ChannelLocal) :
    chnLIncomingLen chn = match chn.pending.head? with
      | none => .error .noIncomingMsg
      | some msg => .ok msg.length := by
  rw [chnLIncomingLen, qPeek_eq]
  rfl

theorem chnLReceive_of_nil (hnil : chn.pending = []) (len : Nat) :
    chnLReceive chn len = (.error .noIncomingMsg, chn) := by
  have hpeek : qPeek chn.queue = none := by
    rw [qPeek_eq]
    exact congrArg List.head? hnil
  simp only [chnLReceive, hpeek]

theorem chnLReceive_of_cons {msg : Bytes} {rest : List Bytes} (hold : chn.pending = msg :: rest)
    {len : Nat} (hlen : msg.length ≤ len) :
    (chnLReceive chn len).1 = .ok msg ∧ (chnLReceive chn len).2.pending = rest := by
  have hpeek : qPeek chn.queue = some msg := by
    rw [qPeek_eq]
    exact congrArg List.head? hold
  simp only [chnLReceive, hpeek, if_neg (Nat.not_lt.mpr hlen), true_and]
  exact (qPoll_of_cons hold).2.2

/-- **A receive takes the oldest message**, or does nothing. -/
theorem chnLReceive_cases (chn : ChannelLocal) (len : Nat) :
    Receives chn (chnLReceive chn len).1 (chnLReceive chn len).2 := by
  rw [chnLReceive, qPeek_eq]
  cases hold : chn.queue.toList with
  | nil => exact .refused (.inl rfl)
  | cons msg rest =>
    rw [List.head?_cons]
    by_cases hlen : len < msg.length
    · simp only [if_pos hlen]
      exact .refused (.inr rfl)
    · simp only [if_neg hlen]
      exact .took hold (qPoll_of_cons hold).2.2

theorem chnLSend_refused {msg : Bytes} (h : (chnLSend chn msg).1 ≠ .success) :
    (chnLSend chn msg).2 = chn := by
  by_cases hsize : msg.length = 0 ∨ chn.cfg.maxMsgSize < msg.length
  · rw [chnLSend, if_pos hsize]
  · by_cases hfull : qLen chn.queue = qCap chn.queue
    · by_cases hover : chn.cfg.writeOver = true
      · rw [chnLSend, if_neg hsize, if_pos hfull, if_neg (by simp [hover])] at h
        exact absurd rfl h
      · rw [chnLSend, if_neg hsize, if_pos hfull, if_pos (by simp [hover])]
    · rw [chnLSend, if_neg hsize, if_neg hfull] at h
      exact absurd rfl h

theorem chnLReceive_refused {len : Nat} {st : ChannelStatus}
    (h : (chnLReceive chn len).1 = .error st) : (chnLReceive chn len).2 = chn := by
  unfold chnLReceive at h ⊢
  split
  · rfl
  · split
    · rfl
    · simp_all

theorem chnLSend_bounded (h : chn.Bounded cfg) (msg : Bytes) :
    (chnLSend chn msg).2.Bounded cfg where
  cfg_eq := by
    rw [← h.cfg_eq, chnLSend]
    split
    · rfl
    · split
      · split <;> rfl
      · rfl
  cap_eq := by
    rw [← h.cap_eq, chnLSend]
    split
    · rfl
    · split
      · split <;> simp
      · simp
  sizes := by
    have hcases := chnLSend_cases h msg
    generalize chnLSend chn msg = out at hcases
    obtain ⟨st, chn'⟩ := out
    cases hcases with
    | refused => exact h.sizes
    | added hsize _ hadded =>
      rw [hadded]
      simpa [or_imp, forall_and] using ⟨h.sizes, hsize⟩
    | wroteOver hsize _ _ hold hadded =>
      rw [hadded]
      have hsizes := h.sizes
      rw [hold] at hsizes
      simpa [or_imp, forall_and] using
        ⟨fun m hm => hsizes m (List.mem_cons_of_mem _ hm), hsize⟩

theorem chnLReceive_bounded (h : chn.Bounded cfg) (len : Nat) :
    (chnLReceive chn len).2.Bounded cfg where
  cfg_eq := by
    rw [← h.cfg_eq, chnLReceive]
    split
    · rfl
    · split <;> rfl
  cap_eq := by
    rw [← h.cap_eq, chnLReceive]
    split
    · rfl
    · split <;> simp
  sizes := by
    have hcases := chnLReceive_cases chn len
    generalize chnLReceive chn len = out at hcases
    obtain ⟨r, chn'⟩ := out
    cases hcases with
    | refused => exact h.sizes
    | took hold htaken =>
      rw [htaken]
      intro m hm
      exact h.sizes m (hold ▸ List.mem_cons_of_mem _ hm)

end Calls

/-! ## Two directions -/

/-- `channel_local2_core_t` -/
structure ChannelLocal2Core where
  a2b : ChannelLocal
  b2a : ChannelLocal

def newChannelLocal2Core (cfg : ChannelLocalConfig) : Except ChannelStatus ChannelLocal2Core := do
  let a2b ← newChannelLocal cfg
  let b2a ← newChannelLocal cfg
  return ⟨a2b, b2a⟩

/-- The channel that the end with `a2b_direction = dir` receives from. -/
def ChannelLocal2Core.incoming (core : ChannelLocal2Core) (dir : Bool) : ChannelLocal :=
  if dir then core.b2a else core.a2b

def chnL2Send (core : ChannelLocal2Core) (dir : Bool) (msg : Bytes) :
    ChannelStatus × ChannelLocal2Core :=
  if dir then
    let (st, a2b) := chnLSend core.a2b msg
    (st, { core with a2b := a2b })
  else
    let (st, b2a) := chnLSend core.b2a msg
    (st, { core with b2a := b2a })

def chnL2IncomingLen (core : ChannelLocal2Core) (dir : Bool) : Except ChannelStatus Nat :=
  chnLIncomingLen (if dir then core.b2a else core.a2b)

def chnL2Receive (core : ChannelLocal2Core) (dir : Bool) (len : Nat) :
    Except ChannelStatus Bytes × ChannelLocal2Core :=
  if dir then
    let (r, b2a) := chnLReceive core.b2a len
    (r, { core with b2a := b2a })
  else
    let (r, a2b) := chnLReceive core.a2b len
    (r, { core with a2b := a2b })

end Chlibs.Channel

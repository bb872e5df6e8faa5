import Chlibs.Channel.Local
import Chlibs.Infra.Fifo
import Chlibs.Infra.Transition

/-!
# A pipe is two FIFOs

The runs of a `channel_local2` pipe. Each end is told by its `a2b_direction`, and its calls come
in any order with those of the other end.

* `localPipe_account` — the account of what one end sends and the other receives.
* `localPipe_fifos` — each direction is a bounded FIFO.
-/

namespace Chlibs.Channel

open Infra Util

/-! ## Runs -/

inductive PipeOp where
  | send (msg : Bytes)
  | receive (len : Nat)
  | incomingLen

inductive PipeAns where
  | sent (st : ChannelStatus)
  | received (r : Except ChannelStatus Bytes)
  | incoming (r : Except ChannelStatus Nat)

/-- A call on one end. -/
def pipeStep (core : ChannelLocal2Core) : Bool × PipeOp → PipeAns × ChannelLocal2Core
  | (dir, .send msg) => ((.sent (chnL2Send core dir msg).1), (chnL2Send core dir msg).2)
  | (dir, .receive len) => (.received (chnL2Receive core dir len).1, (chnL2Receive core dir len).2)
  | (dir, .incomingLen) => (.incoming (chnL2IncomingLen core dir), core)

abbrev PipeEvent := (Bool × PipeOp) × PipeAns

/-- The message of a send that was accepted at the end `dir`. -/
def sentMsg? (dir : Bool) : PipeEvent → Option Bytes
  | ((d, .send msg), .sent .success) => if d = dir then some msg else none
  | _ => none

/-- The message of a receive that succeeded at the end `dir`. -/
def receivedMsg? (dir : Bool) : PipeEvent → Option Bytes
  | ((d, .receive _), .received (.ok msg)) => if d = dir then some msg else none
  | _ => none

@[simp] theorem sentMsg?_success (dir : Bool) (msg : Bytes) :
    sentMsg? dir ((dir, .send msg), .sent .success) = some msg := if_pos rfl

@[simp] theorem sentMsg?_receive (dir d : Bool) (len : Nat) (ans : PipeAns) :
    sentMsg? dir ((d, .receive len), ans) = none := rfl

@[simp] theorem receivedMsg?_ok (dir : Bool) (len : Nat) (msg : Bytes) :
    receivedMsg? dir ((dir, .receive len), .received (.ok msg)) = some msg := if_pos rfl

@[simp] theorem receivedMsg?_send (dir d : Bool) (msg : Bytes) (ans : PipeAns) :
    receivedMsg? dir ((d, .send msg), ans) = none := rfl

/-- The messages that the end `dir` got accepted. -/
def sentBy (dir : Bool) (es : List PipeEvent) : List Bytes := es.filterMap (sentMsg? dir)

/-- The messages that the end `dir` received. -/
def receivedBy (dir : Bool) (es : List PipeEvent) : List Bytes := es.filterMap (receivedMsg? dir)

/-- The call was refused. -/
def Refused : PipeAns → Prop
  | .sent st => st ≠ .success
  | .received (.error _) => True
  | _ => False

/-! ## One step, seen by one end -/

/-- What a call does to the messages that the end `dir` is to receive. -/
inductive Incoming (cfg : ChannelLocalConfig) (dir : Bool) :
    PipeEvent → List Bytes → List Bytes → Prop
  | unchanged {e : PipeEvent} {pending : List Bytes} (hsent : sentMsg? (!dir) e = none)
      (hreceived : receivedMsg? dir e = none) : Incoming cfg dir e pending pending
  | added {msg : Bytes} {pending : List Bytes} (hroom : pending.length < cfg.queueDepth) :
      Incoming cfg dir ((!dir, .send msg), .sent .success) pending (pending ++ [msg])
  | wroteOver {msg oldest : Bytes} {rest : List Bytes} (hover : cfg.writeOver = true)
      (hfull : rest.length + 1 = cfg.queueDepth) :
      Incoming cfg dir ((!dir, .send msg), .sent .success) (oldest :: rest) (rest ++ [msg])
  | took {msg : Bytes} {len : Nat} {rest : List Bytes} :
      Incoming cfg dir ((dir, .receive len), .received (.ok msg)) (msg :: rest) rest

/-- Both directions are bounded. -/
def PipeBounded (cfg : ChannelLocalConfig) (core : ChannelLocal2Core) : Prop :=
  ∀ dir, (core.incoming dir).Bounded cfg

section Step

variable {cfg : ChannelLocalConfig} {core : ChannelLocal2Core}

theorem chnL2Send_eq (core : ChannelLocal2Core) (dir : Bool) (msg : Bytes) :
    (chnL2Send core (!dir) msg).1 = (chnLSend (core.incoming dir) msg).1 ∧
    (chnL2Send core (!dir) msg).2.incoming dir = (chnLSend (core.incoming dir) msg).2 ∧
    (chnL2Send core dir msg).2.incoming dir = core.incoming dir := by
  cases dir <;> exact ⟨rfl, rfl, rfl⟩

theorem chnL2Receive_eq (core : ChannelLocal2Core) (dir : Bool) (len : Nat) :
    (chnL2Receive core dir len).1 = (chnLReceive (core.incoming dir) len).1 ∧
    (chnL2Receive core dir len).2.incoming dir = (chnLReceive (core.incoming dir) len).2 ∧
    (chnL2Receive core (!dir) len).2.incoming dir = core.incoming dir := by
  cases dir <;> exact ⟨rfl, rfl, rfl⟩

theorem pipeStep_bounded (h : PipeBounded cfg core) (op : Bool × PipeOp) :
    PipeBounded cfg (pipeStep core op).2 := by
  obtain ⟨d, op⟩ := op
  intro dir
  cases op with
  | send msg =>
    obtain ⟨-, hto, hfrom⟩ := chnL2Send_eq core dir msg
    rcases Bool.eq_or_eq_not d dir with rfl | rfl
    · rw [pipeStep, hfrom]
      exact h d
    · rw [pipeStep, hto]
      exact chnLSend_bounded (h dir) msg
  | receive len =>
    obtain ⟨-, hto, hfrom⟩ := chnL2Receive_eq core dir len
    rcases Bool.eq_or_eq_not d dir with rfl | rfl
    · rw [pipeStep, hto]
      exact chnLReceive_bounded (h d) len
    · rw [pipeStep, hfrom]
      exact h dir
  | incomingLen => exact h dir

/-- **What one end sees of a step.** -/
theorem pipeStep_incoming (h : PipeBounded cfg core) (op : Bool × PipeOp) (dir : Bool) :
    Incoming cfg dir (op, (pipeStep core op).1) (core.incoming dir).pending
      ((pipeStep core op).2.incoming dir).pending := by
  obtain ⟨d, op⟩ := op
  cases op with
  | send msg =>
    obtain ⟨hst, hto, hfrom⟩ := chnL2Send_eq core dir msg
    -- A message goes into the queue of the other end.
    rcases Bool.eq_or_eq_not d dir with rfl | rfl
    · rw [pipeStep, hfrom]
      refine .unchanged ?_ rfl
      cases (chnL2Send core d msg).1 <;> simp [sentMsg?]
    · rw [pipeStep, hto, hst]
      have hcases := chnLSend_cases (h dir) msg
      generalize chnLSend (core.incoming dir) msg = out at hcases
      obtain ⟨st, chn'⟩ := out
      cases hcases with
      | refused hst =>
        refine .unchanged ?_ rfl
        rcases hst with rfl | rfl <;> rfl
      | added _ hroom hadded =>
        rw [hadded]
        exact .added hroom
      | wroteOver _ hover hfull hold hadded =>
        rw [hold] at hfull
        rw [hold, hadded]
        exact .wroteOver hover hfull
  | receive len =>
    obtain ⟨hr, hto, hfrom⟩ := chnL2Receive_eq core dir len
    rcases Bool.eq_or_eq_not d dir with rfl | rfl
    · rw [pipeStep, hto, hr]
      have hcases := chnLReceive_cases (core.incoming d) len
      generalize chnLReceive (core.incoming d) len = out at hcases
      obtain ⟨r, chn'⟩ := out
      cases hcases with
      | refused => exact .unchanged rfl rfl
      | took hold htaken =>
        rw [hold, htaken]
        exact .took
    · rw [pipeStep, hfrom]
      refine .unchanged rfl ?_
      cases (chnL2Receive core (!dir) len).1 <;> simp [receivedMsg?]
  | incomingLen => exact .unchanged rfl rfl

/-- `incoming_len` tells the length of the oldest message. -/
theorem pipeStep_incomingLen {dir : Bool} {n : Nat}
    (h : (pipeStep core (dir, .incomingLen)).1 = .incoming (.ok n)) :
    ∃ oldest rest, (core.incoming dir).pending = oldest :: rest ∧ oldest.length = n := by
  have hlen : chnLIncomingLen (core.incoming dir) = .ok n := PipeAns.incoming.inj h
  rw [chnLIncomingLen_eq] at hlen
  cases hold : (core.incoming dir).pending with
  | nil => simp [hold] at hlen
  | cons oldest rest =>
    rw [hold] at hlen
    exact ⟨oldest, rest, rfl, Except.ok.inj hlen⟩

/-- A receive that succeeds takes the oldest message. -/
theorem pipeStep_received {dir : Bool} {len : Nat} {msg : Bytes}
    (h : (pipeStep core (dir, .receive len)).1 = .received (.ok msg)) :
    ∃ rest, (core.incoming dir).pending = msg :: rest := by
  have hok : (chnLReceive (core.incoming dir) len).1 = .ok msg := by
    rw [← (chnL2Receive_eq core dir len).1]
    exact PipeAns.received.inj h
  have hcases := chnLReceive_cases (core.incoming dir) len
  rw [hok] at hcases
  cases hcases with
  | took hold htaken => exact ⟨_, hold⟩

/-- A refused call changes nothing. -/
theorem pipeStep_refused {op : Bool × PipeOp} (h : Refused (pipeStep core op).1) :
    (pipeStep core op).2 = core := by
  obtain ⟨dir, op⟩ := op
  cases op with
  | send msg =>
    have hst : (chnL2Send core dir msg).1 ≠ .success := h
    cases dir with
    | true => exact congrArg (ChannelLocal2Core.mk · core.b2a) (chnLSend_refused hst)
    | false => exact congrArg (ChannelLocal2Core.mk core.a2b ·) (chnLSend_refused hst)
  | receive len =>
    obtain ⟨st, hst⟩ : ∃ st, (chnL2Receive core dir len).1 = .error st := by
      cases hr : (chnL2Receive core dir len).1 with
      | error st => exact ⟨st, rfl⟩
      | ok msg => simp [pipeStep, hr, Refused] at h
    cases dir with
    | true => exact congrArg (ChannelLocal2Core.mk core.a2b ·) (chnLReceive_refused hst)
    | false => exact congrArg (ChannelLocal2Core.mk · core.b2a) (chnLReceive_refused hst)
  | incomingLen => rfl

/-- What a send does to both directions. -/
theorem chnL2Send_pending (h : PipeBounded cfg core) {core' : ChannelLocal2Core} {dir : Bool}
    {msg : Bytes} {st : ChannelStatus} (hsend : chnL2Send core dir msg = (st, core')) :
    PipeBounded cfg core' ∧ (core'.incoming dir).pending = (core.incoming dir).pending ∧
    (st ≠ .success → core' = core) ∧
    (st = .success → (core.incoming (!dir)).pending = [] →
      (core'.incoming (!dir)).pending = [msg]) := by
  have hbounded := pipeStep_bounded h (dir, .send msg)
  have hother := (chnL2Send_eq core dir msg).2.2
  have hrefused : Refused (pipeStep core (dir, .send msg)).1 → (pipeStep core (dir, .send msg)).2
      = core := pipeStep_refused
  obtain ⟨hst, hto, -⟩ := chnL2Send_eq core (!dir) msg
  rw [Bool.not_not] at hst hto
  simp only [pipeStep, hsend] at hbounded hother hrefused hst hto
  refine ⟨hbounded, congrArg ChannelLocal.pending hother, hrefused, fun hsuccess hnil => ?_⟩
  have hcases := chnLSend_cases (h (!dir)) msg
  rw [← hst, ← hto, hsuccess] at hcases
  generalize core'.incoming (!dir) = chn' at hcases ⊢
  cases hcases with
  | refused h => simp at h
  | added _ _ hadded => rw [hadded, hnil, List.nil_append]
  | wroteOver _ _ _ hold _ => simp [hnil] at hold

/-- What a receive does to both directions. -/
theorem chnL2Receive_pending (h : PipeBounded cfg core) {core' : ChannelLocal2Core} {dir : Bool}
    {len : Nat} {r : Except ChannelStatus Bytes} (hreceive : chnL2Receive core dir len = (r, core')) :
    PipeBounded cfg core' ∧ (core'.incoming (!dir)).pending = (core.incoming (!dir)).pending ∧
    (∀ st, r = .error st → core' = core) ∧
    (∀ msg, r = .ok msg → (core.incoming dir).pending = msg :: (core'.incoming dir).pending) := by
  have hbounded := pipeStep_bounded h (dir, .receive len)
  obtain ⟨hr, hto, -⟩ := chnL2Receive_eq core dir len
  have hother := (chnL2Receive_eq core (!dir) len).2.2
  have hrefused : Refused (pipeStep core (dir, .receive len)).1 →
      (pipeStep core (dir, .receive len)).2 = core := pipeStep_refused
  rw [Bool.not_not] at hother
  simp only [pipeStep, hreceive] at hbounded hother hrefused hr hto
  refine ⟨hbounded, congrArg ChannelLocal.pending hother, ?_, fun msg hok => ?_⟩
  · rintro st rfl
    exact hrefused trivial
  · have hcases := chnLReceive_cases (core.incoming dir) len
    rw [← hr, ← hto, hok] at hcases
    generalize core'.incoming dir = chn' at hcases ⊢
    cases hcases with
    | took hold htaken => rw [hold, htaken]

end Step

/-! ## Runs -/

section Run

variable {cfg : ChannelLocalConfig} {core : ChannelLocal2Core}

theorem newChannelLocal2Core_eq_ok (h : newChannelLocal2Core cfg = .ok core) :
    PipeBounded cfg core ∧ ∀ dir, (core.incoming dir).pending = [] := by
  unfold newChannelLocal2Core at h
  cases hchn : newChannelLocal cfg with
  | error st =>
    rw [hchn] at h
    cases h
  | ok chn =>
    rw [hchn] at h
    cases h
    obtain ⟨hbounded, hnil⟩ := newChannelLocal_eq_ok hchn
    refine ⟨fun dir => ?_, fun dir => ?_⟩ <;> cases dir <;> assumption

theorem newChannelLocal2Core_isOk (hdepth : 1 ≤ cfg.queueDepth) :
    ∃ core, newChannelLocal2Core cfg = .ok core := by
  obtain ⟨q, hq⟩ := newQueue_isSome (α := Bytes) (Nat.one_le_iff_ne_zero.mp hdepth)
  have hchn : newChannelLocal cfg = .ok ⟨cfg, q⟩ := by simp only [newChannelLocal, hq]
  refine ⟨⟨⟨cfg, q⟩, ⟨cfg, q⟩⟩, ?_⟩
  rw [newChannelLocal2Core, hchn]
  rfl

theorem stateAfter_bounded (h : PipeBounded cfg core) (ops : List (Bool × PipeOp)) :
    PipeBounded cfg (stateAfter pipeStep core ops) := by
  induction ops using List.reverseRecOn with
  | nil => exact h
  | append_singleton ops op ih =>
    rw [stateAfter_append]
    exact pipeStep_bounded ih op

/-- The message number `k` for the end `dir` was displaced: a send was accepted when
`queue_depth` messages were pending of which it was the oldest. -/
def DisplacedAt (cfg : ChannelLocalConfig) (core : ChannelLocal2Core) (dir : Bool)
    (ops : List (Bool × PipeOp)) (k : Nat) : Prop :=
  cfg.writeOver = true ∧ ∃ pre msg post, ops = pre ++ (!dir, .send msg) :: post ∧
    (pipeStep (stateAfter pipeStep core pre) (!dir, .send msg)).1 = .sent .success ∧
    ((stateAfter pipeStep core pre).incoming dir).pending.length = cfg.queueDepth ∧
    (sentBy (!dir) (events pipeStep core pre)).length = k + cfg.queueDepth

/-- A send to the end `dir` was accepted when `queue_depth` messages were pending. -/
def WroteOver (cfg : ChannelLocalConfig) (core : ChannelLocal2Core) (dir : Bool)
    (ops : List (Bool × PipeOp)) : Prop :=
  cfg.writeOver = true ∧ ∃ pre msg post, ops = pre ++ (!dir, .send msg) :: post ∧
    (pipeStep (stateAfter pipeStep core pre) (!dir, .send msg)).1 = .sent .success ∧
    ((stateAfter pipeStep core pre).incoming dir).pending.length = cfg.queueDepth

theorem WroteOver.append {dir : Bool} {ops : List (Bool × PipeOp)}
    (h : WroteOver cfg core dir ops) (ops' : List (Bool × PipeOp)) :
    WroteOver cfg core dir (ops ++ ops') := by
  obtain ⟨hover, pre, msg, post, rfl, hrest⟩ := h
  exact ⟨hover, pre, msg, post ++ ops', by rw [List.append_assoc, List.cons_append], hrest⟩

theorem DisplacedAt.append {dir : Bool} {ops : List (Bool × PipeOp)} {k : Nat}
    (h : DisplacedAt cfg core dir ops k) (ops' : List (Bool × PipeOp)) :
    DisplacedAt cfg core dir (ops ++ ops') k := by
  obtain ⟨hover, pre, msg, post, rfl, hrest⟩ := h
  exact ⟨hover, pre, msg, post ++ ops', by rw [List.append_assoc, List.cons_append], hrest⟩

/-- **The account of a direction.** A message that is gone was received, or displaced. -/
theorem localPipe_account (h : PipeBounded cfg core) (dir : Bool)
    (hnil : (core.incoming dir).pending = []) (ops : List (Bool × PipeOp)) :
    ∃ fate, Account (sentBy (!dir) (events pipeStep core ops))
        (receivedBy dir (events pipeStep core ops))
        ((stateAfter pipeStep core ops).incoming dir).pending fate ∧
      ∀ k, fate[k]? = some false → DisplacedAt cfg core dir ops k := by
  -- The last call either leaves the pending messages, or settles the fate of the oldest one.
  induction ops using List.reverseRecOn with
  | nil => exact ⟨[], by rw [stateAfter, List.foldl_nil, hnil]; exact Account.empty, by simp⟩
  | append_singleton ops op ih =>
    obtain ⟨fate, haccount, hdisplaced⟩ := ih
    have hlength := haccount.length
    have hstep := pipeStep_incoming (stateAfter_bounded h ops) op dir
    have hlater : ∀ k, fate[k]? = some false → DisplacedAt cfg core dir (ops ++ [op]) k :=
      fun k hk => (hdisplaced k hk).append [op]
    rw [stateAfter_append, events_snoc, sentBy, receivedBy, List.filterMap_append,
      List.filterMap_append, ← sentBy, ← receivedBy]
    show ∃ fate, Account _ _ ((pipeStep (stateAfter pipeStep core ops) op).2.incoming dir).pending
      fate ∧ _
    generalize hans : (pipeStep (stateAfter pipeStep core ops) op).1 = ans at hstep ⊢
    generalize ((pipeStep (stateAfter pipeStep core ops) op).2.incoming dir).pending = pending'
      at hstep ⊢
    generalize hpending : ((stateAfter pipeStep core ops).incoming dir).pending = pending
      at hstep haccount hlength
    cases hstep with
    | unchanged hsent hreceived =>
      exact ⟨fate, by simpa [hsent, hreceived] using haccount, hlater⟩
    | added => exact ⟨fate, by simpa [List.filterMap_cons] using haccount.push _, hlater⟩
    | wroteOver hover hfull =>
      refine ⟨fate ++ [false], by simpa [List.filterMap_cons] using haccount.displace _, fun k hk => ?_⟩
      rcases Nat.lt_trichotomy k fate.length with hlt | rfl | hgt
      · rw [List.getElem?_append_left hlt] at hk
        exact hlater k hk
      · refine ⟨hover, ops, _, [], rfl, hans, by rw [hpending]; exact hfull, ?_⟩
        rw [← hlength, ← hfull, List.length_cons]
      · rw [List.getElem?_eq_none (by simp; omega)] at hk
        simp at hk
    | took =>
      refine ⟨fate ++ [true], by simpa [List.filterMap_cons] using haccount.pop, fun k hk => ?_⟩
      rcases Nat.lt_trichotomy k fate.length with hlt | rfl | hgt
      · rw [List.getElem?_append_left hlt] at hk
        exact hlater k hk
      · simp at hk
      · rw [List.getElem?_eq_none (by simp; omega)] at hk
        simp at hk

/-- Without `write_over` every message is received or pending. -/
theorem localPipe_conservation (h : PipeBounded cfg core) (dir : Bool)
    (hnil : (core.incoming dir).pending = []) (hover : cfg.writeOver = false)
    (ops : List (Bool × PipeOp)) :
    sentBy (!dir) (events pipeStep core ops) = receivedBy dir (events pipeStep core ops) ++
      ((stateAfter pipeStep core ops).incoming dir).pending := by
  obtain ⟨fate, haccount, hdisplaced⟩ := localPipe_account h dir hnil ops
  refine haccount.conservation fun hmem => ?_
  obtain ⟨k, hk⟩ := List.mem_iff_getElem?.mp hmem
  have hwrote := (hdisplaced k hk).1
  rw [hover] at hwrote
  exact absurd hwrote Bool.false_ne_true

/-- Receives that are large enough empty the channel. -/
theorem receivedBy_drain : ∀ (n : Nat) {core : ChannelLocal2Core} (_ : PipeBounded cfg core)
    (dir : Bool) {len : Nat}, (core.incoming dir).pending.length ≤ n → cfg.maxMsgSize ≤ len →
    receivedBy dir (events pipeStep core (List.replicate n (dir, .receive len)))
      = (core.incoming dir).pending
  | 0, core, _, dir, len, hn, _ => by
    rw [List.replicate_zero, events]
    exact (List.eq_nil_of_length_eq_zero (Nat.le_zero.mp hn)).symm
  | n + 1, core, h, dir, len, hn, hlen => by
    obtain ⟨hr, hto, -⟩ := chnL2Receive_eq core dir len
    have hbounded := pipeStep_bounded h (dir, .receive len)
    rw [List.replicate_succ, events, receivedBy, List.filterMap_cons, ← receivedBy]
    cases hold : (core.incoming dir).pending with
    | nil =>
      have hnil := chnLReceive_of_nil hold len
      have hpending : ((pipeStep core (dir, .receive len)).2.incoming dir).pending = [] := by
        rw [pipeStep, hto, hnil, hold]
      have hans : (pipeStep core (dir, .receive len)).1 = .received (.error .noIncomingMsg) := by
        rw [pipeStep, hr, hnil]
      have ih := receivedBy_drain n hbounded dir (by rw [hpending]; exact Nat.zero_le n) hlen
      rw [hans, ih, hpending]
      rfl
    | cons msg rest =>
      have hsize : msg.length ≤ len :=
        Nat.le_trans ((h dir).sizes msg (by rw [hold]; exact List.mem_cons_self)) hlen
      obtain ⟨hok, hrest⟩ := chnLReceive_of_cons hold hsize
      have hpending : ((pipeStep core (dir, .receive len)).2.incoming dir).pending = rest := by
        rw [pipeStep, hto, hrest]
      have hans : (pipeStep core (dir, .receive len)).1 = .received (.ok msg) := by
        rw [pipeStep, hr, hok]
      rw [hold, List.length_cons] at hn
      have ih := receivedBy_drain n hbounded dir
        (by rw [hpending]; exact Nat.le_of_succ_le_succ hn) hlen
      rw [hans, receivedMsg?_ok, ih, hpending]

/-- **The oldest message stays the oldest** until it is received or displaced. -/
theorem oldest_stays (h : PipeBounded cfg core) (dir : Bool) {msg : Bytes} {rest : List Bytes}
    (hold : (core.incoming dir).pending = msg :: rest) (ops : List (Bool × PipeOp))
    (hnone : receivedBy dir (events pipeStep core ops) = []) :
    (∃ rest', ((stateAfter pipeStep core ops).incoming dir).pending = msg :: rest') ∨
      WroteOver cfg core dir ops := by
  induction ops using List.reverseRecOn with
  | nil => exact .inl ⟨rest, hold⟩
  | append_singleton ops op ih =>
    rw [events_snoc, receivedBy, List.filterMap_append, ← receivedBy, List.append_eq_nil_iff] at hnone
    obtain ⟨hbefore, hlast⟩ := hnone
    rcases ih hbefore with ⟨rest', hpending⟩ | hwrote
    · have hstep := pipeStep_incoming (stateAfter_bounded h ops) op dir
      rw [stateAfter_append]
      show (∃ rest', ((pipeStep (stateAfter pipeStep core ops) op).2.incoming dir).pending = _) ∨ _
      generalize hans : (pipeStep (stateAfter pipeStep core ops) op).1 = ans at hstep hlast
      generalize ((pipeStep (stateAfter pipeStep core ops) op).2.incoming dir).pending = pending'
        at hstep ⊢
      rw [hpending] at hstep
      cases hstep with
      | unchanged => exact .inl ⟨rest', rfl⟩
      | added => exact .inl ⟨_, rfl⟩
      | wroteOver hover hfull =>
        refine .inr ⟨hover, ops, _, [], rfl, hans, ?_⟩
        rw [hpending]
        exact hfull
      | took => simp at hlast
    · exact .inr (hwrote.append [op])

end Run

/-! ## The pipe -/

/--
**A pipe is two bounded FIFOs.** In every direction each message that is no longer pending was
received, in order, or displaced by a later one when `queue_depth` were pending; without
`write_over` all are received. A refused call changes nothing. `incoming_len` tells the length
of the next message received, unless one is written over in between.
-/
theorem localPipe_fifos {cfg : ChannelLocalConfig} (hdepth : 1 ≤ cfg.queueDepth) :
    ∃ core, newChannelLocal2Core cfg = .ok core ∧ ∀ ops,
      let es := events pipeStep core ops
      let now := stateAfter pipeStep core ops
      (∀ dir, ∃ fate, Account (sentBy (!dir) es) (receivedBy dir es) (now.incoming dir).pending fate ∧
        ∀ k, fate[k]? = some false → DisplacedAt cfg core dir ops k) ∧
      (cfg.writeOver = false → ∀ dir n len, (now.incoming dir).pending.length ≤ n →
        cfg.maxMsgSize ≤ len →
        receivedBy dir (events pipeStep core (ops ++ List.replicate n (dir, .receive len)))
          = sentBy (!dir) es) ∧
      (∀ op, Refused (pipeStep now op).1 → (pipeStep now op).2 = now) ∧
      ∀ dir n later len msg, (pipeStep now (dir, .incomingLen)).1 = .incoming (.ok n) →
        receivedBy dir (events pipeStep now later) = [] →
        (pipeStep (stateAfter pipeStep now later) (dir, .receive len)).1 = .received (.ok msg) →
        msg.length = n ∨ WroteOver cfg now dir later := by
  obtain ⟨core, hcore⟩ := newChannelLocal2Core_isOk hdepth
  obtain ⟨hbounded, hnil⟩ := newChannelLocal2Core_eq_ok hcore
  refine ⟨core, hcore, fun ops => ⟨fun dir => localPipe_account hbounded dir (hnil dir) ops,
    fun hover dir n len hn hlen => ?_, fun op => pipeStep_refused, ?_⟩⟩
  · rw [events_append, receivedBy, List.filterMap_append, ← receivedBy, ← receivedBy,
      receivedBy_drain n (stateAfter_bounded hbounded ops) dir hn hlen,
      ← localPipe_conservation hbounded dir (hnil dir) hover]
  · intro dir n later len msg hincoming hnone hreceived
    have hnow := stateAfter_bounded hbounded ops
    generalize stateAfter pipeStep core ops = now at hincoming hnone hreceived hnow ⊢
    obtain ⟨oldest, rest, hold, rfl⟩ := pipeStep_incomingLen hincoming
    rcases oldest_stays hnow dir hold later hnone with ⟨rest', hstays⟩ | hwrote
    · obtain ⟨rest'', htaken⟩ := pipeStep_received hreceived
      rw [hstays, List.cons.injEq] at htaken
      exact .inl (congrArg List.length htaken.1.symm)
    · exact .inr hwrote

/-- A message that is sent without `write_over` is received. -/
theorem localPipe_fifos_drain :
    ∃ core, newChannelLocal2Core ⟨1, false, 4⟩ = .ok core ∧
      receivedBy false (events pipeStep core
        ([(true, .send [1, 2])] ++ List.replicate 1 (false, .receive 4)))
        = sentBy (!false) (events pipeStep core [(true, .send [1, 2])]) := by
  obtain ⟨core, hcore, hruns⟩ := localPipe_fifos
    (show 1 ≤ (⟨1, false, 4⟩ : ChannelLocalConfig).queueDepth from le_rfl)
  have hbounded := (newChannelLocal2Core_eq_ok hcore).1
  have hone : ((stateAfter pipeStep core [(true, .send [1, 2])]).incoming false).pending.length
      ≤ 1 := (stateAfter_bounded hbounded _ false).pending_le
  exact ⟨core, hcore, (hruns [(true, .send [1, 2])]).2.1 rfl false 1 4 hone le_rfl⟩

/-- **`incoming_len` is not a promise.** A message of another length may be written over the
one it told of. -/
theorem not_incomingLen_next :
    ¬∀ (cfg : ChannelLocalConfig) (core : ChannelLocal2Core), 1 ≤ cfg.queueDepth →
      newChannelLocal2Core cfg = .ok core → ∀ ops dir n later len msg,
        (pipeStep (stateAfter pipeStep core ops) (dir, .incomingLen)).1 = .incoming (.ok n) →
        receivedBy dir (events pipeStep (stateAfter pipeStep core ops) later) = [] →
        (pipeStep (stateAfter pipeStep (stateAfter pipeStep core ops) later) (dir, .receive len)).1
          = .received (.ok msg) →
        msg.length = n := by
  intro h
  have hlen : (2 : Nat) = 1 := h ⟨1, true, 4⟩ _ le_rfl rfl [(true, .send [7])] false 1
    [(true, .send [8, 9])] 4 [8, 9] rfl rfl rfl
  exact absurd hlen (by decide)

end Chlibs.Channel

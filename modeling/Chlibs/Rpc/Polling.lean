import Chlibs.Rpc.Client

/-!
# How long a client waits

The polling loop of the client on a channel that stays empty. The time waited is counted in
32 bits.

* `chrpcClientPoll_empty` — empty polls add up to their number times the cadence.
* `endsWithin_maxPolls_iff` — when the loop ends with the timeout.
-/

namespace Chlibs.Rpc

open Channel

/-- `⌈timeout / cadence⌉`. -/
def ClientAttrs.maxPolls (attrs : ClientAttrs) : Nat :=
  (attrs.timeout.toNat + attrs.cadence.toNat - 1) / attrs.cadence.toNat

/-- Polls of a channel that answers `CHN_NO_INCOMING_MSG`. -/
def emptyPolls (k : Nat) : List Poll := List.replicate k ⟨.success, .error .noIncomingMsg⟩

/-- The polling loop is over after some number of empty polls, at most `n`. -/
def EndsWithin (attrs : ClientAttrs) (n : Nat) : Prop :=
  ∃ k ≤ n, (chrpcClientPoll attrs (emptyPolls k) 0 .success).isSome

theorem chrpcClientPoll_empty (attrs : ClientAttrs) (polls : List Poll) : ∀ (k : Nat)
    (timeWaited : UInt32) (chnStatus : ChannelStatus),
    timeWaited.toNat + k * attrs.cadence.toNat < attrs.timeout.toNat →
    ∃ timeWaited' chnStatus', timeWaited'.toNat = timeWaited.toNat + k * attrs.cadence.toNat ∧
      chrpcClientPoll attrs (emptyPolls k ++ polls)
          timeWaited chnStatus
        = chrpcClientPoll attrs polls timeWaited' chnStatus'
  | 0, timeWaited, chnStatus, _ => ⟨timeWaited, chnStatus, by simp, rfl⟩
  | k + 1, timeWaited, chnStatus, h => by
    have htime : timeWaited < attrs.timeout := by
      rw [UInt32.lt_iff_toNat_lt]
      omega
    have hnext : (timeWaited + attrs.cadence).toNat = timeWaited.toNat + attrs.cadence.toNat := by
      have hmax := attrs.timeout.toNat_lt
      rw [UInt32.toNat_add, Nat.mod_eq_of_lt]
      rw [Nat.add_mul] at h
      omega
    obtain ⟨timeWaited', chnStatus', hwaited, heq⟩ := chrpcClientPoll_empty attrs polls k
      (timeWaited + attrs.cadence) .noIncomingMsg (by rw [hnext]; rw [Nat.add_mul] at h; omega)
    refine ⟨timeWaited', chnStatus', by rw [hwaited, hnext, Nat.add_mul]; omega, ?_⟩
    rw [emptyPolls, List.replicate_succ, List.cons_append, chrpcClientPoll, if_pos htime]
    exact heq

/-- The last poll before the timeout comes after less than the timeout. -/
theorem ClientAttrs.lt_timeout_iff {attrs : ClientAttrs} (hcadence : 0 < attrs.cadence.toNat)
    (k : Nat) : k * attrs.cadence.toNat < attrs.timeout.toNat ↔ k < attrs.maxPolls := by
  rw [ClientAttrs.maxPolls, Nat.lt_iff_add_one_le (m := k), Nat.le_div_iff_mul_le hcadence,
    Nat.succ_mul]
  omega

/-- Before the last poll the loop goes on. -/
theorem chrpcClientPoll_waiting {attrs : ClientAttrs} {k : Nat}
    (hk : k * attrs.cadence.toNat < attrs.timeout.toNat) :
    chrpcClientPoll attrs (emptyPolls k) 0 .success = none := by
  have h0 : (0 : UInt32).toNat = 0 := rfl
  obtain ⟨timeWaited, chnStatus, hwaited, heq⟩ := chrpcClientPoll_empty attrs [] k 0 .success
    (by rw [h0]; omega)
  have htime : timeWaited < attrs.timeout := by
    rw [UInt32.lt_iff_toNat_lt, hwaited, h0]
    omega
  rw [List.append_nil] at heq
  rw [heq, chrpcClientPoll, if_pos htime]

/-- The last poll ends the loop unless the time waited wraps around. -/
theorem chrpcClientPoll_last {attrs : ClientAttrs} {k : Nat}
    (hk : k * attrs.cadence.toNat < attrs.timeout.toNat)
    (hlast : attrs.timeout.toNat ≤ (k + 1) * attrs.cadence.toNat) :
    (chrpcClientPoll attrs (emptyPolls (k + 1)) 0 .success).isSome ↔
      (k + 1) * attrs.cadence.toNat < 2 ^ 32 := by
  have h0 : (0 : UInt32).toNat = 0 := rfl
  obtain ⟨timeWaited, chnStatus, hwaited, heq⟩ := chrpcClientPoll_empty attrs (emptyPolls 1) k 0
    .success (by rw [h0]; omega)
  have htime : timeWaited < attrs.timeout := by
    rw [UInt32.lt_iff_toNat_lt, hwaited, h0]
    omega
  have hsplit : emptyPolls k ++ emptyPolls 1 = emptyPolls (k + 1) := by
    rw [emptyPolls, emptyPolls, emptyPolls, List.replicate_append_replicate]
  rw [hsplit] at heq
  have hcadence := attrs.cadence.toNat_lt
  have htimeout := attrs.timeout.toNat_lt
  have hsum : (timeWaited + attrs.cadence).toNat = (k + 1) * attrs.cadence.toNat % 2 ^ 32 := by
    rw [UInt32.toNat_add, hwaited, h0, Nat.zero_add, Nat.succ_mul]
  rw [Nat.succ_mul] at hlast hsum ⊢
  have hstep : chrpcClientPoll attrs (emptyPolls 1) timeWaited chnStatus
      = if timeWaited + attrs.cadence < attrs.timeout then none else some (.error .noIncomingMsg) := by
    rw [emptyPolls, List.replicate_one, chrpcClientPoll, if_pos htime]
    rfl
  rw [heq, hstep]
  by_cases hfits : k * attrs.cadence.toNat + attrs.cadence.toNat < 2 ^ 32
  · rw [Nat.mod_eq_of_lt hfits] at hsum
    rw [if_neg (by rw [UInt32.lt_iff_toNat_lt]; omega)]
    exact iff_of_true rfl hfits
  · -- What is left after the wrap is less than what was waited before it.
    have hmod : (k * attrs.cadence.toNat + attrs.cadence.toNat) % 2 ^ 32
        = k * attrs.cadence.toNat + attrs.cadence.toNat - 2 ^ 32 := by
      rw [Nat.mod_eq_sub_mod (by omega), Nat.mod_eq_of_lt (by omega)]
    rw [if_pos (by rw [UInt32.lt_iff_toNat_lt, hsum, hmod]; omega)]
    exact iff_of_false (by simp) hfits

/--
**An accepted client stops polling with its timeout if and only if the first multiple of the
cadence from the timeout on fits in 32 bits.**
-/
theorem endsWithin_maxPolls_iff {attrs : ClientAttrs} {buf : Infra.Bytes} {client : ChrpcClient}
    (h : newChrpcClient attrs buf = some client) :
    EndsWithin client.attrs client.attrs.maxPolls ↔
      client.attrs.maxPolls * client.attrs.cadence.toNat < 2 ^ 32 := by
  unfold newChrpcClient at h
  split at h
  · cases h
  next hne =>
    cases h
    have hcadence : 0 < attrs.cadence.toNat :=
      Nat.pos_of_ne_zero fun hz => hne (UInt32.toNat_inj.mp hz)
    cases hn : attrs.maxPolls with
    | zero =>
      -- No time to wait at all.
      have hzero : ¬ 0 < attrs.timeout := by
        intro hlt
        have hpos := (ClientAttrs.lt_timeout_iff hcadence 0).mp
          (by rw [Nat.zero_mul]; exact UInt32.lt_iff_toNat_lt.mp hlt)
        omega
      refine iff_of_true ⟨0, le_refl 0, ?_⟩ (by simp)
      rw [emptyPolls, List.replicate_zero, chrpcClientPoll, if_neg hzero]
      rfl
    | succ k =>
      have hk := (ClientAttrs.lt_timeout_iff hcadence k).mpr (by omega)
      have hlast : attrs.timeout.toNat ≤ (k + 1) * attrs.cadence.toNat := by
        have hnot := (ClientAttrs.lt_timeout_iff hcadence (k + 1)).not.mpr (by omega)
        omega
      rw [← chrpcClientPoll_last hk hlast]
      constructor
      · rintro ⟨j, hj, hsome⟩
        rcases Nat.lt_or_eq_of_le hj with hlt | rfl
        · have hwaiting := (ClientAttrs.lt_timeout_iff hcadence j).mpr (by omega)
          rw [chrpcClientPoll_waiting hwaiting] at hsome
          cases hsome
        · exact hsome
      · intro hsome
        exact ⟨k + 1, le_refl _, hsome⟩

theorem endsWithin_maxPolls_iff_default :
    EndsWithin ⟨50000, 5000000⟩ 100 ↔ 100 * 50000 < 2 ^ 32 :=
  endsWithin_maxPolls_iff
    (show newChrpcClient ⟨50000, 5000000⟩ [] = some ⟨⟨50000, 5000000⟩, true, []⟩ from rfl)

/-- A client with half the range of the counter as its cadence goes on after its two polls. -/
theorem not_endsWithin_halfRange :
    newChrpcClient ⟨0x80000000, 0x80000001⟩ [] = some ⟨⟨0x80000000, 0x80000001⟩, true, []⟩ ∧
      ClientAttrs.maxPolls ⟨0x80000000, 0x80000001⟩ = 2 ∧
      ¬ EndsWithin ⟨0x80000000, 0x80000001⟩ 2 := by
  refine ⟨rfl, rfl, ?_⟩
  rintro ⟨k, hk, hsome⟩
  have hcases : k = 0 ∨ k = 1 ∨ k = 2 := by omega
  rcases hcases with rfl | rfl | rfl
  · cases hsome
  · cases hsome
  · cases hsome

end Chlibs.Rpc

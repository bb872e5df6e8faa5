import Chlibs.Infra.Bytes

/-!
# Bounded writers

A C function that fills `n` bytes at an address of a block, counts what it wrote, and
gives up with a status when the room is too small.

* `Err` — what a call can end with besides a value: a status of type `σ`, or behaviour
  the C standard leaves undefined (a store outside its block, a `size_t` subtraction
  that goes below zero, a `strlen` past the end).
* `Fills` — the call fits exactly: it writes `e` when `e` fits, reports the status
  otherwise, and touches nothing outside its `n` bytes either way.

`Fills` composes along `>>=`, which is all the encoders need.
-/

namespace Chlibs.Infra

/-- How a call fails. -/
inductive Err (σ : Type) where
  | status (st : σ)
  | fault
  deriving DecidableEq, Repr

/-- A call that reads only. -/
abbrev Res (σ : Type) := Except (Err σ)

/-- A call that writes to one block. The block survives a failure. -/
abbrev BlockWriter (σ : Type) := EStateM (Err σ) Bytes

variable {σ α : Type}

/-- Store `bs` at `p`. Leaving the block is undefined. -/
def store (p : Nat) (bs : Bytes) : BlockWriter σ Unit := fun mem =>
  if p + bs.length ≤ mem.length then .ok () (overwrite mem p bs) else .error .fault mem

/-- `if (c) return st;` -/
def failIf (c : Prop) [Decidable c] (st : σ) : BlockWriter σ Unit :=
  if c then throw (.status st) else pure ()

/-- `n - w` on `size_t`, undefined below zero. -/
def remaining (n w : Nat) : BlockWriter σ Nat :=
  if w ≤ n then pure (n - w) else throw .fault

/-- `buf + pos` together with `len - pos`: the bytes from `pos` on. -/
def advance (buf : Bytes) (pos : Nat) : Res σ Bytes :=
  if pos ≤ buf.length then .ok (buf.drop pos) else .error .fault

/-- Lift a read-only call. -/
def liftRes (r : Res σ α) : BlockWriter σ α := fun mem =>
  match r with
  | .ok a => .ok a mem
  | .error e => .error e mem

/-- The two blocks agree outside `[p, p + n)`. -/
structure SameOutside (p n : Nat) (mem mem' : Bytes) : Prop where
  length : mem'.length = mem.length
  before : mem'.take p = mem.take p
  after : mem'.drop (p + n) = mem.drop (p + n)

theorem SameOutside.refl (p n : Nat) (mem : Bytes) : SameOutside p n mem mem :=
  ⟨rfl, rfl, rfl⟩

theorem SameOutside.trans {p n : Nat} {mem mem' mem'' : Bytes} (h : SameOutside p n mem mem')
    (h' : SameOutside p n mem' mem'') : SameOutside p n mem mem'' :=
  ⟨h'.length.trans h.length, h'.before.trans h.before, h'.after.trans h.after⟩

theorem SameOutside.overwrite {p n : Nat} {mem e : Bytes} (hmem : p + n ≤ mem.length)
    (he : e.length ≤ n) : SameOutside p n mem (overwrite mem p e) :=
  ⟨overwrite_length (by omega), take_overwrite (by omega), drop_overwrite (by omega) (by omega)⟩

/-- Touching only a tail of the range touches only the range. -/
theorem SameOutside.mono {p n k : Nat} {mem mem' : Bytes} (hk : k ≤ n)
    (h : SameOutside (p + k) (n - k) mem mem') : SameOutside p n mem mem' := by
  refine ⟨h.length, ?_, ?_⟩
  · have := congrArg (List.take p) h.before
    simpa [List.take_take] using this
  · have := h.after
    rwa [show p + k + (n - k) = p + n by omega] at this

/--
The call writes exactly `e` into `[p, p + n)` and returns `r` when `e` fits, and
reports `tooSmall` when it does not.
-/
structure Fills (tooSmall : σ) (w : BlockWriter σ α) (p n : Nat) (e : Bytes) (r : α) : Prop where
  fits : ∀ mem, p + n ≤ mem.length → e.length ≤ n → w.run mem = .ok r (overwrite mem p e)
  short : ∀ mem, p + n ≤ mem.length → n < e.length →
    ∃ mem', w.run mem = .error (.status tooSmall) mem' ∧ SameOutside p n mem mem'

variable {ts : σ} {p n : Nat}

/-- Writing nothing. -/
theorem Fills.pure (r : α) : Fills ts (Pure.pure r : BlockWriter σ α) p n [] r where
  fits mem _ _ := by simp [Pure.pure, EStateM.run, EStateM.pure]
  short _ _ h := absurd h (by simp)

/-- One writer after another fills with the concatenation. -/
theorem Fills.bind {β : Type} {w : BlockWriter σ α} {k : α → BlockWriter σ β} {e e' : Bytes} {r : α}
    {r' : β} (hw : Fills ts w p n e r)
    (hk : e.length ≤ n → Fills ts (k r) (p + e.length) (n - e.length) e' r') :
    Fills ts (w >>= k) p n (e ++ e') r' where
  fits mem hmem hlen := by
    rw [List.length_append] at hlen
    have he : e.length ≤ n := by omega
    have hlen1 : (overwrite mem p e).length = mem.length := overwrite_length (by omega)
    have h2 := (hk he).fits (overwrite mem p e) (by omega) (by omega)
    have h1 := hw.fits mem hmem he
    simp only [EStateM.run] at h1 h2 ⊢
    simp only [Bind.bind, EStateM.bind, h1, h2]
    rw [overwrite_overwrite (by omega)]
  short mem hmem hlen := by
    rw [List.length_append] at hlen
    by_cases he : e.length ≤ n
    · have hlen1 : (overwrite mem p e).length = mem.length := overwrite_length (by omega)
      have h1 := hw.fits mem hmem he
      obtain ⟨mem', h2, hs⟩ := (hk he).short (overwrite mem p e) (by omega) (by omega)
      refine ⟨mem', ?_, (SameOutside.overwrite hmem he).trans (hs.mono he)⟩
      simp only [EStateM.run] at h1 h2 ⊢
      simp only [Bind.bind, EStateM.bind, h1, h2]
    · obtain ⟨mem', h1, hs⟩ := hw.short mem hmem (by omega)
      refine ⟨mem', ?_, hs⟩
      simp only [EStateM.run] at h1 ⊢
      simp only [Bind.bind, EStateM.bind, h1]

/-- Computing the result of a call from that of another. -/
theorem Fills.map {β : Type} {w : BlockWriter σ α} {e : Bytes} {r : α} (f : α → β)
    (h : Fills ts w p n e r) : Fills ts (w >>= fun a => Pure.pure (f a)) p n e (f r) := by
  rw [← List.append_nil e]
  exact h.bind fun _ => Fills.pure (f r)

/-- A check that fails only where there is too little room. -/
theorem Fills.failIf {c : Prop} [Decidable c] {w : BlockWriter σ α} {e : Bytes} {r : α}
    (hc : c → n < e.length) (h : ¬c → Fills ts w p n e r) :
    Fills ts (Infra.failIf c ts >>= fun _ => w) p n e r where
  fits mem hmem he := by
    have hn : ¬c := fun hc' => absurd (hc hc') (by omega)
    simpa [Infra.failIf, hn] using (h hn).fits mem hmem he
  short mem hmem he := by
    by_cases hn : c
    · refine ⟨mem, ?_, SameOutside.refl p n mem⟩
      simp [Infra.failIf, hn, EStateM.run, Bind.bind, EStateM.bind, throw, throwThe,
        MonadExceptOf.throw, EStateM.throw]
    · simpa [Infra.failIf, hn] using (h hn).short mem hmem he

/-- A store whose room was checked. -/
theorem Fills.store {bs : Bytes} (h : bs.length ≤ n) : Fills ts (Infra.store p bs) p n bs () where
  fits mem hmem _ := by simp [EStateM.run, Infra.store, show p + bs.length ≤ mem.length by omega]
  short _ _ hlen := absurd hlen (by omega)

/-- A header of `k` bytes that is stored after what it describes. -/
theorem Fills.header {β : Type} {k : Nat} {w : BlockWriter σ α} {e : Bytes} {r : α}
    (f : α → Bytes) (g : α → β) (hk : k ≤ n) (hf : (f r).length = k)
    (h : Fills ts w (p + k) (n - k) e r) :
    Fills ts (w >>= fun a => Infra.store p (f a) >>= fun _ => Pure.pure (g a)) p n (f r ++ e)
      (g r) where
  fits mem hmem hlen := by
    rw [List.length_append, hf] at hlen
    have h1 := h.fits mem (by omega) (by omega)
    have hlen1 : (overwrite mem (p + k) e).length = mem.length := overwrite_length (by omega)
    have hroom : p + (f r).length ≤ (overwrite mem (p + k) e).length := by omega
    simp only [EStateM.run] at h1
    simp only [EStateM.run, Bind.bind, EStateM.bind, h1, Infra.store, if_pos hroom, Pure.pure,
      EStateM.pure]
    subst hf
    rw [overwrite_before (by omega)]
  short mem hmem hlen := by
    rw [List.length_append, hf] at hlen
    obtain ⟨mem', h1, hs⟩ := h.short mem (by omega) (by omega)
    refine ⟨mem', ?_, hs.mono hk⟩
    simp only [EStateM.run] at h1
    simp only [EStateM.run, Bind.bind, EStateM.bind, h1]

/-- A call that returned has written all there is to write. -/
theorem Fills.eq_ok {w : BlockWriter σ α} {e : Bytes} {r r' : α} {mem mem' : Bytes}
    (h : Fills ts w p n e r) (hmem : p + n ≤ mem.length) (hrun : w.run mem = .ok r' mem') :
    e.length ≤ n ∧ r' = r ∧ mem' = overwrite mem p e := by
  by_cases he : e.length ≤ n
  · rw [h.fits mem hmem he] at hrun
    cases hrun
    exact ⟨he, rfl, rfl⟩
  · obtain ⟨mem'', hs, -⟩ := h.short mem hmem (by omega)
    rw [hs] at hrun
    cases hrun

/-- A call that fills every buffer has one thing to write. -/
theorem Fills.unique {w : Nat → BlockWriter σ Nat} {e e' : Bytes}
    (h : ∀ n, Fills ts (w n) 0 n e e.length) (h' : ∀ n, Fills ts (w n) 0 n e' e'.length) :
    e = e' := by
  let mem := List.replicate (max e.length e'.length) (0 : UInt8)
  have hroom : 0 + max e.length e'.length ≤ mem.length := by simp [mem]
  have h1 := (h _).fits mem hroom (le_max_left _ _)
  rw [(h' _).fits mem hroom (le_max_right _ _)] at h1
  simp only [EStateM.Result.ok.injEq] at h1
  obtain ⟨hlen, hmem⟩ := h1
  rw [← take_overwrite_zero mem e, ← hmem, ← hlen, take_overwrite_zero]

/-- A subtraction that stays above zero is a plain one. -/
@[simp] theorem remaining_of_le {w : Nat} (h : w ≤ n) :
    (remaining n w : BlockWriter σ Nat) = Pure.pure (n - w) := if_pos h

@[simp] theorem advance_of_le {buf : Bytes} {pos : Nat} (h : pos ≤ buf.length) :
    (advance buf pos : Res σ Bytes) = .ok (buf.drop pos) := if_pos h

@[simp] theorem liftRes_ok (a : α) : (liftRes (.ok a) : BlockWriter σ α) = Pure.pure a := rfl

end Chlibs.Infra

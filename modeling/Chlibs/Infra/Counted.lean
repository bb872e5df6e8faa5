import Chlibs.Infra.Stateful

/-!
# Calls that count their blocks

A counter goes up for every block that is handed out and down for every block that is freed. A call
that counts is compared with the same call without a counter.

* `Shifts` — a call that does nothing but count.
* `Loses` — the same outcome, and whether a block is lost on the way.
* `Settles` — the same for a call that returns its status.
-/

namespace Chlibs.Infra

variable {ε σ α β γ : Type}

/-- A call with a counter beside its state. -/
abbrev CountM (ε σ : Type) := EStateM ε (σ × Int)

/-- The blocks for `s` bytes: `NULL` is none. -/
def blockCount (s : Nat) : Nat := if s = 0 then 0 else 1

theorem blockCount_of_pos {s : Nat} (h : 0 < s) : blockCount s = 1 := if_neg (Nat.ne_of_gt h)

/-- `safe_malloc` -/
def safeMallocCount (s : Nat) : CountM ε σ Unit := fun x => .ok () (x.1, x.2 + blockCount s)

/-- `safe_free` of what there is for `s` bytes. -/
def safeFreeCount (s : Nat) : CountM ε σ Unit := fun x => .ok () (x.1, x.2 - blockCount s)

/-- A call that neither allocates nor frees. -/
def uncounted (p : EStateM ε σ α) : CountM ε σ α := fun x =>
  match p x.1 with
  | .ok a s => .ok a (s, x.2)
  | .error e s => .error e (s, x.2)

/-- A call whose status is looked at. -/
def outcome (p : CountM ε σ α) : CountM ε σ (Except ε α) := fun x =>
  match p x with
  | .ok a x' => .ok (.ok a) x'
  | .error e x' => .ok (.error e) x'

theorem uncounted_bind (p : EStateM ε σ α) (f : α → EStateM ε σ β) :
    uncounted (p >>= f) = uncounted p >>= fun a => uncounted (f a) := by
  funext x
  cases hp : p x.1 with
  | ok a s =>
    have hrun : uncounted p x = .ok a (s, x.2) := by rw [uncounted, hp]
    rw [bind_of_ok hrun, uncounted, bind_of_ok hp]
    rfl
  | error e s =>
    have hrun : uncounted p x = .error e (s, x.2) := by rw [uncounted, hp]
    rw [bind_of_error hrun, uncounted, bind_of_error hp]

/-! ## Calls that only count -/

/-- A call that changes nothing but the counter. -/
def Shifts (p : CountM ε σ Unit) (n : Int) : Prop :=
  ∀ s count, p (s, count) = .ok () (s, count + n)

namespace Shifts

variable {p q : CountM ε σ Unit} {m n : Int}

theorem skip : Shifts (pure () : CountM ε σ Unit) 0 := fun s count => by rw [Int.add_zero]; rfl

theorem malloc (s : Nat) : Shifts (safeMallocCount s : CountM ε σ Unit) (blockCount s) :=
  fun _ _ => rfl

theorem free (s : Nat) : Shifts (safeFreeCount s : CountM ε σ Unit) (-blockCount s) :=
  fun _ _ => rfl

theorem andThen (hp : Shifts p m) (hq : Shifts q n) : Shifts (do p; q) (m + n) := by
  intro s count
  rw [bind_of_ok (hp s count), hq, Int.add_assoc]

theorem of_eq (h : Shifts p m) (heq : m = n) : Shifts p n := heq ▸ h

/-- What is handed out is freed again. -/
theorem zero_bind {f : Unit → CountM ε σ α} (hp : Shifts p 0) : (p >>= f) = f () := by
  funext x
  rw [bind_of_ok (hp x.1 x.2), Int.add_zero]

/-- A loop in which every turn frees. -/
theorem forM_free {f : α → CountM ε σ Unit} {n : α → Nat} : ∀ l : List α,
    (∀ a ∈ l, Shifts (f a) (-n a)) → Shifts (l.forM f) (-(l.map n).sum)
  | [], _ => skip
  | a :: as, h => by
    have hrest := forM_free as fun x hx => h x (List.mem_cons_of_mem _ hx)
    refine ((h a List.mem_cons_self).andThen hrest).of_eq ?_
    rw [List.map_cons, List.sum_cons]
    omega

end Shifts

/-! ## Calls that may lose blocks -/

/--
From `s` the call `p` ends as `q` does. With a result the counter is up by `gain` of it and with an
error by `left`, and by one for every block that was lost. Blocks are lost if and only if `Loss`.
-/
def Loses (p : CountM ε σ α) (q : EStateM ε σ α) (s : σ) (gain : α → Int) (left : Int)
    (Loss : Prop) : Prop :=
  ∃ lost : Nat, (lost ≠ 0 ↔ Loss) ∧ ∀ count, p (s, count) = match q s with
    | .ok a s' => .ok a (s', count + gain a + lost)
    | .error e s' => .error e (s', count + left + lost)

/--
The same for a call that returns what it has with its status, `none` if it succeeds. On an error it
has something that `q` does not tell.
-/
def Settles (p : CountM ε σ (α × Option ε)) (q : EStateM ε σ α) (s : σ) (gain : α → Int)
    (Loss : Prop) : Prop :=
  ∃ lost : Nat, (lost ≠ 0 ↔ Loss) ∧ ∀ count, match q s with
    | .ok a s' => p (s, count) = .ok (a, none) (s', count + gain a + lost)
    | .error e s' => ∃ a, p (s, count) = .ok (a, some e) (s', count + gain a + lost)

/-- The same outcome with the same counter, written in another way. -/
theorem counted_congr {r : EStateM.Result ε σ α} {counter counter' : α → Int} {left left' : Int}
    (hcounter : ∀ a, counter a = counter' a) (hleft : left = left') :
    (match r with
      | .ok a s => .ok a (s, counter a)
      | .error e s => .error e (s, left) : EStateM.Result ε (σ × Int) α) =
    match r with
      | .ok a s => .ok a (s, counter' a)
      | .error e s => .error e (s, left') := by
  rw [funext hcounter, hleft]

section Rules

variable {p : CountM ε σ α} {q : EStateM ε σ α} {s : σ} {gain gain' : α → Int} {gain₂ : β → Int}
  {left left₂ n : Int} {Loss Loss' : Prop} {f : α → CountM ε σ β} {g : α → EStateM ε σ β}

namespace Loses

theorem iff (h : Loses p q s gain left Loss) (hloss : Loss ↔ Loss') :
    Loses p q s gain left Loss' := by
  obtain ⟨lost, hlost, hrun⟩ := h
  exact ⟨lost, hlost.trans hloss, hrun⟩

/-- The same gain, written in another way. -/
theorem gain_congr (h : Loses p q s gain left Loss)
    (hgain : ∀ a s', q s = .ok a s' → gain a = gain' a) : Loses p q s gain' left Loss := by
  obtain ⟨lost, hlost, hrun⟩ := h
  refine ⟨lost, hlost, fun count => ?_⟩
  rw [hrun]
  cases hq : q s with
  | ok a s' => simp only [hgain a s' hq]
  | error e s' => rfl

theorem ret {a : α} (h : gain a = 0) :
    Loses (pure a : CountM ε σ α) (pure a) s gain left False := by
  refine ⟨0, by simp, fun count => ?_⟩
  show EStateM.Result.ok a (s, count) = .ok a (s, count + gain a + (0 : Nat))
  rw [h]
  simp

theorem fail {e : ε} (h : left = 0) :
    Loses (throw e : CountM ε σ α) (throw e) s gain left False := by
  refine ⟨0, by simp, fun count => ?_⟩
  show EStateM.Result.error e (s, count) = .error e (s, count + left + (0 : Nat))
  rw [h]
  simp

/-- A call that succeeds at once, seen as a whole. -/
theorem of_ok {a : α} {lost : Nat} (hlost : lost ≠ 0 ↔ Loss)
    (hrun : ∀ count, p (s, count) = .ok a (s, count + n)) (hn : n = gain a + lost) :
    Loses p (pure a) s gain left Loss := by
  refine ⟨lost, hlost, fun count => ?_⟩
  rw [hrun, hn, ← Int.add_assoc]
  rfl

theorem uncounted (q : EStateM ε σ α) (s : σ) :
    Loses (uncounted q) q s (fun _ => 0) 0 False := by
  refine ⟨0, by simp, fun count => ?_⟩
  rw [Infra.uncounted]
  cases q s <;> simp

/-- **One call after another.** -/
theorem bind (Rest : α → σ → Prop) (hp : Loses p q s gain left Loss)
    (hf : ∀ a s', q s = .ok a s' →
      Loses (f a) (g a) s' (fun b => gain₂ b - gain a) (left - gain a) (Rest a s')) :
    Loses (p >>= f) (q >>= g) s gain₂ left (Loss ∨ ∃ a s', q s = .ok a s' ∧ Rest a s') := by
  obtain ⟨lost, hlost, hrun⟩ := hp
  cases hq : q s with
  | ok a s' =>
    obtain ⟨lost', hlost', hrun'⟩ := hf a s' hq
    refine ⟨lost + lost', ?_, fun count => ?_⟩
    · rw [← hlost]
      simp only [EStateM.Result.ok.injEq, and_assoc, exists_and_left, exists_eq_left', ← hlost']
      omega
    · have hstart := hrun count
      rw [hq] at hstart
      rw [bind_of_ok hstart, hrun', bind_of_ok hq]
      exact counted_congr (fun b => by dsimp only; omega) (by omega)
  | error e s' =>
    refine ⟨lost, by simp [hlost], fun count => ?_⟩
    have hstart := hrun count
    rw [hq] at hstart
    rw [bind_of_error hstart, bind_of_error hq]

/-- A result that is looked at in another way. -/
theorem andRet (hp : Loses p q s gain left Loss) (h : α → β) (hgain : ∀ a, gain₂ (h a) = gain a) :
    Loses (p >>= fun a => pure (h a)) (q >>= fun a => pure (h a)) s gain₂ left Loss :=
  (Loses.bind (fun _ _ => False) hp fun a _ _ => ret (by rw [hgain, sub_self])).iff (by simp)

/-- Blocks that are handed out or freed first. -/
theorem shift {p : CountM ε σ Unit} {f : Unit → CountM ε σ α} (hp : Shifts p n)
    (hf : Loses (f ()) q s (fun a => gain a - n) (left - n) Loss) :
    Loses (p >>= f) q s gain left Loss := by
  obtain ⟨lost, hlost, hrun⟩ := hf
  refine ⟨lost, hlost, fun count => ?_⟩
  rw [bind_of_ok (hp s count), hrun]
  exact counted_congr (fun a => by dsimp only; omega) (by omega)

/-- **A call whose status is looked at**, where a failure is one of both in the end. -/
theorem outcome {k : Except ε α → CountM ε σ β} (Rest : α → σ → Prop)
    (hp : Loses p q s gain left Loss)
    (hok : ∀ a s', q s = .ok a s' →
      Loses (k (.ok a)) (g a) s' (fun b => gain₂ b - gain a) (left₂ - gain a) (Rest a s'))
    (herr : ∀ e s', q s = .error e s' →
      Loses (k (.error e)) (throw e) s' gain₂ (left₂ - left) False) :
    Loses (outcome p >>= k) (q >>= g) s gain₂ left₂
      (Loss ∨ ∃ a s', q s = .ok a s' ∧ Rest a s') := by
  obtain ⟨lost, hlost, hrun⟩ := hp
  cases hq : q s with
  | ok a s' =>
    obtain ⟨lost', hlost', hrun'⟩ := hok a s' hq
    refine ⟨lost + lost', ?_, fun count => ?_⟩
    · rw [← hlost]
      simp only [EStateM.Result.ok.injEq, and_assoc, exists_and_left, exists_eq_left', ← hlost']
      omega
    · have hstart : Infra.outcome p (s, count) = .ok (.ok a) (s', count + gain a + lost) := by
        rw [Infra.outcome, hrun, hq]
      rw [bind_of_ok hstart, hrun', bind_of_ok hq]
      exact counted_congr (fun b => by dsimp only; omega) (by omega)
  | error e s' =>
    obtain ⟨lost', hlost', hrun'⟩ := herr e s' hq
    have hnone : lost' = 0 := by simpa using hlost'
    refine ⟨lost, by simp [hlost], fun count => ?_⟩
    have hstart : Infra.outcome p (s, count) = .ok (.error e) (s', count + left + lost) := by
      rw [Infra.outcome, hrun, hq]
    rw [bind_of_ok hstart, hrun', bind_of_error hq, hnone]
    show EStateM.Result.error e _ = .error e _
    simp only [EStateM.Result.error.injEq, Prod.mk.injEq, true_and]
    omega

/-- A failure that comes with what there is, which is freed. -/
theorem settled {p : CountM ε σ (α × Option ε)} {k : α × Option ε → CountM ε σ β}
    (hp : Settles p q s gain Loss)
    (hok : ∀ a s', q s = .ok a s' →
      Loses (k (a, none)) (g a) s' (fun b => gain₂ b - gain a) (left₂ - gain a) False)
    (herr : ∀ a e s', Loses (k (a, some e)) (throw e) s' gain₂ (left₂ - gain a) False) :
    Loses (p >>= k) (q >>= g) s gain₂ left₂ Loss := by
  obtain ⟨lost, hlost, hrun⟩ := hp
  refine ⟨lost, hlost, fun count => ?_⟩
  have hstart := hrun count
  cases hq : q s with
  | ok a s' =>
    obtain ⟨lost', hlost', hrun'⟩ := hok a s' hq
    have hnone : lost' = 0 := by simpa using hlost'
    simp only [hq] at hstart
    rw [bind_of_ok hstart, hrun', bind_of_ok hq, hnone]
    exact counted_congr (fun b => by dsimp only; omega) (by omega)
  | error e s' =>
    simp only [hq] at hstart
    obtain ⟨a, hstart⟩ := hstart
    obtain ⟨lost', hlost', hrun'⟩ := herr a e s'
    have hnone : lost' = 0 := by simpa using hlost'
    rw [bind_of_ok hstart, hrun', bind_of_error hq, hnone]
    show EStateM.Result.error e _ = .error e _
    simp only [EStateM.Result.error.injEq, Prod.mk.injEq, true_and]
    omega

/-- A call that reads, and its result. -/
theorem uncounted_ok {a : α} {s' : σ} (hq : q s = .ok a s')
    (h : Loses (f a) (g a) s' gain₂ left Loss) :
    Loses (Infra.uncounted q >>= f) (q >>= g) s gain₂ left Loss := by
  obtain ⟨lost, hlost, hrun⟩ := h
  refine ⟨lost, hlost, fun count => ?_⟩
  have hstart : Infra.uncounted q (s, count) = .ok a (s', count) := by rw [Infra.uncounted, hq]
  rw [bind_of_ok hstart, bind_of_ok hq]
  exact hrun count

theorem uncounted_error {e : ε} {s' : σ} (hq : q s = .error e s') :
    Loses (Infra.uncounted q >>= f) (q >>= g) s gain₂ 0 False := by
  refine ⟨0, by simp, fun count => ?_⟩
  have hstart : Infra.uncounted q (s, count) = .error e (s', count) := by rw [Infra.uncounted, hq]
  rw [bind_of_error hstart, bind_of_error hq]
  simp

end Loses

/-! ## Calls that lose nothing -/

/-- The same outcome, and every block is accounted for. -/
abbrev Keeps (p : CountM ε σ α) (q : EStateM ε σ α) (s : σ) (gain : α → Int) (left : Int) : Prop :=
  Loses p q s gain left False

namespace Keeps

theorem bind (hp : Keeps p q s gain left)
    (hf : ∀ a s', q s = .ok a s' →
      Keeps (f a) (g a) s' (fun b => gain₂ b - gain a) (left - gain a)) :
    Keeps (p >>= f) (q >>= g) s gain₂ left := by
  have h := Loses.bind (fun _ _ => False) hp hf
  exact h.iff (by simp)

theorem outcome {k : Except ε α → CountM ε σ β} (hp : Keeps p q s gain left)
    (hok : ∀ a s', q s = .ok a s' →
      Keeps (k (.ok a)) (g a) s' (fun b => gain₂ b - gain a) (left₂ - gain a))
    (herr : ∀ e s', q s = .error e s' →
      Keeps (k (.error e)) (throw e) s' gain₂ (left₂ - left)) :
    Keeps (Infra.outcome p >>= k) (q >>= g) s gain₂ left₂ := by
  have h := Loses.outcome (fun _ _ => False) hp hok herr
  exact h.iff (by simp)

end Keeps

namespace Settles

variable {r : CountM ε σ (α × Option ε)} {k : Except ε α → CountM ε σ (β × Option ε)}

theorem iff (h : Settles r q s gain Loss) (hloss : Loss ↔ Loss') : Settles r q s gain Loss' := by
  obtain ⟨lost, hlost, hrun⟩ := h
  exact ⟨lost, hlost.trans hloss, hrun⟩

theorem ret {a : α} (h : gain a = 0) :
    Settles (pure (a, none) : CountM ε σ (α × Option ε)) (pure a) s gain False := by
  refine ⟨0, by simp, fun count => ?_⟩
  show EStateM.Result.ok (a, none) (s, count) = .ok (a, none) (s, count + gain a + (0 : Nat))
  rw [h]
  simp

/-- What there is stays as it is. -/
theorem fail {a : α} {e : ε} (h : gain a = 0) :
    Settles (pure (a, some e) : CountM ε σ (α × Option ε)) (throw e) s gain False := by
  refine ⟨0, by simp, fun count => ⟨a, ?_⟩⟩
  show EStateM.Result.ok (a, some e) (s, count) = .ok (a, some e) (s, count + gain a + (0 : Nat))
  rw [h]
  simp

/-- **A call whose status is looked at.** -/
theorem outcome (Rest : α → σ → Prop) (hp : Loses p q s gain left Loss)
    (hok : ∀ a s', q s = .ok a s' →
      Settles (k (.ok a)) (g a) s' (fun b => gain₂ b - gain a) (Rest a s'))
    (herr : ∀ e s', q s = .error e s' →
      Settles (k (.error e)) (throw e) s' (fun b => gain₂ b - left) False) :
    Settles (outcome p >>= k) (q >>= g) s gain₂ (Loss ∨ ∃ a s', q s = .ok a s' ∧ Rest a s') := by
  obtain ⟨lost, hlost, hrun⟩ := hp
  cases hq : q s with
  | ok a s' =>
    obtain ⟨lost', hlost', hrun'⟩ := hok a s' hq
    refine ⟨lost + lost', ?_, fun count => ?_⟩
    · rw [← hlost]
      simp only [EStateM.Result.ok.injEq, and_assoc, exists_and_left, exists_eq_left', ← hlost']
      omega
    · have hstart : Infra.outcome p (s, count) = .ok (.ok a) (s', count + gain a + lost) := by
        rw [Infra.outcome, hrun, hq]
      have hrest := hrun' (count + gain a + lost)
      have hcount : ∀ b, count + gain a + lost + (gain₂ b - gain a) + lost'
          = count + gain₂ b + (lost + lost' : Nat) := by
        intro b
        omega
      simp only [hcount] at hrest
      rw [bind_of_ok hstart, bind_of_ok hq]
      exact hrest
  | error e s' =>
    obtain ⟨lost', hlost', hrun'⟩ := herr e s' hq
    have hnone : lost' = 0 := by simpa using hlost'
    refine ⟨lost, by simp [hlost], fun count => ?_⟩
    have hstart : Infra.outcome p (s, count) = .ok (.error e) (s', count + left + lost) := by
      rw [Infra.outcome, hrun, hq]
    obtain ⟨b, hrest⟩ := hrun' (count + left + lost)
    have hcount : count + left + lost + (gain₂ b - left) + lost' = count + gain₂ b + lost := by
      omega
    rw [hcount] at hrest
    rw [bind_of_ok hstart, bind_of_error hq]
    exact ⟨b, hrest⟩

/-- A call that reads, and its result. -/
theorem uncounted_ok {a : α} {s' : σ} (hq : q s = .ok a s')
    (h : Settles (k (.ok a)) (g a) s' gain₂ Loss) :
    Settles (Infra.outcome (uncounted q) >>= k) (q >>= g) s gain₂ Loss := by
  obtain ⟨lost, hlost, hrun⟩ := h
  refine ⟨lost, hlost, fun count => ?_⟩
  have hstart : Infra.outcome (uncounted q) (s, count) = .ok (.ok a) (s', count) := by
    rw [Infra.outcome, uncounted, hq]
  rw [bind_of_ok hstart, bind_of_ok hq]
  exact hrun count

theorem uncounted_error {e : ε} {s' : σ} (hq : q s = .error e s')
    (h : Settles (k (.error e)) (throw e) s' gain₂ Loss) :
    Settles (Infra.outcome (uncounted q) >>= k) (q >>= g) s gain₂ Loss := by
  obtain ⟨lost, hlost, hrun⟩ := h
  refine ⟨lost, hlost, fun count => ?_⟩
  have hstart : Infra.outcome (uncounted q) (s, count) = .ok (.error e) (s', count) := by
    rw [Infra.outcome, uncounted, hq]
  rw [bind_of_ok hstart, bind_of_error hq]
  exact hrun count

/-- A test after which blocks may be lost. Where they are, it succeeds. -/
theorem test {q : EStateM ε σ Bool} {k : Except ε Bool → CountM ε σ (β × Option ε)}
    {g : Bool → EStateM ε σ β} (hloss : Loss → ∃ s', q s = .ok true s')
    (htrue : ∀ s', q s = .ok true s' → Settles (k (.ok true)) (g true) s' gain₂ Loss)
    (hfalse : ∀ s', Settles (k (.ok false)) (g false) s' gain₂ False)
    (herr : ∀ e s', Settles (k (.error e)) (throw e) s' gain₂ False) :
    Settles (Infra.outcome (uncounted q) >>= k) (q >>= g) s gain₂ Loss := by
  have hfirst : ∀ r, r = q s → (∀ s', r ≠ .ok true s') → (False ↔ Loss) := by
    rintro r rfl hne
    exact iff_of_false not_false fun h => (hloss h).elim hne
  cases hq : q s with
  | error e s' =>
    exact (uncounted_error hq (herr e s')).iff (hfirst _ hq.symm nofun)
  | ok more s' =>
    cases more with
    | false => exact (uncounted_ok hq (hfalse s')).iff (hfirst _ hq.symm nofun)
    | true => exact uncounted_ok hq (htrue s' hq)

end Settles

end Rules

end Chlibs.Infra

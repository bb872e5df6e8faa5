import Mathlib

/-!
# First in, first out

What goes through a FIFO is accounted for by what was put in, in order, and by the fate of the
oldest of these: taken, or displaced by a newer one. The rest is pending.

* `Account.push`, `Account.pop`, `Account.displace` — how the account changes.
* `Account.conservation` — without displacement, put in = taken ++ pending.
-/

namespace Chlibs.Infra

variable {α : Type*}

/-- The elements whose mark is `true`. -/
def kept : List Bool → List α → List α
  | true :: fate, a :: as => a :: kept fate as
  | false :: fate, _ :: as => kept fate as
  | _, _ => []

@[simp] theorem kept_nil (as : List α) : kept [] as = [] := by
  cases as <;> rfl

theorem kept_sublist : ∀ (fate : List Bool) (as : List α), (kept fate as).Sublist as
  | true :: fate, a :: as => (kept_sublist fate as).cons_cons a
  | false :: fate, a :: as => (kept_sublist fate as).cons a
  | [], _ => by simp
  | true :: _, [] => List.Sublist.refl _
  | false :: _, [] => List.Sublist.refl _

theorem kept_append : ∀ {fate : List Bool} {as : List α} (bs : List α),
    fate.length ≤ as.length → kept fate (as ++ bs) = kept fate as
  | [], _, _, _ => by simp
  | true :: fate, a :: as, bs, h => by
    have hlen : fate.length ≤ as.length := by simpa using h
    rw [List.cons_append, kept, kept, kept_append bs hlen]
  | false :: fate, a :: as, bs, h => by
    have hlen : fate.length ≤ as.length := by simpa using h
    rw [List.cons_append, kept, kept, kept_append bs hlen]

/-- The mark of the next element. -/
theorem kept_snoc : ∀ {fate : List Bool} {as : List α} {a : α} {rest : List α} (b : Bool),
    as.drop fate.length = a :: rest →
    kept (fate ++ [b]) as = kept fate as ++ if b then [a] else []
  | [], as, a, rest, b, h => by
    rw [List.length_nil, List.drop_zero] at h
    subst h
    cases b <;> simp [kept]
  | true :: fate, _ :: as, _, _, b, h => by
    rw [List.length_cons, List.drop_succ_cons] at h
    rw [List.cons_append, kept, kept, kept_snoc b h, List.cons_append]
  | false :: fate, _ :: as, _, _, b, h => by
    rw [List.length_cons, List.drop_succ_cons] at h
    rw [List.cons_append, kept, kept, kept_snoc b h]

theorem kept_all : ∀ {fate : List Bool} {as : List α}, false ∉ fate → fate.length ≤ as.length →
    kept fate as = as.take fate.length
  | [], _, _, _ => by simp
  | true :: _, _ :: _, h, hlen => by
    rw [List.length_cons, List.take_succ_cons, kept,
      kept_all (fun hmem => h (List.mem_cons_of_mem _ hmem)) (Nat.le_of_succ_le_succ hlen)]
  | false :: _, _, h, _ => absurd List.mem_cons_self h

/-- `sent` were put in and `got` taken out; `fate` marks the ones that are no longer pending. -/
structure Account (sent got pending : List α) (fate : List Bool) : Prop where
  fate_le : fate.length ≤ sent.length
  got_eq : got = kept fate sent
  pending_eq : pending = sent.drop fate.length

namespace Account

variable {sent got pending : List α} {fate : List Bool}

theorem empty : Account ([] : List α) [] [] [] := ⟨Nat.le_refl _, rfl, rfl⟩

theorem length (h : Account sent got pending fate) :
    fate.length + pending.length = sent.length := by
  have hle := h.fate_le
  rw [h.pending_eq, List.length_drop]
  omega

theorem push (h : Account sent got pending fate) (a : α) :
    Account (sent ++ [a]) got (pending ++ [a]) fate where
  fate_le := by
    rw [List.length_append]
    exact Nat.le_add_right_of_le h.fate_le
  got_eq := by rw [kept_append _ h.fate_le, h.got_eq]
  pending_eq := by rw [List.drop_append_of_le_length h.fate_le, h.pending_eq]

/-- The oldest element goes. -/
theorem leave {a : α} (h : Account sent got (a :: pending) fate) (b : Bool) :
    Account sent (got ++ if b then [a] else []) pending (fate ++ [b]) where
  fate_le := by
    have hlen := h.length
    rw [List.length_cons] at hlen
    rw [List.length_append, List.length_singleton]
    omega
  got_eq := by rw [kept_snoc b h.pending_eq.symm, h.got_eq]
  pending_eq := by
    rw [List.length_append, List.length_singleton, ← List.tail_drop, ← h.pending_eq, List.tail_cons]

theorem pop {a : α} (h : Account sent got (a :: pending) fate) :
    Account sent (got ++ [a]) pending (fate ++ [true]) := h.leave true

/-- A new element takes the place of the oldest. -/
theorem displace {a : α} (h : Account sent got (a :: pending) fate) (b : α) :
    Account (sent ++ [b]) got (pending ++ [b]) (fate ++ [false]) := by
  have hleft := h.leave false
  rw [if_neg Bool.false_ne_true, List.append_nil] at hleft
  exact hleft.push b

/-- **Nothing is lost or duplicated unless it is displaced.** -/
theorem conservation (h : Account sent got pending fate) (hfate : false ∉ fate) :
    sent = got ++ pending := by
  rw [h.got_eq, h.pending_eq, kept_all hfate h.fate_le, List.take_append_drop]

end Account

end Chlibs.Infra

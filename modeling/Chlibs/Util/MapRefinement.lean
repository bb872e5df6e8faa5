import Chlibs.Infra.Transition
import Chlibs.Util.Map

/-!
# The hash map is a finite map

What `hash_map_t` is for: a finite map from classes of equal keys, where each class keeps the
key it was first put with. Collisions and the doublings of the table cannot be seen.

* `hmStep_represents` — one operation on both.
* `hashMap_refines_finmap` — any sequence of operations is answered alike, and leaves both with the
  same keys and values.
-/

namespace Chlibs.Util

open Infra Classical

variable {κ ν : Type}

/-! ## Operations -/

inductive MapOp (κ ν : Type) where
  | put (key : κ) (value : ν)
  | get (key : κ)
  | remove (key : κ)
  | contains (key : κ)
  | numKeys

inductive MapAnswer (ν : Type) where
  | done
  | value (v : Option ν)
  | flag (b : Bool)
  | count (n : Nat)

/-- One call on a `hash_map_t`. -/
def hmStep (hm : HashMap κ ν) : MapOp κ ν → MapAnswer ν × HashMap κ ν
  | .put key value => (.done, hmPut hm key value)
  | .get key => (.value (hmGet hm key), hm)
  | .remove key => (.flag (hmRemove hm key).1, (hmRemove hm key).2)
  | .contains key => (.flag (hmContains hm key), hm)
  | .numKeys => (.count (hmNumKeys hm), hm)

/-! ## Finite maps -/

/-- Finite maps from classes of keys to the first key of the class and its value. -/
abbrev KeyMap (s : Setoid κ) (ν : Type) := Finmap fun _ : Quotient s => κ × ν

namespace KeyMap

variable {s : Setoid κ}

noncomputable def put (m : KeyMap s ν) (key : κ) (value : ν) : KeyMap s ν :=
  match m.lookup (Quotient.mk s key) with
  | some (first, _) => m.insert (Quotient.mk s key) (first, value)
  | none => m.insert (Quotient.mk s key) (key, value)

noncomputable def get (m : KeyMap s ν) (key : κ) : Option ν :=
  (m.lookup (Quotient.mk s key)).map Prod.snd

noncomputable def step (m : KeyMap s ν) : MapOp κ ν → MapAnswer ν × KeyMap s ν
  | .put key value => (.done, m.put key value)
  | .get key => (.value (m.get key), m)
  | .remove key => (.flag (decide (Quotient.mk s key ∈ m)), m.erase (Quotient.mk s key))
  | .contains key => (.flag (decide (Quotient.mk s key ∈ m)), m)
  | .numKeys => (.count m.keys.card, m)

end KeyMap

/-! ## Refinement -/

section Refinement

variable {s : Setoid κ}

/-- The finite map has the pairs of the hash map, which tells the classes of keys apart. -/
structure Represents (s : Setoid κ) (hm : HashMap κ ν) (m : KeyMap s ν) : Prop where
  inv : hm.Inv
  sameKey : ∀ a b, hm.SameKey a b ↔ s a b
  lookup : ∀ q p, m.lookup q = some p ↔
    ∃ kv ∈ hmKvps hm, Quotient.mk s kv.key = q ∧ (kv.key, kv.value) = p

variable {hm : HashMap κ ν} {m : KeyMap s ν}

theorem Represents.mk_eq (h : Represents s hm m) {a b : κ} :
    Quotient.mk s a = Quotient.mk s b ↔ hm.SameKey a b := by
  rw [h.sameKey, Quotient.eq]

/-- A lookup of a class finds the pair of any key in it. -/
theorem Represents.lookup_of_sameKey (h : Represents s hm m) {kv : KeyVal κ ν}
    (hkv : kv ∈ hmKvps hm) {key : κ} (hsame : hm.SameKey kv.key key) :
    m.lookup (Quotient.mk s key) = some (kv.key, kv.value) :=
  (h.lookup _ _).mpr ⟨kv, hkv, h.mk_eq.mpr hsame, rfl⟩

theorem Represents.lookup_eq_none (h : Represents s hm m) {key : κ}
    (hfresh : ∀ kv ∈ hmKvps hm, ¬hm.SameKey kv.key key) : m.lookup (Quotient.mk s key) = none := by
  rw [Option.eq_none_iff_forall_ne_some]
  intro p hp
  obtain ⟨kv, hkv, hclass, -⟩ := (h.lookup _ _).mp hp
  exact hfresh kv hkv (h.mk_eq.mp hclass)

theorem Represents.get_eq (h : Represents s hm m) (key : κ) : hmGet hm key = m.get key := by
  refine Option.ext fun v => ?_
  rw [hmGet_eq_some h.inv, KeyMap.get, Option.map_eq_some_iff]
  constructor
  · rintro ⟨kv, hkv, hsame, rfl⟩
    exact ⟨_, h.lookup_of_sameKey hkv hsame, rfl⟩
  · rintro ⟨p, hp, rfl⟩
    obtain ⟨kv, hkv, hclass, rfl⟩ := (h.lookup _ _).mp hp
    exact ⟨kv, hkv, h.mk_eq.mp hclass, rfl⟩

theorem Represents.contains_eq (h : Represents s hm m) (key : κ) :
    hmContains hm key = decide (Quotient.mk s key ∈ m) := by
  rw [hmContains, h.get_eq, KeyMap.get, Option.isSome_map, Bool.eq_iff_iff, decide_eq_true_iff,
    Finmap.lookup_isSome]

/-- The classes of the pairs are the domain of the finite map. -/
theorem Represents.numKeys_eq (h : Represents s hm m) : hmNumKeys hm = m.keys.card := by
  have hkeys : m.keys = ((hmKvps hm).map fun kv => Quotient.mk s kv.key).toFinset := by
    ext q
    simp only [Finmap.mem_keys, Finmap.mem_iff, h.lookup, List.mem_toFinset, List.mem_map]
    constructor
    · rintro ⟨p, kv, hkv, hclass, -⟩
      exact ⟨kv, hkv, hclass⟩
    · rintro ⟨kv, hkv, hclass⟩
      exact ⟨_, kv, hkv, hclass, rfl⟩
  have hnodup : ((hmKvps hm).map fun kv => Quotient.mk s kv.key).Nodup := by
    rw [List.Nodup, List.pairwise_map]
    exact h.inv.distinct.imp fun hab he => hab (h.mk_eq.mp he)
  rw [hkeys, List.toFinset_card_of_nodup hnodup, List.length_map, hmNumKeys, h.inv.count]

/-- One more pair, beside the pairs of the other classes. -/
theorem Represents.insert (h : Represents s hm m) {hm' : HashMap κ ν} (h' : hm'.Inv)
    (hkeys : hm'.SameKey = hm.SameKey) {kv : KeyVal κ ν} {rest : List (KeyVal κ ν)}
    (hperm : (hmKvps hm').Perm (kv :: rest))
    (hrest : ∀ x, ¬hm.SameKey x.key kv.key → (x ∈ hmKvps hm ↔ x ∈ rest)) :
    Represents s hm' (m.insert (Quotient.mk s kv.key) (kv.key, kv.value)) := by
  have hd := (List.pairwise_cons.mp ((h'.distinct_perm hperm).mp h'.distinct)).1
  refine ⟨h', fun a b => by rw [hkeys, h.sameKey], fun q p => ?_⟩
  by_cases hq : Quotient.mk s kv.key = q
  · subst hq
    rw [Finmap.lookup_insert, Option.some.injEq]
    constructor
    · rintro rfl
      exact ⟨kv, hperm.mem_iff.mpr List.mem_cons_self, rfl, rfl⟩
    · rintro ⟨x, hx, hclass, rfl⟩
      rcases List.mem_cons.mp (hperm.mem_iff.mp hx) with rfl | hx
      · rfl
      · refine absurd ?_ (hd x hx)
        rw [hkeys]
        exact h.mk_eq.mp hclass.symm
  · rw [Finmap.lookup_insert_of_ne _ (Ne.symm hq), h.lookup]
    have hother : ∀ x : KeyVal κ ν, Quotient.mk s x.key = q → ¬hm.SameKey x.key kv.key :=
      fun x hx hsame => hq ((h.mk_eq.mpr hsame).symm.trans hx)
    constructor
    · rintro ⟨x, hx, hclass, rfl⟩
      refine ⟨x, hperm.mem_iff.mpr (List.mem_cons_of_mem _ ?_), hclass, rfl⟩
      exact (hrest x (hother x hclass)).mp hx
    · rintro ⟨x, hx, hclass, rfl⟩
      rcases List.mem_cons.mp (hperm.mem_iff.mp hx) with rfl | hx
      · exact absurd hclass hq
      · exact ⟨x, (hrest x (hother x hclass)).mpr hx, hclass, rfl⟩

theorem Represents.put (h : Represents s hm m) (key : κ) (value : ν) :
    Represents s (hmPut hm key value) (m.put key value) := by
  obtain ⟨h', hkeys, ⟨kv, rest, hsame, hold, hnew⟩ | ⟨hfresh, hnew⟩⟩ := hmPut_step h.inv key value
  · have hkv : kv ∈ hmKvps hm := hold.mem_iff.mpr List.mem_cons_self
    rw [KeyMap.put, h.lookup_of_sameKey hkv hsame, ← h.mk_eq.mpr hsame]
    refine h.insert h' hkeys hnew fun x hne => ?_
    rw [hold.mem_iff, List.mem_cons, or_iff_right]
    rintro rfl
    exact hne (h.inv.refl _)
  · rw [KeyMap.put, h.lookup_eq_none hfresh]
    exact h.insert h' hkeys hnew fun x _ => Iff.rfl

theorem Represents.remove (h : Represents s hm m) (key : κ) :
    (hmRemove hm key).1 = decide (Quotient.mk s key ∈ m) ∧
      Represents s (hmRemove hm key).2 (m.erase (Quotient.mk s key)) := by
  obtain ⟨h', hkeys, hfound, hbinds⟩ := hmRemove_spec h.inv key
  obtain ⟨-, -, hstep⟩ := hmRemove_step h.inv key
  refine ⟨?_, h', fun a b => by rw [hkeys, h.sameKey], fun q p => ?_⟩
  · rw [← h.contains_eq, Bool.eq_iff_iff, hfound, hmContains, Option.isSome_iff_exists]
    simp only [hmGet_eq_some h.inv]
  · rcases hstep with ⟨-, kv, rest, hsame, hold, hnew⟩ | ⟨-, hrem, hfresh⟩
    · have hd := (List.pairwise_cons.mp ((h.inv.distinct_perm hold).mp h.inv.distinct)).1
      rw [← h.mk_eq.mpr hsame]
      by_cases hq : Quotient.mk s kv.key = q
      · subst hq
        rw [Finmap.lookup_erase]
        constructor
        · intro hnone
          cases hnone
        · rintro ⟨x, hx, hclass, -⟩
          exact absurd (h.mk_eq.mp hclass.symm) (hd x (hnew.mem_iff.mp hx))
      · rw [Finmap.lookup_erase_ne (Ne.symm hq), h.lookup]
        simp only [hold.mem_iff, hnew.mem_iff, List.mem_cons]
        constructor
        · rintro ⟨x, rfl | hx, hclass, rfl⟩
          · exact absurd hclass hq
          · exact ⟨x, hx, hclass, rfl⟩
        · rintro ⟨x, hx, hclass, rfl⟩
          exact ⟨x, .inr hx, hclass, rfl⟩
    · have hnone := h.lookup_eq_none hfresh
      rw [hrem, ← h.lookup]
      by_cases hq : q = Quotient.mk s key
      · subst hq
        rw [Finmap.lookup_erase, hnone]
      · rw [Finmap.lookup_erase_ne hq]

/-- **One operation is answered alike, and keeps the two related.** -/
theorem hmStep_represents (h : Represents s hm m) (op : MapOp κ ν) :
    (hmStep hm op).1 = (m.step op).1 ∧ Represents s (hmStep hm op).2 (m.step op).2 := by
  cases op with
  | put key value => exact ⟨rfl, h.put key value⟩
  | get key => exact ⟨congrArg MapAnswer.value (h.get_eq key), h⟩
  | remove key => exact ⟨congrArg MapAnswer.flag (h.remove key).1, (h.remove key).2⟩
  | contains key => exact ⟨congrArg MapAnswer.flag (h.contains_eq key), h⟩
  | numKeys => exact ⟨congrArg MapAnswer.count h.numKeys_eq, h⟩

end Refinement

/-- Two empty maps. -/
theorem represents_newHashMap (s : Setoid κ) {hashFunc : κ → UInt32} {eqFunc : κ → κ → Bool}
    (heq : ∀ a b, eqFunc a b = true ↔ s a b) (hhash : ∀ a b, s a b → hashFunc a = hashFunc b) :
    Represents s (newHashMap hashFunc eqFunc : HashMap κ ν) ∅ := by
  have hequiv : Equivalence fun a b => eqFunc a b = true := by
    simp only [heq]
    exact s.iseqv
  refine ⟨newHashMap_inv hequiv, fun a b => ?_, by simp⟩
  exact ⟨fun hab => (heq a b).mp hab.2, fun hab => ⟨hhash a b hab, (heq a b).mpr hab⟩⟩

/-- The maps are related after any operations. -/
theorem stateAfter_represents (s : Setoid κ) {hashFunc : κ → UInt32} {eqFunc : κ → κ → Bool}
    (heq : ∀ a b, eqFunc a b = true ↔ s a b) (hhash : ∀ a b, s a b → hashFunc a = hashFunc b)
    (ops : List (MapOp κ ν)) :
    Represents s (stateAfter hmStep (newHashMap hashFunc eqFunc) ops)
      (stateAfter KeyMap.step ∅ ops) :=
  stateAfter_of_simulation (Represents s) (fun _ _ op h => hmStep_represents h op) ops _ _
    (represents_newHashMap s heq hhash)

/--
**The hash map refines a finite map**, for any key equality that is an equivalence and any hash
that respects it: every answer is the same, and the pairs that the table then holds are those of
the finite map, each under the key its class was first put with.
-/
theorem hashMap_refines_finmap (s : Setoid κ) (hashFunc : κ → UInt32) (eqFunc : κ → κ → Bool)
    (heq : ∀ a b, eqFunc a b = true ↔ s a b) (hhash : ∀ a b, s a b → hashFunc a = hashFunc b)
    (ops : List (MapOp κ ν)) :
    answers hmStep (newHashMap hashFunc eqFunc : HashMap κ ν) ops
        = answers KeyMap.step (∅ : KeyMap s ν) ops ∧
      Represents s (stateAfter hmStep (newHashMap hashFunc eqFunc) ops)
        (stateAfter KeyMap.step ∅ ops) := by
  constructor
  · exact answers_eq_of_simulation (Represents s) (fun _ _ op h => hmStep_represents h op) ops _ _
      (represents_newHashMap s heq hhash)
  · exact stateAfter_represents s heq hhash ops

/--
Keys that are equal modulo 3 and all have one hash: the class of 1 keeps the key 1, under which
the value put with 4 is found.
-/
theorem hashMap_refines_finmap_collisions :
    answers KeyMap.step
        (∅ : KeyMap ⟨fun a b : Nat => a % 3 = b % 3, ⟨fun _ => rfl, Eq.symm, Eq.trans⟩⟩ Bool)
        [.put 1 true, .put 2 true, .put 4 false, .get 1, .numKeys, .remove 5, .contains 2]
        = [.done, .done, .done, .value (some false), .count 2, .flag true, .flag false] ∧
      (stateAfter KeyMap.step
        (∅ : KeyMap ⟨fun a b : Nat => a % 3 = b % 3, ⟨fun _ => rfl, Eq.symm, Eq.trans⟩⟩ Bool)
        [.put 1 true, .put 2 true, .put 4 false, .get 1, .numKeys, .remove 5, .contains 2]).lookup
        (Quotient.mk _ 4) = some (1, false) := by
  obtain ⟨hans, hrep⟩ := hashMap_refines_finmap
    ⟨fun a b : Nat => a % 3 = b % 3, ⟨fun _ => rfl, Eq.symm, Eq.trans⟩⟩
    (fun _ => 7) (fun a b => a % 3 == b % 3) (fun _ _ => beq_iff_eq) (fun _ _ _ => rfl)
    [.put 1 true, .put 2 true, .put 4 false, .get 1, .numKeys, .remove 5, .contains 2]
  constructor
  · rw [← hans]
    rfl
  · exact (hrep.lookup _ _).mpr ⟨⟨7, 1, false⟩, List.mem_singleton.mpr rfl, Quotient.sound rfl, rfl⟩

end Chlibs.Util

import Chlibs.Infra.Cursor
import Chlibs.Util.MapRefinement

/-!
# Iterating over a hash map

The iterator of `map.c`, and the comparison that drives it. The place of the iteration is in the
map: an index in the table and a pair of that chain. Maps are in a heap, so that both arguments of a
comparison may be one map.

* `hmNextKvp_walks` — the iterator goes through the chains, and over the empty ones.
* `hashMap_iteration` — iteration is exact, and `hm_equals` decides equality of finite maps.
-/

namespace Chlibs.Util

open Infra Classical

variable {κ ν : Type}

/-! ## The iterator -/

/-- `hash_map_t`. The pair at `iter` is told by its place in the chain, `NULL` is `none`. -/
structure HashMapT (κ ν : Type) where
  hm : HashMap κ ν
  iterChainInd : Nat
  iter : Option Nat

/-- Count `chainInd` up over the chains that are empty. -/
def skipEmpty : List (List (KeyVal κ ν)) → Nat → Nat
  | [], chainInd => chainInd
  | chain :: chains, chainInd => if chain.isEmpty then skipEmpty chains (chainInd + 1) else chainInd

/-- `while (ind < chains_cap && !chains[ind]) ind++` -/
def nextChainInd (chains : List (List (KeyVal κ ν))) (chainInd : Nat) : Nat :=
  skipEmpty (chains.drop chainInd) chainInd

def hmResetIterator : CallM (HashMapT κ ν) Unit := fun m =>
  let chainInd := nextChainInd m.hm.chains 0
  if chainInd < m.hm.chains.length then some ((), { m with iterChainInd := chainInd, iter := some 0 })
  else some ((), { m with iter := none })

/-- `none` is `HASH_MAP_EXHAUSTED`. -/
def hmNextKvp : CallM (HashMapT κ ν) (Option (KeyVal κ ν)) := fun m => do
  match m.iter with
  | none => some (none, m)
  | some i => do
    let chain ← m.hm.chains[m.iterChainInd]?
    let retKvp ← chain[i]?
    if i + 1 < chain.length then some (some retKvp, { m with iter := some (i + 1) })
    else
      let chainInd := nextChainInd m.hm.chains (m.iterChainInd + 1)
      let iter := if chainInd < m.hm.chains.length then some 0 else none
      some (some retKvp, { m with iterChainInd := chainInd, iter := iter })

/-- A call that only reads the map. -/
def readMap (f : HashMap κ ν → α) : CallM (HashMapT κ ν) α := fun m => some (f m.hm, m)

/-- A reset, and then calls until the map is exhausted. -/
def hmIterate : CallM (HashMapT κ ν) (List (KeyVal κ ν)) := do
  let numKeys ← readMap hmNumKeys
  hmResetIterator
  drain hmNextKvp (numKeys + 1)

/-- `hm_equals` on the maps at two addresses. A call of `valEq` may iterate over other maps. -/
def hmEqualsAt {σ : Type} (maps : Part σ (Heap (HashMapT κ ν))) (hm1 hm2 : Nat)
    (valEq : ν → ν → CallM σ Bool) : CallM σ Bool := do
  let numKeys1 ← onBlock maps hm1 (readMap hmNumKeys)
  let numKeys2 ← onBlock maps hm2 (readMap hmNumKeys)
  if numKeys1 ≠ numKeys2 then pure false
  else do
    onBlock maps hm1 hmResetIterator
    checkAll (onBlock maps hm1 hmNextKvp) (fun kvp => do
      match ← onBlock maps hm2 (readMap fun hm => hmGet hm kvp.key) with
      | none => pure false
      | some hm2Val => valEq kvp.value hm2Val) (numKeys1 + 1)

/-! ## Walking the chains -/

/-- Only empty chains are skipped, and the chain where that ends is not empty. -/
theorem skipEmpty_spec : ∀ (chains : List (List (KeyVal κ ν))) (chainInd : Nat), ∃ k,
    skipEmpty chains chainInd = chainInd + k ∧ (chains.drop k).flatten = chains.flatten ∧
      ∀ chain, chains[k]? = some chain → chain ≠ []
  | [], chainInd => ⟨0, rfl, rfl, by simp⟩
  | [] :: chains, chainInd => by
    obtain ⟨k, heq, hflat, hne⟩ := skipEmpty_spec chains (chainInd + 1)
    refine ⟨k + 1, ?_, hflat, hne⟩
    rw [skipEmpty, List.isEmpty_nil, if_pos rfl, heq]
    omega
  | (kv :: kvs) :: chains, chainInd => ⟨0, rfl, rfl, by
    rintro chain heq
    cases heq
    exact List.cons_ne_nil _ _⟩

/-- The pairs that are left: from a place on in one chain, and in the chains behind it. -/
def KvpsLeft (m : HashMapT κ ν) (kvs : List (KeyVal κ ν)) : Prop :=
  match m.iter with
  | none => kvs = []
  | some i => ∃ chain, m.hm.chains[m.iterChainInd]? = some chain ∧ i < chain.length ∧
      kvs = chain.drop i ++ (m.hm.chains.drop (m.iterChainInd + 1)).flatten

/-- Where the iterator is once it has looked for a chain, all pairs of the chains are left. -/
theorem kvpsLeft_nextChainInd (hm : HashMap κ ν) (chainInd : Nat) :
    KvpsLeft ⟨hm, nextChainInd hm.chains chainInd,
        if nextChainInd hm.chains chainInd < hm.chains.length then some 0 else none⟩
      (hm.chains.drop chainInd).flatten := by
  obtain ⟨k, heq, hflat, hne⟩ := skipEmpty_spec (hm.chains.drop chainInd) chainInd
  rw [List.drop_drop] at hflat
  rw [nextChainInd, heq, ← hflat]
  by_cases hlt : chainInd + k < hm.chains.length
  · have hget : hm.chains[chainInd + k]? = some hm.chains[chainInd + k] :=
      List.getElem?_eq_getElem hlt
    rw [if_pos hlt]
    refine ⟨_, hget, List.length_pos_iff.mpr (hne _ (by rw [List.getElem?_drop, hget])), ?_⟩
    rw [List.drop_eq_getElem_cons hlt, List.flatten_cons, List.drop_zero]
  · rw [if_neg hlt, List.drop_eq_nil_of_le (by omega)]
    rfl

/-- **The iterator returns one pair after the other**, and leaves the map as it is. -/
theorem hmNextKvp_walks (hm : HashMap κ ν) :
    Walks hmNextKvp fun kvs m => m.hm = hm ∧ KvpsLeft m kvs where
  more := by
    rintro kv kvs ⟨hm', chainInd, iter⟩ ⟨rfl, hleft⟩
    cases iter with
    | none => cases hleft
    | some i =>
      obtain ⟨chain, hchain, hi, hkvs⟩ := hleft
      dsimp only at hchain hkvs
      rw [List.drop_eq_getElem_cons hi, List.cons_append, List.cons.injEq] at hkvs
      obtain ⟨rfl, rfl⟩ := hkvs
      have hget : chain[i]? = some chain[i] := List.getElem?_eq_getElem hi
      simp only [hmNextKvp, hchain, hget, Option.bind_eq_bind, Option.bind_some]
      by_cases hmore : i + 1 < chain.length
      · rw [if_pos hmore]
        exact ⟨_, rfl, rfl, chain, hchain, hmore, rfl⟩
      · rw [if_neg hmore]
        refine ⟨_, rfl, rfl, ?_⟩
        rw [List.drop_eq_nil_of_le (Nat.le_of_not_lt hmore), List.nil_append]
        exact kvpsLeft_nextChainInd hm' _
  done := by
    rintro ⟨hm', chainInd, iter⟩ ⟨rfl, hleft⟩
    cases iter with
    | none => exact ⟨_, rfl, rfl, rfl⟩
    | some i =>
      obtain ⟨chain, -, hi, hnil⟩ := hleft
      have hlen := congrArg List.length hnil
      rw [List.length_nil, List.length_append, List.length_drop] at hlen
      omega

/-- A reset puts the iterator in front of the first pair. -/
theorem hmResetIterator_spec (m : HashMapT κ ν) :
    ∃ m', hmResetIterator m = some ((), m') ∧ m'.hm = m.hm ∧ KvpsLeft m' (hmKvps m.hm) := by
  have hleft := kvpsLeft_nextChainInd m.hm 0
  rw [List.drop_zero] at hleft
  unfold hmResetIterator
  by_cases hlt : nextChainInd m.hm.chains 0 < m.hm.chains.length
  · rw [if_pos hlt] at hleft
    exact ⟨_, if_pos hlt, rfl, hleft⟩
  · rw [if_neg hlt] at hleft
    exact ⟨_, if_neg hlt, rfl, hleft⟩

/-- Iteration returns the pairs of the chains, and leaves the map as it is. -/
theorem hmIterate_eq {m : HashMapT κ ν} (h : m.hm.Inv) :
    ∃ m', hmIterate m = some (hmKvps m.hm, m') ∧ m'.hm = m.hm := by
  obtain ⟨m₁, hreset, heq, hleft⟩ := hmResetIterator_spec m
  obtain ⟨m', hrun, hm', -⟩ := (hmNextKvp_walks m.hm).drain (hmKvps m.hm) (hmNumKeys m.hm + 1)
    (by rw [hmNumKeys, h.count]; exact Nat.lt_succ_self _) ⟨heq, hleft⟩
  refine ⟨m', ?_, hm'⟩
  rw [hmIterate, CallM.bind_of_some (rfl : readMap hmNumKeys m = some (_, m)),
    CallM.bind_of_some hreset, hrun]

/-! ## Other values -/

section Values

variable {ν' : Type}

def KeyVal.map (f : ν → ν') (kv : KeyVal κ ν) : KeyVal κ ν' :=
  ⟨kv.hashVal, kv.key, f kv.value⟩

/-- The same map with other values. -/
def HashMap.map (f : ν → ν') (hm : HashMap κ ν) : HashMap κ ν' :=
  ⟨hm.hashFunc, hm.eqFunc, hm.numKeys, hm.chains.map (List.map (KeyVal.map f))⟩

theorem HashMap.map_id (hm : HashMap κ ν) : hm.map id = hm := by
  have hkv : (KeyVal.map id : KeyVal κ ν → KeyVal κ ν) = id := rfl
  rw [map, hkv, List.map_id_fun, List.map_id]

theorem hmKvps_map (f : ν → ν') (hm : HashMap κ ν) :
    hmKvps (hm.map f) = (hmKvps hm).map (KeyVal.map f) := List.map_flatten.symm

theorem hmGet_map (f : ν → ν') (hm : HashMap κ ν) (key : κ) :
    hmGet (hm.map f) key = (hmGet hm key).map f := by
  have hchain : chainOf (hm.map f) (hm.hashFunc key)
      = (chainOf hm (hm.hashFunc key)).map (KeyVal.map f) := by
    rw [chainOf, chainOf, HashMap.map, List.length_map, List.getElem?_map]
    cases hm.chains[chainInd hm.chains.length (hm.hashFunc key)]? <;> rfl
  rw [hmGet, hmGet]
  show Option.map _ (List.find? _ (chainOf (hm.map f) (hm.hashFunc key))) = _
  rw [hchain, List.find?_map, Option.map_map, Option.map_map]
  rfl

/-- The invariant is about the keys alone. -/
theorem HashMap.inv_of_map {hm : HashMap κ ν} {f : ν → ν'} (h : (hm.map f).Inv) : hm.Inv where
  equiv := h.equiv
  pos := by
    have hpos := h.pos
    rwa [HashMap.map, List.length_map] at hpos
  placed := by
    intro i chain hi kv hkv
    have hplaced := h.placed i (chain.map (KeyVal.map f))
      (by rw [HashMap.map, List.getElem?_map, hi]; rfl) (kv.map f) (List.mem_map_of_mem hkv)
    rwa [HashMap.map, List.length_map] at hplaced
  distinct := by
    have hdistinct := h.distinct
    rwa [hmKvps_map, Distinct, List.pairwise_map] at hdistinct
  count := by
    have hcount := h.count
    rwa [hmKvps_map, List.length_map] at hcount

end Values

/-! ## Comparing maps -/

section Comparing

variable {σ : Type} {maps : Part σ (Heap (HashMapT κ ν))} {s : σ} {a : Nat}

theorem onBlock_readMap {m : HashMapT κ ν} {α : Type} (h : (maps.get s).load a = some m)
    (f : HashMap κ ν → α) : onBlock maps a (readMap f) s = some (f m.hm, s) := by
  rw [onBlock_of_some h rfl, Part.put_self h]

/--
**`hm_equals` looks every pair of the first map up in the second**, also where that is the first map
once more. The comparison of two values keeps the iterators of both. What it finds may depend on
more than the values themselves.
-/
theorem hmEqualsAt_spec (maps : Part σ (Heap (HashMapT κ ν))) {γ : Type} (f1 f2 : γ → ν)
    (c1 c2 : HashMap κ γ) (hinv : c1.Inv) (holds : γ → γ → Bool)
    (valEq : ν → ν → CallM σ Bool) (Frame : σ → Prop)
    {hm1 hm2 : Nat} {m1 m2 : HashMapT κ ν}
    (hframe : ∀ s m m', (maps.get s).load hm1 = some m → m'.hm = m.hm → Frame s →
      Frame (maps.put s hm1 m'))
    (htest : ∀ kv ∈ hmKvps c1, ∀ v, hmGet c2 kv.key = some v → ∀ s, Frame s →
      ∃ s', valEq (f1 kv.value) (f2 v) s = some (holds kv.value v, s') ∧ Frame s' ∧
        (maps.get s').load hm1 = (maps.get s).load hm1 ∧
        (maps.get s').load hm2 = (maps.get s).load hm2)
    (h1 : (maps.get s).load hm1 = some m1) (heq1 : m1.hm = c1.map f1)
    (h2 : (maps.get s).load hm2 = some m2) (heq2 : m2.hm = c2.map f2) (hs : Frame s) :
    ∃ s', hmEqualsAt maps hm1 hm2 valEq s = some (hmEquals c1 c2 holds, s') ∧ Frame s' := by
  have hnum1 : hmNumKeys m1.hm = hmNumKeys c1 := by rw [heq1]; rfl
  have hnum2 : hmNumKeys m2.hm = hmNumKeys c2 := by rw [heq2]; rfl
  rw [hmEqualsAt, CallM.bind_of_some (onBlock_readMap h1 hmNumKeys),
    CallM.bind_of_some (onBlock_readMap h2 hmNumKeys), hmEquals, hnum1, hnum2]
  by_cases hnum : hmNumKeys c1 ≠ hmNumKeys c2
  · rw [if_pos hnum, beq_eq_false_iff_ne.mpr hnum]
    exact ⟨s, rfl, hs⟩
  rw [if_neg hnum, beq_iff_eq.mpr (not_not.mp hnum), Bool.true_and]
  obtain ⟨m1', hreset, hm1', hleft⟩ := hmResetIterator_spec m1
  rw [CallM.bind_of_some (onBlock_of_some h1 hreset)]
  -- During the loop the second map is the one that is walked, or it is not touched.
  have hwalk := (hmNextKvp_walks m1.hm).onBlock maps hm1
    (fun s => Frame s ∧ ∃ x, (maps.get s).load hm2 = some x ∧ x.hm = m2.hm) (by
      rintro s b b' as as' hload ⟨hb, -⟩ ⟨hb', -⟩ ⟨hs, x, hx, hxm⟩
      refine ⟨hframe s b b' hload (hb'.trans hb.symm) hs, ?_⟩
      by_cases hsame : hm2 = hm1
      · subst hsame
        rw [hload, Option.some.injEq] at hx
        exact ⟨b', Part.load_put_self hload b', by rw [hb', ← hxm, ← hx, hb]⟩
      · exact ⟨x, (Part.load_put_of_ne maps s hsame b').trans hx, hxm⟩)
  have hkvps : hmKvps m1.hm = (hmKvps c1).map (KeyVal.map f1) := by rw [heq1, hmKvps_map]
  rw [hkvps] at hleft
  have hchecks := fun test holds => hwalk.checkAll test (KeyVal.map f1) holds (hmKvps c1)
    (hmNumKeys c1 + 1) (by rw [hmNumKeys, hinv.count]; exact Nat.lt_succ_self _)
    ⟨⟨m1', Part.load_put_self h1 m1', hm1', hleft⟩, hframe s m1 m1' h1 hm1' hs, by
      by_cases hsame : hm2 = hm1
      · subst hsame
        rw [h1, Option.some.injEq] at h2
        exact ⟨m1', Part.load_put_self h1 m1', by rw [hm1', h2]⟩
      · exact ⟨m2, (Part.load_put_of_ne maps s hsame m1').trans h2, rfl⟩⟩
  refine (hchecks _ _ ?_).elim fun rest hrest => hrest.elim fun s' hs' => ⟨s', hs'.1, hs'.2.2.1⟩
  -- One test: the key is looked up, and the two values are compared.
  rintro kv hkv rest s ⟨⟨b, hb, hbat⟩, hs, x, hx, hxm⟩
  have hget : hmGet x.hm kv.key = (hmGet c2 kv.key).map f2 := by rw [hxm, heq2, hmGet_map]
  have hread := onBlock_readMap hx fun hm => hmGet hm kv.key
  rw [hget] at hread
  cases hfound : hmGet c2 kv.key with
  | none =>
    rw [hfound] at hread
    exact ⟨s, CallM.bind_of_some hread, ⟨b, hb, hbat⟩, hs, x, hx, hxm⟩
  | some v =>
    rw [hfound] at hread
    obtain ⟨s', hrun, hs', hb', hx'⟩ := htest kv hkv v hfound s hs
    exact ⟨s', (CallM.bind_of_some hread).trans hrun, ⟨b, hb'.trans hb, hbat⟩, hs', x,
      hx'.trans hx, hxm⟩

end Comparing

/-- The counts agree, and every pair of the first map is found in the second. -/
theorem hmEquals_eq_true {hm1 hm2 : HashMap κ ν} (valEq : ν → ν → Bool) :
    hmEquals hm1 hm2 valEq = true ↔ hmNumKeys hm1 = hmNumKeys hm2 ∧
      ∀ kv ∈ hmKvps hm1, ∃ v, hmGet hm2 kv.key = some v ∧ valEq kv.value v = true := by
  rw [hmEquals, Bool.and_eq_true, beq_iff_eq, List.all_eq_true]
  refine and_congr_right fun _ => forall₂_congr fun kv _ => ?_
  cases hmGet hm2 kv.key with
  | none => simp
  | some v => simp

/-! ## Finite maps -/

section Refinement

variable {s : Setoid κ}

/-- Every binding of the finite map is in the list, once, and nothing else is. -/
structure Enumerates (m : KeyMap s ν) (kvps : List (KeyVal κ ν)) : Prop where
  once : (kvps.map fun kv => Quotient.mk s kv.key).Nodup
  bindings : ∀ q p, m.lookup q = some p ↔
    ∃ kv ∈ kvps, Quotient.mk s kv.key = q ∧ (kv.key, kv.value) = p

/-- The finite maps have the same keys, and the values of each key are equal. -/
def SameBindings (valEq : ν → ν → Bool) (m1 m2 : KeyMap s ν) : Prop :=
  ∀ q, Option.Rel (fun p1 p2 => valEq p1.2 p2.2 = true) (m1.lookup q) (m2.lookup q)

variable {hm hm1 hm2 : HashMap κ ν} {m m1 m2 : KeyMap s ν}

theorem Represents.enumerates (h : Represents s hm m) : Enumerates m (hmKvps hm) where
  once := by
    rw [List.Nodup, List.pairwise_map]
    exact h.inv.distinct.imp fun hab he => hab (h.mk_eq.mp he)
  bindings := h.lookup

/-- A class is a key of the map if it has a pair. -/
theorem mem_keys_iff {q : Quotient s} : q ∈ m.keys ↔ ∃ p, m.lookup q = some p := by
  rw [Finmap.mem_keys, Finmap.mem_iff]

theorem option_rel_iff {α β : Type*} {r : α → β → Prop} {a : Option α} {b : Option β} :
    Option.Rel r a b ↔ a.isSome = b.isSome ∧ ∀ x y, a = some x → b = some y → r x y := by
  cases a with
  | none =>
    cases b with
    | none => exact iff_of_true .none ⟨rfl, nofun⟩
    | some b => exact iff_of_false (fun h => nomatch h) fun h => nomatch h.1
  | some a =>
    cases b with
    | none => exact iff_of_false (fun h => nomatch h) fun h => nomatch h.1
    | some b =>
      constructor
      · rintro (⟨h⟩ | _)
        exact ⟨rfl, by rintro _ _ ⟨⟩ ⟨⟩; exact h⟩
      · exact fun h => .some (h.2 a b rfl rfl)

theorem SameBindings.lookup {valEq : ν → ν → Bool} (h : SameBindings valEq m1 m2)
    {q : Quotient s} {p1 : κ × ν} (hp1 : m1.lookup q = some p1) :
    ∃ p2, m2.lookup q = some p2 ∧ valEq p1.2 p2.2 = true := by
  obtain ⟨hsome, hvalues⟩ := option_rel_iff.mp (h q)
  rw [hp1] at hsome
  obtain ⟨p2, hp2⟩ := Option.isSome_iff_exists.mp hsome.symm
  exact ⟨p2, hp2, hvalues p1 p2 hp1 hp2⟩

theorem SameBindings.keys_eq {valEq : ν → ν → Bool} (h : SameBindings valEq m1 m2) :
    m1.keys = m2.keys := by
  ext q
  rw [mem_keys_iff, mem_keys_iff, ← Option.isSome_iff_exists, ← Option.isSome_iff_exists,
    (option_rel_iff.mp (h q)).1]

/--
**One-sided inclusion is enough where the counts agree**: the keys of the second map are then those
of the first.
-/
theorem SameBindings.of_card_eq {valEq : ν → ν → Bool} (hcard : m1.keys.card = m2.keys.card)
    (h : ∀ q p1, m1.lookup q = some p1 → ∃ p2, m2.lookup q = some p2 ∧ valEq p1.2 p2.2 = true) :
    SameBindings valEq m1 m2 := by
  have hsub : m1.keys ⊆ m2.keys := by
    intro q hq
    obtain ⟨p1, hp1⟩ := mem_keys_iff.mp hq
    obtain ⟨p2, hp2, -⟩ := h q p1 hp1
    exact mem_keys_iff.mpr ⟨p2, hp2⟩
  have hkeys := Finset.eq_of_subset_of_card_le hsub hcard.ge
  intro q
  rw [option_rel_iff]
  constructor
  · rw [Bool.eq_iff_iff, Option.isSome_iff_exists, Option.isSome_iff_exists, ← mem_keys_iff,
      ← mem_keys_iff, hkeys]
  · intro p1 p2 hp1 hp2
    obtain ⟨p2', hp2', heq⟩ := h q p1 hp1
    rw [hp2, Option.some.injEq] at hp2'
    rwa [hp2']

/-- **`hm_equals` compares the finite maps.** -/
theorem hmEquals_iff (h1 : Represents s hm1 m1) (h2 : Represents s hm2 m2) (valEq : ν → ν → Bool) :
    hmEquals hm1 hm2 valEq = true ↔ SameBindings valEq m1 m2 := by
  have hmatch : ∀ kv : KeyVal κ ν, (∃ v, hmGet hm2 kv.key = some v ∧ valEq kv.value v = true) ↔
      ∃ p, m2.lookup (Quotient.mk s kv.key) = some p ∧ valEq kv.value p.2 = true := by
    intro kv
    rw [h2.get_eq, KeyMap.get]
    simp only [Option.map_eq_some_iff]
    constructor
    · rintro ⟨_, ⟨p, hp, rfl⟩, heq⟩
      exact ⟨p, hp, heq⟩
    · rintro ⟨p, hp, heq⟩
      exact ⟨_, ⟨p, hp, rfl⟩, heq⟩
  rw [hmEquals_eq_true, h1.numKeys_eq, h2.numKeys_eq]
  refine (and_congr_right fun _ => forall₂_congr fun kv _ => hmatch kv).trans ?_
  constructor
  · rintro ⟨hcard, hall⟩
    refine SameBindings.of_card_eq hcard fun q p1 hp1 => ?_
    obtain ⟨kv, hkv, rfl, rfl⟩ := (h1.lookup q p1).mp hp1
    exact hall kv hkv
  · intro hsame
    refine ⟨by rw [hsame.keys_eq], fun kv hkv => ?_⟩
    exact hsame.lookup ((h1.lookup _ _).mpr ⟨kv, hkv, rfl, rfl⟩)

/-- A hash map stands for some finite map. -/
theorem exists_represents (h : hm.Inv) (hs : ∀ a b, hm.SameKey a b ↔ s a b) :
    ∃ m : KeyMap s ν, Represents s hm m := by
  let pairs : List (Sigma fun _ : Quotient s => κ × ν) :=
    (hmKvps hm).map fun kv => ⟨Quotient.mk s kv.key, kv.key, kv.value⟩
  have hnodup : pairs.NodupKeys := by
    rw [List.NodupKeys, List.keys, List.map_map, List.Nodup, List.pairwise_map]
    exact h.distinct.imp fun hab he => hab ((hs _ _).mpr (Quotient.exact he))
  refine ⟨pairs.toFinmap, h, hs, fun q p => ?_⟩
  rw [Finmap.dlookup_list_toFinmap]
  refine (List.mem_dlookup_iff hnodup).trans (List.mem_map.trans ?_)
  refine exists_congr fun kv => and_congr_right fun _ => ?_
  constructor
  · intro heq
    cases heq
    exact ⟨rfl, rfl⟩
  · rintro ⟨rfl, rfl⟩
    rfl

theorem option_rel_map {α β α' β' : Type*} {f : α → α'} {g : β → β'} {r : α' → β' → Prop}
    {a : Option α} {b : Option β} :
    Option.Rel r (a.map f) (b.map g) ↔ Option.Rel (fun a b => r (f a) (g b)) a b := by
  cases a with
  | none =>
    cases b with
    | none => exact iff_of_true .none .none
    | some b => exact iff_of_false (fun h => nomatch h) fun h => nomatch h
  | some a =>
    cases b with
    | none => exact iff_of_false (fun h => nomatch h) fun h => nomatch h
    | some b => exact ⟨fun (.some h) => .some h, fun (.some h) => .some h⟩

/-- **Equal maps answer every lookup alike.** -/
theorem hmEquals_iff_hmGet (h1 : hm1.Inv) (h2 : hm2.Inv) (hkeys : hm1.SameKey = hm2.SameKey)
    (valEq : ν → ν → Bool) : hmEquals hm1 hm2 valEq = true ↔
      ∀ k, Option.Rel (fun v w => valEq v w = true) (hmGet hm1 k) (hmGet hm2 k) := by
  let t : Setoid κ := ⟨hm1.SameKey, h1.refl, h1.symm, h1.trans⟩
  obtain ⟨m1, hrep1⟩ : ∃ m : KeyMap t ν, Represents t hm1 m :=
    exists_represents h1 fun _ _ => Iff.rfl
  obtain ⟨m2, hrep2⟩ : ∃ m : KeyMap t ν, Represents t hm2 m :=
    exists_represents h2 fun a b => by rw [← hkeys]; rfl
  have hget : ∀ k, Option.Rel (fun v w => valEq v w = true) (hmGet hm1 k) (hmGet hm2 k) ↔
      Option.Rel (fun p1 p2 => valEq p1.2 p2.2 = true) (m1.lookup (Quotient.mk t k))
        (m2.lookup (Quotient.mk t k)) := by
    intro k
    rw [hrep1.get_eq, hrep2.get_eq, KeyMap.get, KeyMap.get]
    exact option_rel_map
  rw [hmEquals_iff hrep1 hrep2, SameBindings, Quotient.forall]
  exact forall_congr' fun k => (hget k).symm

end Refinement

/--
**Iteration is exact, and `hm_equals` decides equality of finite maps**: for any history of the maps
and any place of their iterators, and also where the two arguments are one map.
-/
theorem hashMap_iteration (s : Setoid κ) (hashFunc : κ → UInt32) (eqFunc : κ → κ → Bool)
    (heq : ∀ a b, eqFunc a b = true ↔ s a b) (hhash : ∀ a b, s a b → hashFunc a = hashFunc b) :
    (∀ (ops : List (MapOp κ ν)) (m : HashMapT κ ν),
      m.hm = stateAfter hmStep (newHashMap hashFunc eqFunc) ops →
      ∃ kvps m', hmIterate m = some (kvps, m') ∧ m'.hm = m.hm ∧
        Enumerates (stateAfter KeyMap.step (∅ : KeyMap s ν) ops) kvps) ∧
    ∀ (ops1 ops2 : List (MapOp κ ν)) (mem : Heap (HashMapT κ ν)) (a1 a2 : Nat)
      (m1 m2 : HashMapT κ ν) (valEq : ν → ν → Bool),
      mem.load a1 = some m1 → m1.hm = stateAfter hmStep (newHashMap hashFunc eqFunc) ops1 →
      mem.load a2 = some m2 → m2.hm = stateAfter hmStep (newHashMap hashFunc eqFunc) ops2 →
      ∃ b mem', hmEqualsAt .whole a1 a2 (fun v1 v2 => pure (valEq v1 v2)) mem = some (b, mem') ∧
        (∀ a, (mem'.load a).map HashMapT.hm = (mem.load a).map HashMapT.hm) ∧
        (b = true ↔ SameBindings valEq (stateAfter KeyMap.step (∅ : KeyMap s ν) ops1)
          (stateAfter KeyMap.step ∅ ops2)) := by
  constructor
  · intro ops m hm
    have hrep := stateAfter_represents s heq hhash ops
    rw [← hm] at hrep
    obtain ⟨m', hrun, hm'⟩ := hmIterate_eq hrep.inv
    exact ⟨_, m', hrun, hm', hrep.enumerates⟩
  · intro ops1 ops2 mem a1 a2 m1 m2 valEq h1 hm1 h2 hm2
    have hrep1 := stateAfter_represents s heq hhash ops1
    have hrep2 := stateAfter_represents s heq hhash ops2
    rw [← hm1] at hrep1
    rw [← hm2] at hrep2
    obtain ⟨mem', hrun, hkept⟩ := hmEqualsAt_spec .whole id id m1.hm m2.hm
      hrep1.inv valEq (fun v1 v2 => pure (valEq v1 v2))
      (fun mem' => ∀ a, (mem'.load a).map HashMapT.hm = (mem.load a).map HashMapT.hm)
      -- Moving the iterator of the first map leaves the pairs of all maps.
      (fun mem' m m' hload hm' hkept a => by
        by_cases ha : a = a1
        · have hself := @Part.load_put_self _ _ .whole mem' a1 m hload m'
          rw [← hkept a, ha]
          exact (congrArg (Option.map HashMapT.hm) hself).trans
            ((congrArg some hm').trans (congrArg (Option.map HashMapT.hm) hload).symm)
        · rw [← hkept a]
          exact congrArg (Option.map HashMapT.hm) (Part.load_put_of_ne .whole mem' ha m'))
      (fun kv _ v _ mem' hkept => ⟨mem', rfl, hkept, rfl, rfl⟩)
      h1 m1.hm.map_id.symm h2 m2.hm.map_id.symm fun _ => rfl
    exact ⟨_, mem', hrun, hkept, hmEquals_iff hrep1 hrep2 valEq⟩

/-- A map whose keys are equal modulo 3 and all have one hash, and the same map once more. -/
def collidingMap : HashMapT Nat Bool :=
  ⟨stateAfter hmStep (newHashMap (fun _ => 7) fun a b => a % 3 == b % 3)
    [.put 1 true, .put 2 true, .put 4 false, .remove 5], 0, none⟩

theorem hashMap_iteration_collisions :
    (∃ kvps m', hmIterate collidingMap = some (kvps, m') ∧ m'.hm = collidingMap.hm ∧
      Enumerates (stateAfter KeyMap.step
        (∅ : KeyMap ⟨fun a b : Nat => a % 3 = b % 3, ⟨fun _ => rfl, Eq.symm, Eq.trans⟩⟩ Bool)
        [.put 1 true, .put 2 true, .put 4 false, .remove 5]) kvps) ∧
    ∃ b mem', hmEqualsAt .whole 0 0 (fun v1 v2 => pure (v1 == v2))
      (Heap.empty.alloc collidingMap).2 = some (b, mem') ∧ b = true := by
  have h := @hashMap_iteration Nat Bool
    ⟨fun a b : Nat => a % 3 = b % 3, ⟨fun _ => rfl, Eq.symm, Eq.trans⟩⟩ (fun _ => 7)
    (fun a b => a % 3 == b % 3) (fun _ _ => beq_iff_eq) fun _ _ _ => rfl
  refine ⟨h.1 _ collidingMap rfl, ?_⟩
  obtain ⟨b, mem', hrun, -, hiff⟩ := h.2 [.put 1 true, .put 2 true, .put 4 false, .remove 5]
    [.put 1 true, .put 2 true, .put 4 false, .remove 5] (Heap.empty.alloc collidingMap).2 0 0
    collidingMap collidingMap (· == ·) rfl rfl rfl rfl
  refine ⟨b, mem', hrun, hiff.mpr fun q => ?_⟩
  cases Finmap.lookup q _ with
  | none => exact .none
  | some p => exact .some (beq_self_eq_true _)

end Chlibs.Util

import Mathlib

/-!
# The chained hash map

`hash_map_t`: a table of chains of key-value pairs, each pair stored with the hash of its key.
Two keys are one (`SameKey`) when their hashes agree and `eq_func` says so. A `HashMap` stands
for the set of its pairs, no two of which have one key; their order is what iteration shows, and
a resize changes nothing else.

* `hmGet_eq_some` — a lookup finds the bound value.
* `hmPut_step`, `hmRemove_step` — what one operation does to the pairs.
* `hmPut_spec`, `hmRemove_spec` — what it does to the bindings.
-/

namespace Chlibs.Util

/-- `key_val_header_t` and the pair behind it. -/
structure KeyVal (κ ν : Type) where
  hashVal : UInt32
  key : κ
  value : ν

/-- `hash_map_t`, less the iterator; `chains_cap` is the number of chains. -/
structure HashMap (κ ν : Type) where
  hashFunc : κ → UInt32
  eqFunc : κ → κ → Bool
  numKeys : Nat
  chains : List (List (KeyVal κ ν))

variable {κ ν : Type}

def hmFillFactor : Nat := 2

def newHashMap (hashFunc : κ → UInt32) (eqFunc : κ → κ → Bool) : HashMap κ ν :=
  { hashFunc := hashFunc, eqFunc := eqFunc, numKeys := 0, chains := List.replicate 8 [] }

/-- `hash_val % chains_cap` -/
def chainInd (chainsCap : Nat) (hashVal : UInt32) : Nat := hashVal.toNat % chainsCap

/-- Move every pair to the front of its new chain, chain by chain. -/
def rehash (chains : List (List (KeyVal κ ν))) (newCap : Nat) : List (List (KeyVal κ ν)) :=
  chains.flatten.foldl
    (fun newChains kv => newChains.modify (chainInd newCap kv.hashVal) (kv :: ·))
    (List.replicate newCap [])

def hmCheckResize (hm : HashMap κ ν) : HashMap κ ν :=
  if hm.numKeys * hmFillFactor ≤ hm.chains.length then hm
  else { hm with chains := rehash hm.chains (hm.chains.length * 2) }

/-- The chain that a hash belongs to. -/
def chainOf (hm : HashMap κ ν) (hashVal : UInt32) : List (KeyVal κ ν) :=
  (hm.chains[chainInd hm.chains.length hashVal]?).getD []

/-- The test each step along a chain makes. -/
def kvMatches (hm : HashMap κ ν) (hashVal : UInt32) (key : κ) (kv : KeyVal κ ν) : Bool :=
  kv.hashVal == hashVal && hm.eqFunc kv.key key

/-- Overwrite the value of the first pair that passes the test, if there is one. -/
def updateChain (test : KeyVal κ ν → Bool) (value : ν) :
    List (KeyVal κ ν) → Option (List (KeyVal κ ν))
  | [] => none
  | kv :: kvs =>
    if test kv then some ({ kv with value := value } :: kvs)
    else (updateChain test value kvs).map (kv :: ·)

def hmPut (hm : HashMap κ ν) (key : κ) (value : ν) : HashMap κ ν :=
  let hashVal := hm.hashFunc key
  let ind := chainInd hm.chains.length hashVal
  match updateChain (kvMatches hm hashVal key) value (chainOf hm hashVal) with
  | some chain => { hm with chains := hm.chains.set ind chain }
  | none => hmCheckResize
      { hm with
        chains := hm.chains.set ind (⟨hashVal, key, value⟩ :: chainOf hm hashVal)
        numKeys := hm.numKeys + 1 }

def hmGet (hm : HashMap κ ν) (key : κ) : Option ν :=
  ((chainOf hm (hm.hashFunc key)).find? (kvMatches hm (hm.hashFunc key) key)).map KeyVal.value

def hmContains (hm : HashMap κ ν) (key : κ) : Bool := (hmGet hm key).isSome

def hmNumKeys (hm : HashMap κ ν) : Nat := hm.numKeys

/-- Unlink the first pair that passes the test, if there is one. -/
def unlinkChain (test : KeyVal κ ν → Bool) : List (KeyVal κ ν) → Option (List (KeyVal κ ν))
  | [] => none
  | kv :: kvs => if test kv then some kvs else (unlinkChain test kvs).map (kv :: ·)

/-- Whether there was a match, and the map without it. -/
def hmRemove (hm : HashMap κ ν) (key : κ) : Bool × HashMap κ ν :=
  let hashVal := hm.hashFunc key
  let ind := chainInd hm.chains.length hashVal
  match unlinkChain (kvMatches hm hashVal key) (chainOf hm hashVal) with
  | some chain => (true, { hm with chains := hm.chains.set ind chain, numKeys := hm.numKeys - 1 })
  | none => (false, hm)

/-- What `hm_next_kvp` returns after a reset of the iterator, one after the other. -/
def hmKvps (hm : HashMap κ ν) : List (KeyVal κ ν) := hm.chains.flatten

/-- The pairs of the first map are looked up in the second. -/
def hmEquals (hm1 hm2 : HashMap κ ν) (valEq : ν → ν → Bool) : Bool :=
  hmNumKeys hm1 == hmNumKeys hm2 &&
    (hmKvps hm1).all fun kv =>
      match hmGet hm2 kv.key with
      | some hm2Val => valEq kv.value hm2Val
      | none => false

/-! ## Invariant -/

/-- Every pair is in the chain of its hash. -/
def Placed (hashFunc : κ → UInt32) (chains : List (List (KeyVal κ ν))) : Prop :=
  ∀ i chain, chains[i]? = some chain → ∀ kv ∈ chain,
    kv.hashVal = hashFunc kv.key ∧ chainInd chains.length kv.hashVal = i

/-- The map does not tell the two keys apart. -/
def HashMap.SameKey (hm : HashMap κ ν) (a b : κ) : Prop :=
  hm.hashFunc a = hm.hashFunc b ∧ hm.eqFunc a b = true

/-- No two of the pairs have one key. -/
def HashMap.Distinct (hm : HashMap κ ν) (kvs : List (KeyVal κ ν)) : Prop :=
  kvs.Pairwise fun a b => ¬hm.SameKey a.key b.key

/-- What the operations keep true. -/
structure HashMap.Inv (hm : HashMap κ ν) : Prop where
  equiv : Equivalence fun a b => hm.eqFunc a b = true
  pos : 0 < hm.chains.length
  placed : Placed hm.hashFunc hm.chains
  distinct : hm.Distinct (hmKvps hm)
  count : hm.numKeys = (hmKvps hm).length

/-- Some pair of the map binds `k` to `v`. -/
def Binds (hm : HashMap κ ν) (k : κ) (v : ν) : Prop :=
  ∃ kv ∈ hmKvps hm, hm.SameKey kv.key k ∧ kv.value = v

/-! ## Keys -/

section Keys

variable {hm : HashMap κ ν}

theorem HashMap.Inv.refl (h : hm.Inv) (a : κ) : hm.SameKey a a := ⟨rfl, h.equiv.refl a⟩

theorem HashMap.Inv.symm (h : hm.Inv) {a b : κ} (hab : hm.SameKey a b) : hm.SameKey b a :=
  ⟨hab.1.symm, h.equiv.symm hab.2⟩

theorem HashMap.Inv.trans (h : hm.Inv) {a b c : κ} (hab : hm.SameKey a b) (hbc : hm.SameKey b c) :
    hm.SameKey a c := ⟨hab.1.trans hbc.1, h.equiv.trans hab.2 hbc.2⟩

/-- Pairs of distinct keys in another order. -/
theorem HashMap.Inv.distinct_perm (h : hm.Inv) {kvs kvs' : List (KeyVal κ ν)}
    (hperm : kvs.Perm kvs') : hm.Distinct kvs ↔ hm.Distinct kvs' :=
  hperm.pairwise_iff fun hab hba => hab (h.symm hba)

/-- Two pairs with one key are one pair. -/
theorem HashMap.Inv.unique (h : hm.Inv) {a b : KeyVal κ ν} (ha : a ∈ hmKvps hm)
    (hb : b ∈ hmKvps hm) (hkey : hm.SameKey a.key b.key) : a = b := by
  have hsymm : Std.Symm fun a b : KeyVal κ ν => ¬hm.SameKey a.key b.key :=
    ⟨fun _ _ hab hba => hab (h.symm hba)⟩
  by_contra hne
  exact h.distinct.forall ha hb hne hkey

end Keys

/-! ## Chains -/

section Chains

variable {hm : HashMap κ ν}

theorem chainInd_lt {chainsCap : Nat} (h : 0 < chainsCap) (hashVal : UInt32) :
    chainInd chainsCap hashVal < chainsCap := Nat.mod_lt _ h

theorem getElem?_chainOf (h : 0 < hm.chains.length) (hashVal : UInt32) :
    hm.chains[chainInd hm.chains.length hashVal]? = some (chainOf hm hashVal) := by
  have hlt := chainInd_lt h hashVal
  rw [chainOf, List.getElem?_eq_getElem hlt, Option.getD_some]

theorem mem_kvps_of_chainOf (h : 0 < hm.chains.length) {hashVal : UInt32} {kv : KeyVal κ ν}
    (hkv : kv ∈ chainOf hm hashVal) : kv ∈ hmKvps hm :=
  List.mem_flatten.mpr ⟨_, List.mem_of_getElem? (getElem?_chainOf h hashVal), hkv⟩

/-- A pair carries the hash of its key, and is in the chain of it. -/
theorem HashMap.Inv.mem_chainOf (h : hm.Inv) {kv : KeyVal κ ν} (hkv : kv ∈ hmKvps hm) :
    kv.hashVal = hm.hashFunc kv.key ∧ kv ∈ chainOf hm (hm.hashFunc kv.key) := by
  obtain ⟨chain, hchain, hmem⟩ := List.mem_flatten.mp hkv
  obtain ⟨i, hi⟩ := List.getElem?_of_mem hchain
  obtain ⟨hhash, hind⟩ := h.placed i chain hi kv hmem
  refine ⟨hhash, ?_⟩
  rw [chainOf, ← hhash, hind, hi]
  exact hmem

theorem HashMap.Inv.kvMatches_iff (h : hm.Inv) {key : κ} {kv : KeyVal κ ν}
    (hkv : kv ∈ hmKvps hm) :
    kvMatches hm (hm.hashFunc key) key kv = true ↔ hm.SameKey kv.key key := by
  simp only [kvMatches, Bool.and_eq_true, beq_iff_eq, (h.mem_chainOf hkv).1, HashMap.SameKey]

/-- The pair of a key can only be in the chain of that key. -/
theorem HashMap.Inv.mem_chainOf_of_sameKey (h : hm.Inv) {key : κ} {kv : KeyVal κ ν}
    (hkv : kv ∈ hmKvps hm) (hsame : hm.SameKey kv.key key) :
    kv ∈ chainOf hm (hm.hashFunc key) := by
  rw [← hsame.1]
  exact (h.mem_chainOf hkv).2

/-- **A lookup finds the bound value.** -/
theorem hmGet_eq_some (h : hm.Inv) (k : κ) (v : ν) : hmGet hm k = some v ↔ Binds hm k v := by
  simp only [hmGet, Option.map_eq_some_iff]
  constructor
  · rintro ⟨kv, hfind, rfl⟩
    have hmem := mem_kvps_of_chainOf h.pos (List.mem_of_find?_eq_some hfind)
    exact ⟨kv, hmem, (h.kvMatches_iff hmem).mp (List.find?_some hfind), rfl⟩
  · rintro ⟨kv, hmem, hsame, rfl⟩
    have hmatch := (h.kvMatches_iff hmem).mpr hsame
    cases hfind : (chainOf hm (hm.hashFunc k)).find? (kvMatches hm (hm.hashFunc k) k) with
    | none =>
      exact absurd hmatch
        (List.find?_eq_none.mp hfind kv (h.mem_chainOf_of_sameKey hmem hsame))
    | some kv' =>
      have hmem' := mem_kvps_of_chainOf h.pos (List.mem_of_find?_eq_some hfind)
      have hkey := (h.kvMatches_iff hmem').mp (List.find?_some hfind)
      exact ⟨kv', rfl, by rw [h.unique hmem' hmem (h.trans hkey (h.symm hsame))]⟩

theorem hmGet_eq_none (h : hm.Inv) (k : κ) : hmGet hm k = none ↔ ∀ v, ¬Binds hm k v := by
  simp only [Option.eq_none_iff_forall_ne_some, ne_eq, hmGet_eq_some h]

end Chains

/-! ## Resizing -/

theorem flatten_modify_perm (kv : KeyVal κ ν) : ∀ (chains : List (List (KeyVal κ ν))) (i : Nat),
    i < chains.length → (chains.modify i (kv :: ·)).flatten.Perm (kv :: chains.flatten)
  | [], i, h => absurd h (Nat.not_lt_zero i)
  | c :: cs, 0, _ => by simp
  | c :: cs, i + 1, h => by
    have ih := flatten_modify_perm kv cs i (by simpa using h)
    rw [List.modify_succ_cons, List.flatten_cons, List.flatten_cons]
    exact (ih.append_left c).trans List.perm_middle

/-- Moving pairs to the front of their new chains adds them and keeps the chains in place. -/
theorem foldl_modify_spec (hashFunc : κ → UInt32) (newCap : Nat) (hcap : 0 < newCap) :
    ∀ (kvs : List (KeyVal κ ν)) (chains : List (List (KeyVal κ ν))), chains.length = newCap →
      Placed hashFunc chains → (∀ kv ∈ kvs, kv.hashVal = hashFunc kv.key) →
      let r := kvs.foldl
        (fun newChains kv => newChains.modify (chainInd newCap kv.hashVal) (kv :: ·)) chains
      r.length = newCap ∧ Placed hashFunc r ∧ r.flatten.Perm (kvs ++ chains.flatten)
  | [], chains, hlen, hplaced, _ => ⟨hlen, hplaced, List.Perm.refl _⟩
  | kv :: kvs, chains, hlen, hplaced, hhash => by
    have hlt : chainInd newCap kv.hashVal < chains.length := hlen ▸ chainInd_lt hcap _
    have hplaced' : Placed hashFunc (chains.modify (chainInd newCap kv.hashVal) (kv :: ·)) := by
      intro i chain hi x hx
      rw [List.length_modify]
      rw [List.getElem?_modify] at hi
      split at hi
      · next he =>
        obtain ⟨old, hold, rfl⟩ := Option.map_eq_some_iff.mp hi
        rcases List.mem_cons.mp hx with rfl | hx
        · exact ⟨hhash _ List.mem_cons_self, by rw [hlen]; exact he⟩
        · exact hplaced i old hold x hx
      · exact hplaced i chain (by simpa using hi) x hx
    obtain ⟨hlen', hp, hperm⟩ := foldl_modify_spec hashFunc newCap hcap kvs _
      (by rw [List.length_modify, hlen]) hplaced' fun x hx => hhash x (List.mem_cons_of_mem _ hx)
    refine ⟨hlen', hp, hperm.trans ?_⟩
    exact ((flatten_modify_perm kv chains _ hlt).append_left kvs).trans List.perm_middle

/-- **A resize moves pairs around and nothing else.** -/
theorem hmCheckResize_spec {hm : HashMap κ ν} (h : hm.Inv) :
    (hmCheckResize hm).Inv ∧ (hmKvps (hmCheckResize hm)).Perm (hmKvps hm) ∧
      (hmCheckResize hm).SameKey = hm.SameKey := by
  unfold hmCheckResize
  split
  · exact ⟨h, List.Perm.refl _, rfl⟩
  · have hpos := h.pos
    have hnil : Placed hm.hashFunc
        (List.replicate (hm.chains.length * 2) ([] : List (KeyVal κ ν))) := by
      intro i chain hi kv hkv
      rw [List.eq_of_mem_replicate (List.mem_of_getElem? hi)] at hkv
      cases hkv
    obtain ⟨hlen, hplaced, hperm⟩ := foldl_modify_spec hm.hashFunc
      (hm.chains.length * 2) (by omega) (hmKvps hm)
      (List.replicate (hm.chains.length * 2) []) List.length_replicate hnil
      fun kv hkv => (h.mem_chainOf hkv).1
    simp only [List.flatten_replicate_nil, List.append_nil] at hperm
    refine ⟨⟨h.equiv, ?_, hplaced, (h.distinct_perm hperm).mpr h.distinct, ?_⟩, hperm, rfl⟩
    · show 0 < (rehash hm.chains (hm.chains.length * 2)).length
      rw [show (rehash hm.chains (hm.chains.length * 2)).length = _ from hlen]
      omega
    · rw [h.count]
      exact hperm.length_eq.symm

/-! ## Changing one chain -/

/-- The first pair that passes the test is overwritten. -/
theorem updateChain_some {test : KeyVal κ ν → Bool} {value : ν} : ∀ {chain chain' : List (KeyVal κ ν)},
    updateChain test value chain = some chain' → ∃ l kv r, chain = l ++ kv :: r ∧
      test kv = true ∧ chain' = l ++ { kv with value := value } :: r
  | [], _, h => by simp [updateChain] at h
  | kv :: kvs, _, h => by
    rw [updateChain] at h
    split at h
    · next htest =>
      cases h
      exact ⟨[], kv, kvs, rfl, htest, rfl⟩
    · obtain ⟨kvs', hkvs, rfl⟩ := Option.map_eq_some_iff.mp h
      obtain ⟨l, x, r, rfl, htest, rfl⟩ := updateChain_some hkvs
      exact ⟨kv :: l, x, r, rfl, htest, rfl⟩

theorem updateChain_none {test : KeyVal κ ν → Bool} {value : ν} : ∀ {chain : List (KeyVal κ ν)},
    updateChain test value chain = none → ∀ kv ∈ chain, test kv = false
  | [], _ => by simp
  | kv :: kvs, h => by
    rw [updateChain] at h
    split at h
    · simp at h
    · next htest =>
      have ih := updateChain_none (Option.map_eq_none_iff.mp h)
      exact List.forall_mem_cons.mpr ⟨by simpa using htest, ih⟩

/-- The first pair that passes the test is unlinked. -/
theorem unlinkChain_some {test : KeyVal κ ν → Bool} : ∀ {chain chain' : List (KeyVal κ ν)},
    unlinkChain test chain = some chain' → ∃ l kv r, chain = l ++ kv :: r ∧
      test kv = true ∧ chain' = l ++ r
  | [], _, h => by simp [unlinkChain] at h
  | kv :: kvs, _, h => by
    rw [unlinkChain] at h
    split at h
    · next htest =>
      cases h
      exact ⟨[], kv, kvs, rfl, htest, rfl⟩
    · obtain ⟨kvs', hkvs, rfl⟩ := Option.map_eq_some_iff.mp h
      obtain ⟨l, x, r, rfl, htest, rfl⟩ := unlinkChain_some hkvs
      exact ⟨kv :: l, x, r, rfl, htest, rfl⟩

theorem unlinkChain_none {test : KeyVal κ ν → Bool} : ∀ {chain : List (KeyVal κ ν)},
    unlinkChain test chain = none → ∀ kv ∈ chain, test kv = false
  | [], _ => by simp
  | kv :: kvs, h => by
    rw [unlinkChain] at h
    split at h
    · simp at h
    · next htest =>
      have ih := unlinkChain_none (Option.map_eq_none_iff.mp h)
      exact List.forall_mem_cons.mpr ⟨by simpa using htest, ih⟩

/-- Replacing one chain, seen from the list of all pairs. -/
theorem flatten_set {chains : List (List (KeyVal κ ν))} {i : Nat} {chain : List (KeyVal κ ν)}
    (h : chains[i]? = some chain) : ∃ l r, chains.flatten = l ++ chain ++ r ∧
      ∀ chain', (chains.set i chain').flatten = l ++ chain' ++ r := by
  obtain ⟨hlt, hget⟩ := List.getElem?_eq_some_iff.mp h
  refine ⟨(chains.take i).flatten, (chains.drop (i + 1)).flatten, ?_, fun chain' => ?_⟩
  · have hsplit := List.take_append_drop i chains
    rw [List.drop_eq_getElem_cons hlt, hget] at hsplit
    rw [← congrArg List.flatten hsplit]
    simp
  · rw [List.set_eq_take_append_cons_drop, if_pos hlt]
    simp

/-- A chain whose pairs belong where they are can replace another one. -/
theorem Placed.set {hashFunc : κ → UInt32} {chains : List (List (KeyVal κ ν))}
    (h : Placed hashFunc chains) {i : Nat} {chain : List (KeyVal κ ν)}
    (hchain : ∀ kv ∈ chain, kv.hashVal = hashFunc kv.key ∧ chainInd chains.length kv.hashVal = i) :
    Placed hashFunc (chains.set i chain) := by
  intro j c hj kv hkv
  rw [List.length_set]
  rw [List.getElem?_set] at hj
  split at hj
  · next he =>
    subst he
    split at hj
    · cases hj
      exact hchain kv hkv
    · simp at hj
  · exact h j c hj kv hkv

section Step

variable {hm : HashMap κ ν}

/-- A pair found in the chain of a key, and the other pairs of the map. -/
theorem HashMap.Inv.split (h : hm.Inv) {key : κ} {l r : List (KeyVal κ ν)} {kv : KeyVal κ ν}
    (hchain : chainOf hm (hm.hashFunc key) = l ++ kv :: r)
    (htest : kvMatches hm (hm.hashFunc key) key kv = true) :
    hm.SameKey kv.key key ∧ ∃ rest, (hmKvps hm).Perm (kv :: rest) ∧ ∀ mid,
      (hm.chains.set (chainInd hm.chains.length (hm.hashFunc key)) (l ++ mid ++ r)).flatten.Perm
        (mid ++ rest) := by
  have hget := getElem?_chainOf h.pos (hm.hashFunc key)
  obtain ⟨l', r', hflat, hset⟩ := flatten_set hget
  have hmem : kv ∈ hmKvps hm := mem_kvps_of_chainOf h.pos (by rw [hchain]; simp)
  have hmid : ∀ mid : List (KeyVal κ ν),
      (l' ++ (l ++ mid ++ r) ++ r').Perm (mid ++ (l' ++ l ++ r ++ r')) := by
    intro mid
    rw [show l' ++ (l ++ mid ++ r) ++ r' = (l' ++ l) ++ (mid ++ (r ++ r')) by
      simp [List.append_assoc]]
    refine (List.perm_append_comm_assoc _ _ _).trans ?_
    simp [List.append_assoc]
  refine ⟨(h.kvMatches_iff hmem).mp htest, l' ++ l ++ r ++ r', ?_, fun mid => ?_⟩
  · rw [hmKvps, hflat, hchain]
    simpa using hmid [kv]
  · rw [hset]
    exact hmid mid

/-- The map with another chain for a key keeps the invariant. -/
theorem HashMap.Inv.set (h : hm.Inv) {key : κ} {chain : List (KeyVal κ ν)} {numKeys : Nat}
    (hchain : ∀ kv ∈ chain, kv ∈ chainOf hm (hm.hashFunc key) ∨
      kv.hashVal = hm.hashFunc key ∧ kv.hashVal = hm.hashFunc kv.key)
    {kvs : List (KeyVal κ ν)} (hdistinct : hm.Distinct kvs) (hcount : numKeys = kvs.length)
    (hperm : (hm.chains.set (chainInd hm.chains.length (hm.hashFunc key)) chain).flatten.Perm kvs) :
    HashMap.Inv { hm with
      chains := hm.chains.set (chainInd hm.chains.length (hm.hashFunc key)) chain
      numKeys := numKeys } where
  equiv := h.equiv
  pos := by rw [List.length_set]; exact h.pos
  placed := by
    have hplace := h.placed _ _ (getElem?_chainOf h.pos (hm.hashFunc key))
    refine h.placed.set fun kv hkv => ?_
    rcases hchain kv hkv with hold | ⟨hhash, hkey⟩
    · exact hplace kv hold
    · exact ⟨hkey, by rw [hhash]⟩
  distinct := (h.distinct_perm hperm).mpr hdistinct
  count := hcount.trans hperm.length_eq.symm

/-- A put finds no pair to overwrite where no pair has its key. -/
theorem HashMap.Inv.updateChain_eq_none_iff (h : hm.Inv) (key : κ) (value : ν) :
    updateChain (kvMatches hm (hm.hashFunc key) key) value (chainOf hm (hm.hashFunc key)) = none ↔
      ∀ kv ∈ hmKvps hm, ¬hm.SameKey kv.key key := by
  constructor
  · intro hupd kv hkv hsame
    have hmatch := (h.kvMatches_iff hkv).mpr hsame
    rw [updateChain_none hupd kv (h.mem_chainOf_of_sameKey hkv hsame)] at hmatch
    exact Bool.false_ne_true hmatch
  · intro hfresh
    by_contra hne
    obtain ⟨chain, hchain⟩ := Option.ne_none_iff_exists'.mp hne
    obtain ⟨l, kv, r, hsplit, htest, -⟩ := updateChain_some hchain
    have hmem : kv ∈ hmKvps hm := mem_kvps_of_chainOf h.pos (by rw [hsplit]; simp)
    exact hfresh kv hmem ((h.kvMatches_iff hmem).mp htest)

/-! ## One operation -/

/--
**A put overwrites the value of the pair of its key, or adds a pair.** The key that is stored
first stays.
-/
theorem hmPut_step (h : hm.Inv) (key : κ) (value : ν) :
    (hmPut hm key value).Inv ∧ (hmPut hm key value).SameKey = hm.SameKey ∧
    ((∃ kv rest, hm.SameKey kv.key key ∧ (hmKvps hm).Perm (kv :: rest) ∧
        (hmKvps (hmPut hm key value)).Perm ({ kv with value := value } :: rest)) ∨
      (∀ kv ∈ hmKvps hm, ¬hm.SameKey kv.key key) ∧
        (hmKvps (hmPut hm key value)).Perm (⟨hm.hashFunc key, key, value⟩ :: hmKvps hm)) := by
  cases hupd : updateChain (kvMatches hm (hm.hashFunc key) key) value
      (chainOf hm (hm.hashFunc key)) with
  | some chain =>
    obtain ⟨l, kv, r, hchain, htest, rfl⟩ := updateChain_some hupd
    obtain ⟨hsame, rest, hold, hnew⟩ := h.split hchain htest
    have hnew := hnew [{ kv with value := value }]
    simp only [List.append_assoc, List.singleton_append] at hnew
    have hput : hmPut hm key value = { hm with
        chains := hm.chains.set (chainInd hm.chains.length (hm.hashFunc key))
          (l ++ { kv with value := value } :: r) } := by
      simp only [hmPut, hupd]
    have hdistinct : hm.Distinct ({ kv with value := value } :: rest) := by
      have hd := (h.distinct_perm hold).mp h.distinct
      exact List.pairwise_cons.mpr ⟨(List.pairwise_cons.mp hd).1, (List.pairwise_cons.mp hd).2⟩
    rw [hput]
    refine ⟨h.set (fun x hx => ?_) hdistinct ?_ hnew, rfl, .inl ⟨kv, rest, hsame, hold, hnew⟩⟩
    -- The pair in the place of the old one has the old key, and so its hash.
    · have hmem : kv ∈ chainOf hm (hm.hashFunc key) := by rw [hchain]; simp
      rcases List.mem_append.mp hx with hx | hx
      · exact .inl (by rw [hchain]; simp [hx])
      · rcases List.mem_cons.mp hx with rfl | hx
        · have hhash := (h.mem_chainOf (mem_kvps_of_chainOf h.pos hmem)).1
          exact .inr ⟨hhash.trans hsame.1, hhash⟩
        · exact .inl (by rw [hchain]; simp [hx])
    · rw [h.count, hold.length_eq]
      rfl
  | none =>
    have hfresh := (h.updateChain_eq_none_iff key value).mp hupd
    obtain ⟨l, r, hflat, hset⟩ := flatten_set (getElem?_chainOf h.pos (hm.hashFunc key))
    have hnew : (hm.chains.set (chainInd hm.chains.length (hm.hashFunc key))
        (⟨hm.hashFunc key, key, value⟩ :: chainOf hm (hm.hashFunc key))).flatten.Perm
        (⟨hm.hashFunc key, key, value⟩ :: hmKvps hm) := by
      rw [hset, hmKvps, hflat]
      simp
    have hinv : HashMap.Inv { hm with
        chains := hm.chains.set (chainInd hm.chains.length (hm.hashFunc key))
          (⟨hm.hashFunc key, key, value⟩ :: chainOf hm (hm.hashFunc key))
        numKeys := hm.numKeys + 1 } := by
      refine h.set (fun x hx => ?_) ?_ ?_ hnew
      · rcases List.mem_cons.mp hx with rfl | hx
        · exact .inr ⟨rfl, rfl⟩
        · exact .inl hx
      · exact List.pairwise_cons.mpr ⟨fun kv hkv hs => hfresh kv hkv (h.symm hs), h.distinct⟩
      · rw [h.count, List.length_cons]
    obtain ⟨hinv', hperm, hsame⟩ := hmCheckResize_spec hinv
    have hput : hmPut hm key value = hmCheckResize { hm with
        chains := hm.chains.set (chainInd hm.chains.length (hm.hashFunc key))
          (⟨hm.hashFunc key, key, value⟩ :: chainOf hm (hm.hashFunc key))
        numKeys := hm.numKeys + 1 } := by
      simp only [hmPut, hupd]
    rw [hput]
    exact ⟨hinv', hsame, .inr ⟨hfresh, hperm.trans hnew⟩⟩

/-- **A remove takes out the pair of its key**, and reports whether there was one. -/
theorem hmRemove_step (h : hm.Inv) (key : κ) :
    (hmRemove hm key).2.Inv ∧ (hmRemove hm key).2.SameKey = hm.SameKey ∧
    ((hmRemove hm key).1 = true ∧ (∃ kv rest, hm.SameKey kv.key key ∧
        (hmKvps hm).Perm (kv :: rest) ∧ (hmKvps (hmRemove hm key).2).Perm rest) ∨
      (hmRemove hm key).1 = false ∧ (hmRemove hm key).2 = hm ∧
        ∀ kv ∈ hmKvps hm, ¬hm.SameKey kv.key key) := by
  cases hunl : unlinkChain (kvMatches hm (hm.hashFunc key) key)
      (chainOf hm (hm.hashFunc key)) with
  | some chain =>
    obtain ⟨l, kv, r, hchain, htest, rfl⟩ := unlinkChain_some hunl
    obtain ⟨hsame, rest, hold, hnew⟩ := h.split hchain htest
    have hnew := hnew []
    simp only [List.append_nil, List.nil_append] at hnew
    have hrem : hmRemove hm key = (true, { hm with
        chains := hm.chains.set (chainInd hm.chains.length (hm.hashFunc key)) (l ++ r)
        numKeys := hm.numKeys - 1 }) := by
      simp only [hmRemove, hunl]
    have hdistinct := (List.pairwise_cons.mp ((h.distinct_perm hold).mp h.distinct)).2
    rw [hrem]
    refine ⟨h.set (fun x hx => .inl ?_) hdistinct ?_ hnew, rfl,
      .inl ⟨rfl, kv, rest, hsame, hold, hnew⟩⟩
    · rw [hchain]
      rcases List.mem_append.mp hx with hx | hx <;> simp [hx]
    · rw [h.count, hold.length_eq, List.length_cons, Nat.add_sub_cancel]
  | none =>
    have hrem : hmRemove hm key = (false, hm) := by simp only [hmRemove, hunl]
    rw [hrem]
    refine ⟨h, rfl, .inr ⟨rfl, rfl, fun kv hkv hsame => ?_⟩⟩
    have hmatch := (h.kvMatches_iff hkv).mpr hsame
    rw [unlinkChain_none hunl kv (h.mem_chainOf_of_sameKey hkv hsame)] at hmatch
    exact Bool.false_ne_true hmatch

/-! ## Bindings -/

/-- What a map binds when one pair is put beside the pairs of other keys. -/
theorem binds_of_perm {hm' : HashMap κ ν} (h' : hm'.Inv) {kv : KeyVal κ ν}
    {rest : List (KeyVal κ ν)} (hperm : (hmKvps hm').Perm (kv :: rest)) (k : κ) (v : ν) :
    Binds hm' k v ↔ hm'.SameKey kv.key k ∧ v = kv.value ∨
      ¬hm'.SameKey kv.key k ∧ ∃ x ∈ rest, hm'.SameKey x.key k ∧ x.value = v := by
  have hd := (List.pairwise_cons.mp ((h'.distinct_perm hperm).mp h'.distinct)).1
  constructor
  · rintro ⟨x, hx, hsame, rfl⟩
    rcases List.mem_cons.mp (hperm.mem_iff.mp hx) with rfl | hx
    · exact .inl ⟨hsame, rfl⟩
    · exact .inr ⟨fun hkv => hd x hx (h'.trans hkv (h'.symm hsame)), x, hx, hsame, rfl⟩
  · rintro (⟨hsame, rfl⟩ | ⟨-, x, hx, hsame, rfl⟩)
    · exact ⟨kv, hperm.mem_iff.mpr List.mem_cons_self, hsame, rfl⟩
    · exact ⟨x, hperm.mem_iff.mpr (List.mem_cons_of_mem _ hx), hsame, rfl⟩

/-- **A put binds its key and leaves the others alone.** -/
theorem hmPut_spec (h : hm.Inv) (key : κ) (value : ν) :
    (hmPut hm key value).Inv ∧ (hmPut hm key value).SameKey = hm.SameKey ∧
      ∀ k v, Binds (hmPut hm key value) k v ↔
        hm.SameKey key k ∧ v = value ∨ ¬hm.SameKey key k ∧ Binds hm k v := by
  obtain ⟨h', hkeys, hstep⟩ := hmPut_step h key value
  refine ⟨h', hkeys, fun k v => ?_⟩
  rcases hstep with ⟨kv, rest, hsame, hold, hnew⟩ | ⟨hfresh, hnew⟩
  · have hkey : hm.SameKey kv.key k ↔ hm.SameKey key k :=
      ⟨h.trans (h.symm hsame), h.trans hsame⟩
    rw [binds_of_perm h' hnew, binds_of_perm h hold, hkeys]
    simp only [hkey]
    tauto
  · rw [binds_of_perm h' hnew, hkeys]
    rfl

/-- **A remove unbinds its key and leaves the others alone.** -/
theorem hmRemove_spec (h : hm.Inv) (key : κ) :
    (hmRemove hm key).2.Inv ∧ (hmRemove hm key).2.SameKey = hm.SameKey ∧
      ((hmRemove hm key).1 = true ↔ ∃ v, Binds hm key v) ∧
      ∀ k v, Binds (hmRemove hm key).2 k v ↔ ¬hm.SameKey key k ∧ Binds hm k v := by
  obtain ⟨h', hkeys, hstep⟩ := hmRemove_step h key
  refine ⟨h', hkeys, ?_, fun k v => ?_⟩
  · rcases hstep with ⟨hfound, kv, rest, hsame, hold, -⟩ | ⟨hfound, -, hfresh⟩
    · have hmem : kv ∈ hmKvps hm := hold.mem_iff.mpr List.mem_cons_self
      exact ⟨fun _ => ⟨kv.value, kv, hmem, hsame, rfl⟩, fun _ => hfound⟩
    · constructor
      · intro ht
        rw [hfound] at ht
        cases ht
      · rintro ⟨v, kv, hkv, hsame, -⟩
        exact absurd hsame (hfresh kv hkv)
  · rcases hstep with ⟨-, kv, rest, hsame, hold, hnew⟩ | ⟨-, hrem, hfresh⟩
    · have hkey : hm.SameKey kv.key k ↔ hm.SameKey key k :=
        ⟨h.trans (h.symm hsame), h.trans hsame⟩
      have hd := (List.pairwise_cons.mp ((h.distinct_perm hold).mp h.distinct)).1
      rw [binds_of_perm h hold]
      simp only [Binds, hkeys, hnew.mem_iff, hkey]
      constructor
      · rintro ⟨x, hx, hsame', rfl⟩
        have hne : ¬hm.SameKey key k := fun hk =>
          hd x hx (h.trans hsame (h.trans hk (h.symm hsame')))
        exact ⟨hne, .inr ⟨hne, x, hx, hsame', rfl⟩⟩
      · rintro ⟨hne, ⟨hk, -⟩ | ⟨-, hx⟩⟩
        · exact absurd hk hne
        · exact hx
    · rw [hrem]
      constructor
      · rintro ⟨x, hx, hsame, rfl⟩
        exact ⟨fun hk => hfresh x hx (h.trans hsame (h.symm hk)), x, hx, hsame, rfl⟩
      · exact fun hb => hb.2

end Step

/-! ## An empty map -/

theorem newHashMap_inv {hashFunc : κ → UInt32} {eqFunc : κ → κ → Bool}
    (h : Equivalence fun a b => eqFunc a b = true) :
    (newHashMap hashFunc eqFunc : HashMap κ ν).Inv where
  equiv := h
  pos := by simp [newHashMap]
  placed := by
    intro i chain hi kv hkv
    rw [List.eq_of_mem_replicate (List.mem_of_getElem? hi)] at hkv
    cases hkv
  distinct := by simp [newHashMap, hmKvps, HashMap.Distinct]
  count := by simp [newHashMap, hmKvps]

@[simp] theorem hmKvps_newHashMap (hashFunc : κ → UInt32) (eqFunc : κ → κ → Bool) :
    hmKvps (newHashMap hashFunc eqFunc : HashMap κ ν) = [] := by
  simp [newHashMap, hmKvps]

theorem not_binds_newHashMap {hashFunc : κ → UInt32} {eqFunc : κ → κ → Bool} (k : κ) (v : ν) :
    ¬Binds (newHashMap hashFunc eqFunc : HashMap κ ν) k v := by
  simp [Binds]

end Chlibs.Util

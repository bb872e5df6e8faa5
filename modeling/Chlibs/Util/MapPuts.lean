import Chlibs.Util.Map

/-!
# Puts in a row

The pairs of a map, seen with the keys that are stored. Where the map tells the keys that are put
apart as equality does, it holds the last value of each key.

* `foldl_hmPut_holds` — what a map holds after any list of puts.
-/

namespace Chlibs.Util

variable {κ ν : Type} {hm : HashMap κ ν}

/-- `v` is stored with the very key `k`. -/
def Holds (hm : HashMap κ ν) (k : κ) (v : ν) : Prop := ∃ kv ∈ hmKvps hm, kv.key = k ∧ kv.value = v

/-- The map never takes two of the keys for one. -/
def HashMap.TellsApart (hm : HashMap κ ν) (keys : List κ) : Prop :=
  ∀ a ∈ keys, ∀ b ∈ keys, hm.SameKey a b → a = b

theorem Holds.binds (h : hm.Inv) {k : κ} {v : ν} : Holds hm k v → Binds hm k v
  | ⟨kv, hkv, hkey, hval⟩ => ⟨kv, hkv, hkey ▸ h.refl kv.key, hval⟩

/-- The stored keys are different ones. -/
theorem HashMap.Inv.nodup_keys (h : hm.Inv) : ((hmKvps hm).map KeyVal.key).Nodup := by
  refine List.pairwise_map.mpr (List.Pairwise.imp ?_ h.distinct)
  intro a b hne heq
  exact hne (heq ▸ h.refl a.key)

/-- A put of a key that the map tells apart from those it has. -/
theorem hmPut_holds (h : hm.Inv) {key : κ} {value : ν}
    (hexact : ∀ kv ∈ hmKvps hm, hm.SameKey kv.key key → kv.key = key) (k : κ) (v : ν) :
    Holds (hmPut hm key value) k v ↔ k = key ∧ v = value ∨ k ≠ key ∧ Holds hm k v := by
  obtain ⟨-, -, hstep⟩ := hmPut_step h key value
  rcases hstep with ⟨kv, rest, hsame, hold, hnew⟩ | ⟨hfresh, hnew⟩
  · have hkey : kv.key = key := hexact kv (hold.mem_iff.mpr List.mem_cons_self) hsame
    have hrest : ∀ x ∈ rest, x.key ≠ key := by
      intro x hx heq
      have hd := (List.pairwise_cons.mp ((h.distinct_perm hold).mp h.distinct)).1 x hx
      exact hd (by rw [heq, ← hkey]; exact h.refl _)
    simp only [Holds, hnew.mem_iff, hold.mem_iff, List.mem_cons]
    constructor
    · rintro ⟨x, rfl | hx, rfl, rfl⟩
      · exact .inl ⟨hkey, rfl⟩
      · exact .inr ⟨hrest x hx, x, .inr hx, rfl, rfl⟩
    · rintro (⟨rfl, rfl⟩ | ⟨hne, x, rfl | hx, rfl, rfl⟩)
      · exact ⟨_, .inl rfl, hkey, rfl⟩
      · exact absurd hkey hne
      · exact ⟨x, .inr hx, rfl, rfl⟩
  · simp only [Holds, hnew.mem_iff, List.mem_cons]
    constructor
    · rintro ⟨x, rfl | hx, rfl, rfl⟩
      · exact .inl ⟨rfl, rfl⟩
      · exact .inr ⟨fun heq => hfresh x hx (heq ▸ h.refl _), x, hx, rfl, rfl⟩
    · rintro (⟨rfl, rfl⟩ | ⟨-, x, hx, rfl, rfl⟩)
      · exact ⟨_, .inl rfl, rfl, rfl⟩
      · exact ⟨x, .inr hx, rfl, rfl⟩

/-- After puts a map has something under the keys that were put, besides those that it had. -/
theorem foldl_hmPut_binds {hm : HashMap κ ν} (h : hm.Inv) (k : κ) : ∀ kvs : List (κ × ν),
    (kvs.foldl (fun hm kv => hmPut hm kv.1 kv.2) hm).Inv ∧
      (kvs.foldl (fun hm kv => hmPut hm kv.1 kv.2) hm).SameKey = hm.SameKey ∧
      ((∃ v, Binds (kvs.foldl (fun hm kv => hmPut hm kv.1 kv.2) hm) k v) ↔
        (∃ v, Binds hm k v) ∨ ∃ kv ∈ kvs, hm.SameKey kv.1 k) := by
  intro kvs
  induction kvs using List.reverseRecOn with
  | nil => exact ⟨h, rfl, by simp⟩
  | append_singleton kvs kv ih =>
    obtain ⟨hinv, hsame, hbinds⟩ := ih
    obtain ⟨hinv', hsame', hput⟩ := hmPut_spec hinv kv.1 kv.2
    rw [List.foldl_append]
    refine ⟨hinv', hsame'.trans hsame, ?_⟩
    show (∃ v, Binds (hmPut _ kv.1 kv.2) k v) ↔ _
    simp only [hput, hsame]
    by_cases hk : hm.SameKey kv.1 k
    · simp [hk]
    · simp only [hk, false_and, not_false_eq_true, true_and, false_or, hbinds, List.mem_append,
        List.mem_singleton, or_and_right, exists_or, exists_eq_left, or_false]

section LastValue

variable [DecidableEq κ]

/-- The value of the last pair of a key. -/
def lastValue (kvs : List (κ × ν)) (k : κ) : Option ν :=
  (kvs.reverse.find? fun kv => kv.1 = k).map Prod.snd

theorem lastValue_append_singleton (kvs : List (κ × ν)) (kv : κ × ν) (k : κ) :
    lastValue (kvs ++ [kv]) k = if kv.1 = k then some kv.2 else lastValue kvs k := by
  unfold lastValue
  rw [List.reverse_append, List.reverse_singleton, List.singleton_append, List.find?_cons]
  by_cases hk : kv.1 = k
  · simp [hk]
  · simp [hk]

theorem lastValue_mem {kvs : List (κ × ν)} {k : κ} {v : ν} (h : lastValue kvs k = some v) :
    (k, v) ∈ kvs := by
  obtain ⟨kv, hfind, rfl⟩ := Option.map_eq_some_iff.mp h
  have hmem := List.mem_reverse.mp (List.mem_of_find?_eq_some hfind)
  have hkey : kv.1 = k := by simpa using List.find?_some hfind
  rwa [← hkey]

/-- Every key has a last value. -/
theorem lastValue_isSome {kvs : List (κ × ν)} {k : κ} (h : k ∈ kvs.map Prod.fst) :
    ∃ v, lastValue kvs k = some v := by
  obtain ⟨kv, hkv, rfl⟩ := List.mem_map.mp h
  have hsome : (kvs.reverse.find? fun x => x.1 = kv.1).isSome := by
    rw [List.find?_isSome]
    exact ⟨kv, List.mem_reverse.mpr hkv, by simp⟩
  obtain ⟨x, hx⟩ := Option.isSome_iff_exists.mp hsome
  exact ⟨x.2, by rw [lastValue, hx]; rfl⟩

/-- Where no key is repeated, every value is the last one. -/
theorem lastValue_of_nodup {kvs : List (κ × ν)} (h : (kvs.map Prod.fst).Nodup) {k : κ} {v : ν}
    (hmem : (k, v) ∈ kvs) : lastValue kvs k = some v := by
  obtain ⟨v', hv'⟩ := lastValue_isSome (List.mem_map_of_mem hmem)
  have heq := List.inj_on_of_nodup_map h (lastValue_mem hv') hmem rfl
  rw [hv', (Prod.mk.inj heq).2]

theorem lastValue_map {ν' : Type} (f : ν → ν') (kvs : List (κ × ν)) (k : κ) :
    lastValue (kvs.map fun kv => (kv.1, f kv.2)) k = (lastValue kvs k).map f := by
  unfold lastValue
  rw [← List.map_reverse, List.find?_map, Option.map_map, Option.map_map]
  rfl

/-- **After puts of keys that it tells apart a map holds the last value of each.** -/
theorem foldl_hmPut_holds {hm : HashMap κ ν} (h : hm.Inv) (hempty : hmKvps hm = [])
    (kvs : List (κ × ν)) :
    (kvs.foldl (fun hm kv => hmPut hm kv.1 kv.2) hm).Inv ∧
      (kvs.foldl (fun hm kv => hmPut hm kv.1 kv.2) hm).SameKey = hm.SameKey ∧
      (hm.TellsApart (kvs.map Prod.fst) → ∀ k v,
        Holds (kvs.foldl (fun hm kv => hmPut hm kv.1 kv.2) hm) k v ↔ lastValue kvs k = some v) := by
  induction kvs using List.reverseRecOn with
  | nil => exact ⟨h, rfl, fun _ k v => by simp [Holds, hempty, lastValue]⟩
  | append_singleton kvs kv ih =>
    obtain ⟨hinv, hsame, hholds⟩ := ih
    rw [List.foldl_append]
    obtain ⟨hinv', hsame', -⟩ := hmPut_step hinv kv.1 kv.2
    refine ⟨hinv', hsame'.trans hsame, fun hapart k v => ?_⟩
    rw [List.map_append] at hapart
    have hholds := hholds fun a ha b hb => hapart a (List.mem_append_left _ ha) b
      (List.mem_append_left _ hb)
    have hexact : ∀ x ∈ hmKvps (kvs.foldl (fun hm kv => hmPut hm kv.1 kv.2) hm),
        (kvs.foldl (fun hm kv => hmPut hm kv.1 kv.2) hm).SameKey x.key kv.1 → x.key = kv.1 := by
      intro x hx hkey
      have hmem := List.mem_map_of_mem (f := Prod.fst)
        (lastValue_mem ((hholds x.key x.value).mp ⟨x, hx, rfl, rfl⟩))
      rw [hsame] at hkey
      exact hapart _ (List.mem_append_left _ hmem) _ (List.mem_append_right _ (by simp)) hkey
    show Holds (hmPut _ kv.1 kv.2) k v ↔ _
    rw [hmPut_holds hinv hexact, hholds, lastValue_append_singleton]
    by_cases hk : kv.1 = k
    · subst hk
      simp [eq_comm]
    · simp [hk, Ne.symm hk]

end LastValue

end Chlibs.Util

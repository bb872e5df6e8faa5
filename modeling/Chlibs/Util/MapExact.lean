import Chlibs.Util.MapPuts

/-!
# Maps that compare keys by equality

Where `eq_func` is equality, a hash map is a partial function on keys.

* `hmGet_hmPut`, `hmGet_hmRemove` — what an update does to it.
* `hmGet_eq_some_iff_mem` — iteration shows the same.
-/

namespace Chlibs.Util

variable {κ ν : Type} {hm : HashMap κ ν}

/-- The map tells keys apart as equality does. -/
structure HashMap.Exact (hm : HashMap κ ν) : Prop where
  inv : hm.Inv
  sameKey : ∀ a b, hm.SameKey a b ↔ a = b

theorem newHashMap_exact {hashFunc : κ → UInt32} {eqFunc : κ → κ → Bool}
    (h : ∀ a b, eqFunc a b = true ↔ a = b) : (newHashMap hashFunc eqFunc : HashMap κ ν).Exact := by
  have hequiv : Equivalence fun a b => eqFunc a b = true := by
    simp only [h]
    exact eq_equivalence
  refine ⟨newHashMap_inv hequiv, fun a b => ⟨fun hsame => (h a b).mp hsame.2, ?_⟩⟩
  rintro rfl
  exact ⟨rfl, (h a a).mpr rfl⟩

theorem hmGet_newHashMap {hashFunc : κ → UInt32} {eqFunc : κ → κ → Bool}
    (h : ∀ a b, eqFunc a b = true ↔ a = b) (k : κ) :
    hmGet (newHashMap hashFunc eqFunc : HashMap κ ν) k = none :=
  (hmGet_eq_none (newHashMap_exact h).inv k).mpr (not_binds_newHashMap k)

theorem hmGet_eq_some_iff_mem (h : hm.Exact) (k : κ) (v : ν) :
    hmGet hm k = some v ↔ ∃ kv ∈ hmKvps hm, kv.key = k ∧ kv.value = v := by
  rw [hmGet_eq_some h.inv]
  unfold Binds
  simp only [h.sameKey]

/-- **A put** binds its key, and nothing else. -/
theorem hmGet_hmPut [DecidableEq κ] (h : hm.Exact) (key : κ) (value : ν) :
    (hmPut hm key value).Exact ∧
      ∀ k, hmGet (hmPut hm key value) k = if k = key then some value else hmGet hm k := by
  obtain ⟨hinv, hsame, hbinds⟩ := hmPut_spec h.inv key value
  refine ⟨⟨hinv, fun a b => by rw [hsame, h.sameKey]⟩, fun k => Option.ext fun v => ?_⟩
  rw [hmGet_eq_some hinv, hbinds, h.sameKey, ← hmGet_eq_some h.inv]
  by_cases hk : k = key
  · simp [hk, eq_comm]
  · simp [hk, Ne.symm hk]

/-- **A remove** unbinds its key, and nothing else. -/
theorem hmGet_hmRemove [DecidableEq κ] (h : hm.Exact) (key : κ) :
    (hmRemove hm key).2.Exact ∧
      ∀ k, hmGet (hmRemove hm key).2 k = if k = key then none else hmGet hm k := by
  obtain ⟨hinv, hsame, -, hbinds⟩ := hmRemove_spec h.inv key
  refine ⟨⟨hinv, fun a b => by rw [hsame, h.sameKey]⟩, fun k => Option.ext fun v => ?_⟩
  rw [hmGet_eq_some hinv, hbinds, h.sameKey, ← hmGet_eq_some h.inv]
  by_cases hk : k = key
  · simp [hk]
  · simp [hk, Ne.symm hk]

end Chlibs.Util

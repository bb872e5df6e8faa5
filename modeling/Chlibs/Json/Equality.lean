import Chlibs.Json.Denotation
import Chlibs.Util.MapRefinement

/-!
# What equality of trees decides

The value of a tree has no order of pairs, no past removals and no capacities: an object is a
function from keys to values. `json_equals` compares counts and looks each pair of one map up in
the other.

* `JsonValue`, `value` — what a tree stands for.
* `Comparable` — the trees that can be compared: no NUL in a string or key, and no NaN.
* `jsonEquals_iff` — equality of trees is equality of their values.
-/

namespace Chlibs.Chjson

open Infra Util

/-- The value of a JSON tree, over the values of numbers. -/
inductive JsonValue (ν : Type) where
  | object (member : Bytes → Option (JsonValue ν))
  | list (elements : List (JsonValue ν))
  | string (str : Bytes)
  | number (n : ν)
  | boolean (b : Bool)
  | null

/--
The values of the numbers, none for NaN. `==` decides whether two numbers are numerically equal.
-/
structure NumberValues (Num ν : Type) [BEq Num] where
  value : Num → Option ν
  beq_iff : ∀ n n' v v', value n = some v → value n' = some v' → ((n == n') = true ↔ v = v')

variable {Num ν : Type} [BEq Num]

/-- An object has a member for each pair, a list an element for each position. -/
def value (V : NumberValues Num ν) : Json Num → JsonValue (Option ν)
  | .object hm => .object fun k =>
    ((hmKvps hm).attach.find? fun kv => kv.1.key == k).map fun kv => value V kv.1.value
  | .list l => .list (l.attach.map fun json => value V json.1)
  | .string s => .string s
  | .number n => .number (V.value n)
  | .boolean b => .boolean b
  | .null => .null
termination_by json => sizeOf json
decreasing_by
  · exact sizeOf_value_lt kv.2
  · exact sizeOf_element_lt json.2

/-- A tree with maps of strings, without NaN, and without a NUL in a string or a key. -/
inductive Comparable (V : NumberValues Num ν) : Json Num → Prop
  | object {hm} : hm.Inv → hm.hashFunc = sHash → hm.eqFunc = sEquals →
    (∀ kv ∈ hmKvps hm, (0 : UInt8) ∉ kv.key) → (∀ kv ∈ hmKvps hm, Comparable V kv.value) →
    Comparable V (.object hm)
  | list {l} : (∀ json ∈ l, Comparable V json) → Comparable V (.list l)
  | string {s} : (0 : UInt8) ∉ s → Comparable V (.string s)
  | number {n} : (V.value n).isSome → Comparable V (.number n)
  | boolean {b} : Comparable V (.boolean b)
  | null : Comparable V .null

/-! ## Maps -/

section Maps

variable {α : Type} {hm : HashMap Bytes α}

theorem sEquals_iff_of_notMem {a b : Bytes} (ha : (0 : UInt8) ∉ a) (hb : (0 : UInt8) ∉ b) :
    sEquals a b = true ↔ a = b := by
  rw [sEquals, beq_iff_eq, cString_of_notMem ha, cString_of_notMem hb]

/-- The value that is stored with the very key. -/
def memberOf (hm : HashMap Bytes α) (k : Bytes) : Option α :=
  ((hmKvps hm).find? fun kv => kv.key == k).map KeyVal.value

theorem memberOf_eq_some (h : hm.Inv) {k : Bytes} {v : α} :
    memberOf hm k = some v ↔ Holds hm k v := by
  rw [memberOf, Option.map_eq_some_iff]
  constructor
  · rintro ⟨kv, hfind, rfl⟩
    exact ⟨kv, List.mem_of_find?_eq_some hfind, by simpa using List.find?_some hfind, rfl⟩
  · rintro ⟨kv, hkv, rfl, rfl⟩
    have hsome : ((hmKvps hm).find? fun x => x.key == kv.key).isSome :=
      List.find?_isSome.mpr ⟨kv, hkv, beq_self_eq_true _⟩
    obtain ⟨x, hx⟩ := Option.isSome_iff_exists.mp hsome
    have hkey : x.key = kv.key := by simpa using List.find?_some hx
    exact ⟨x, hx, by
      rw [List.inj_on_of_nodup_map h.nodup_keys (List.mem_of_find?_eq_some hx) hkv hkey]⟩

theorem memberOf_isSome {k : Bytes} : (memberOf hm k).isSome ↔ k ∈ (hmKvps hm).map KeyVal.key := by
  rw [memberOf, Option.isSome_map, List.find?_isSome, List.mem_map]
  simp only [beq_iff_eq]

/-- Where no NUL is in a key, lookup finds the very key. -/
theorem hmGet_eq_memberOf (h : hm.Inv) (hhash : hm.hashFunc = sHash) (heq : hm.eqFunc = sEquals)
    (hkeys : ∀ kv ∈ hmKvps hm, (0 : UInt8) ∉ kv.key) {k : Bytes} (hk : (0 : UInt8) ∉ k) :
    hmGet hm k = memberOf hm k := by
  refine Option.ext fun v => ?_
  rw [hmGet_eq_some h, memberOf_eq_some h, Binds, Holds]
  refine exists_congr fun kv => and_congr_right fun hkv => and_congr_left fun _ => ?_
  rw [HashMap.SameKey, hhash, heq, sEquals_iff_of_notMem (hkeys kv hkv) hk]
  exact ⟨And.right, fun hsame => ⟨by rw [hsame], hsame⟩⟩

/-- One-sided inclusion and equal counts: the keys of the two maps are the same. -/
theorem mem_keys_iff_of_numKeys {hm1 hm2 : HashMap Bytes α} (h1 : hm1.Inv) (h2 : hm2.Inv)
    (hnum : hmNumKeys hm1 = hmNumKeys hm2)
    (hsub : (hmKvps hm1).map KeyVal.key ⊆ (hmKvps hm2).map KeyVal.key) (k : Bytes) :
    k ∈ (hmKvps hm1).map KeyVal.key ↔ k ∈ (hmKvps hm2).map KeyVal.key := by
  have hlen : ((hmKvps hm2).map KeyVal.key).length ≤ ((hmKvps hm1).map KeyVal.key).length := by
    rw [List.length_map, List.length_map, ← h1.count, ← h2.count]
    exact hnum.ge
  have hperm := (h1.nodup_keys.subperm hsub).perm_of_length_le hlen
  exact hperm.mem_iff

theorem hmPut_funcs (hm : HashMap Bytes α) (key : Bytes) (value : α) :
    (hmPut hm key value).hashFunc = hm.hashFunc ∧ (hmPut hm key value).eqFunc = hm.eqFunc := by
  unfold hmPut hmCheckResize
  dsimp only
  split
  · exact ⟨rfl, rfl⟩
  · split <;> exact ⟨rfl, rfl⟩

theorem hmRemove_funcs (hm : HashMap Bytes α) (key : Bytes) :
    (hmRemove hm key).2.hashFunc = hm.hashFunc ∧ (hmRemove hm key).2.eqFunc = hm.eqFunc := by
  unfold hmRemove
  dsimp only
  split <;> exact ⟨rfl, rfl⟩

/-- Any calls on a new object leave a map of strings. -/
theorem stateAfter_newObject (ops : List (MapOp Bytes (Json α))) :
    (stateAfter hmStep newObject ops).Inv ∧ (stateAfter hmStep newObject ops).hashFunc = sHash ∧
      (stateAfter hmStep newObject ops).eqFunc = sEquals := by
  induction ops using List.reverseRecOn with
  | nil => exact ⟨newObject_inv, rfl, rfl⟩
  | append_singleton ops op ih =>
    obtain ⟨hinv, hhash, heq⟩ := ih
    rw [stateAfter_append]
    generalize stateAfter hmStep newObject ops = hm at hinv hhash heq
    cases op with
    | put key value =>
      obtain ⟨hhash', heq'⟩ := hmPut_funcs hm key value
      exact ⟨(hmPut_step hinv key value).1, hhash'.trans hhash, heq'.trans heq⟩
    | remove key =>
      obtain ⟨hhash', heq'⟩ := hmRemove_funcs hm key
      exact ⟨(hmRemove_step hinv key).1, hhash'.trans hhash, heq'.trans heq⟩
    | get key => exact ⟨hinv, hhash, heq⟩
    | contains key => exact ⟨hinv, hhash, heq⟩
    | numKeys => exact ⟨hinv, hhash, heq⟩

end Maps

theorem value_object (V : NumberValues Num ν) (hm : HashMap Bytes (Json Num)) :
    value V (.object hm) = .object fun k => (memberOf hm k).map (value V) := by
  rw [value]
  congr 1
  funext k
  rw [memberOf]
  conv_rhs => rw [← List.attach_map_subtype_val (hmKvps hm), List.find?_map, Option.map_map,
    Option.map_map]
  rfl

theorem value_list (V : NumberValues Num ν) (l : List (Json Num)) :
    value V (.list l) = .list (l.map (value V)) := by
  rw [value]
  congr 1
  exact List.attach_map_val

/-- **Objects**, where equality decides the values of what they hold. -/
theorem jsonEquals_object_iff (V : NumberValues Num ν) {hm1 hm2 : HashMap Bytes (Json Num)}
    (h1 : Comparable V (.object hm1)) (h2 : Comparable V (.object hm2))
    (ih : ∀ kv ∈ hmKvps hm1, ∀ json2, Comparable V json2 →
      (jsonEquals kv.value json2 = true ↔ value V kv.value = value V json2)) :
    jsonEquals (.object hm1) (.object hm2) = true ↔ value V (.object hm1) = value V (.object hm2) := by
  cases h1 with
  | object hinv1 _ _ hkeys1 _ =>
  cases h2 with
  | object hinv2 hhash2 heq2 hkeys2 hvalues2 =>
  rw [jsonEquals_object, value_object, value_object, JsonValue.object.injEq]
  have hlookup : ∀ kv ∈ hmKvps hm1, hmGet hm2 kv.key = memberOf hm2 kv.key := fun kv hkv =>
    hmGet_eq_memberOf hinv2 hhash2 heq2 hkeys2 (hkeys1 kv hkv)
  have hcomparable : ∀ {k v}, memberOf hm2 k = some v → Comparable V v := by
    intro k v hv
    obtain ⟨kv, hkv, -, rfl⟩ := (memberOf_eq_some hinv2).mp hv
    exact hvalues2 kv hkv
  have hmember : ∀ kv ∈ hmKvps hm1, memberOf hm1 kv.key = some kv.value := fun kv hkv =>
    (memberOf_eq_some hinv1).mpr ⟨kv, hkv, rfl, rfl⟩
  constructor
  · rintro ⟨hnum, hget⟩
    -- The keys of the first are keys of the second, and there are as many of them.
    have hsub : (hmKvps hm1).map KeyVal.key ⊆ (hmKvps hm2).map KeyVal.key := by
      intro k hk
      obtain ⟨kv, hkv, rfl⟩ := List.mem_map.mp hk
      obtain ⟨v, hv, -⟩ := hget kv hkv
      rw [hlookup kv hkv] at hv
      exact memberOf_isSome.mp (by rw [hv]; rfl)
    funext k
    by_cases hk : k ∈ (hmKvps hm1).map KeyVal.key
    · obtain ⟨kv, hkv, rfl⟩ := List.mem_map.mp hk
      obtain ⟨v, hv, heq⟩ := hget kv hkv
      rw [hlookup kv hkv] at hv
      rw [hmember kv hkv, hv, Option.map_some, Option.map_some,
        (ih kv hkv v (hcomparable hv)).mp heq]
    · have hk2 := (mem_keys_iff_of_numKeys hinv1 hinv2 hnum hsub k).not.mp hk
      rw [← memberOf_isSome, Option.not_isSome_iff_eq_none] at hk hk2
      rw [hk, hk2]
  · intro hsame
    have hkeys : ∀ k, k ∈ (hmKvps hm1).map KeyVal.key ↔ k ∈ (hmKvps hm2).map KeyVal.key := by
      intro k
      have hk := congrArg Option.isSome (congrFun hsame k)
      rw [Option.isSome_map, Option.isSome_map] at hk
      rw [← memberOf_isSome, ← memberOf_isSome, hk]
    -- Both have the same keys, each once, and so as many of them.
    have hperm := (List.perm_ext_iff_of_nodup hinv1.nodup_keys hinv2.nodup_keys).mpr hkeys
    refine ⟨?_, fun kv hkv => ?_⟩
    · have hlen := hperm.length_eq
      rw [List.length_map, List.length_map] at hlen
      rw [hmNumKeys, hmNumKeys, hinv1.count, hinv2.count, hlen]
    · have hk := congrFun hsame kv.key
      rw [hmember kv hkv, Option.map_some, eq_comm, Option.map_eq_some_iff] at hk
      obtain ⟨v, hv, heq⟩ := hk
      exact ⟨v, (hlookup kv hkv).trans hv, (ih kv hkv v (hcomparable hv)).mpr heq.symm⟩

/-! ## Trees -/

/-- Lists of trees, where equality decides the values of the elements of the first. -/
theorem jsonEquals_list_iff (V : NumberValues Num ν) : ∀ {l1 l2 : List (Json Num)},
    (∀ json1 ∈ l1, ∀ json2, Comparable V json2 →
      (jsonEquals json1 json2 = true ↔ value V json1 = value V json2)) →
    (∀ json2 ∈ l2, Comparable V json2) →
    (List.Forall₂ (fun json1 json2 => jsonEquals json1 json2 = true) l1 l2 ↔
      l1.map (value V) = l2.map (value V))
  | [], [], _, _ => by simp
  | [], _ :: _, _, _ => by simp
  | _ :: _, [], _, _ => by simp
  | json1 :: l1, json2 :: l2, ih, h2 => by
    obtain ⟨hjson, hl⟩ := List.forall_mem_cons.mp ih
    obtain ⟨hjson2, hl2⟩ := List.forall_mem_cons.mp h2
    rw [List.forall₂_cons, List.map_cons, List.map_cons, List.cons.injEq, hjson json2 hjson2,
      jsonEquals_list_iff V hl hl2]

/-- The constructor of a tree. -/
def kindOf : Json Num → Nat
  | .object _ => 0
  | .list _ => 1
  | .string _ => 2
  | .number _ => 3
  | .boolean _ => 4
  | .null => 5

def JsonValue.kindOf : JsonValue ν → Nat
  | .object _ => 0
  | .list _ => 1
  | .string _ => 2
  | .number _ => 3
  | .boolean _ => 4
  | .null => 5

theorem kindOf_value (V : NumberValues Num ν) (json : Json Num) :
    (value V json).kindOf = kindOf json := by
  cases json <;> rw [value] <;> rfl

theorem jsonEquals_of_kind {json1 json2 : Json Num} (h : kindOf json1 ≠ kindOf json2) :
    jsonEquals json1 json2 = false := by
  cases json1 <;> cases json2 <;> first | exact absurd rfl h | simp [jsonEquals]

/-- Trees of different kinds are different, and so are their values. -/
theorem jsonEquals_iff_of_kind (V : NumberValues Num ν) {json1 json2 : Json Num}
    (h : kindOf json1 = kindOf json2 →
      (jsonEquals json1 json2 = true ↔ value V json1 = value V json2)) :
    jsonEquals json1 json2 = true ↔ value V json1 = value V json2 := by
  by_cases hkind : kindOf json1 = kindOf json2
  · exact h hkind
  · refine iff_of_false (Bool.eq_false_iff.mp (jsonEquals_of_kind hkind)) fun heq => ?_
    exact hkind (by rw [← kindOf_value V, heq, kindOf_value V])

/-- **`json_equals` decides whether two trees stand for one value.** -/
theorem jsonEquals_iff (V : NumberValues Num ν) {json1 json2 : Json Num} (h1 : Comparable V json1)
    (h2 : Comparable V json2) :
    jsonEquals json1 json2 = true ↔ value V json1 = value V json2 := by
  induction h1 generalizing json2 with
  | @object hm hinv hhash heq hkeys hvalues ih =>
    refine jsonEquals_iff_of_kind V fun hkind => ?_
    cases json2 with
    | object hm2 =>
      exact jsonEquals_object_iff V (.object hinv hhash heq hkeys hvalues) h2
        fun kv hkv json2 h2 => ih kv hkv h2
    | _ => cases hkind
  | @list l hl ih =>
    refine jsonEquals_iff_of_kind V fun hkind => ?_
    cases json2 with
    | list l2 =>
      cases h2 with
      | list hl2 =>
        rw [jsonEquals_list, value_list, value_list, JsonValue.list.injEq]
        exact jsonEquals_list_iff V (fun json1 hjson1 json2 h2 => ih json1 hjson1 h2) hl2
    | _ => cases hkind
  | @string s hs =>
    refine jsonEquals_iff_of_kind V fun hkind => ?_
    cases json2 with
    | string s2 =>
      cases h2 with
      | string hs2 =>
        rw [jsonEquals, value, value, JsonValue.string.injEq]
        exact sEquals_iff_of_notMem hs hs2
    | _ => cases hkind
  | @number n hn =>
    refine jsonEquals_iff_of_kind V fun hkind => ?_
    cases json2 with
    | number n2 =>
      cases h2 with
      | number hn2 =>
        obtain ⟨v, hv⟩ := Option.isSome_iff_exists.mp hn
        obtain ⟨v2, hv2⟩ := Option.isSome_iff_exists.mp hn2
        rw [jsonEquals, value, value, JsonValue.number.injEq, hv, hv2, Option.some.injEq]
        exact V.beq_iff n n2 v v2 hv hv2
    | _ => cases hkind
  | @boolean b =>
    refine jsonEquals_iff_of_kind V fun hkind => ?_
    cases json2 with
    | boolean b2 =>
      rw [jsonEquals, value, value, JsonValue.boolean.injEq]
      exact beq_iff_eq
    | _ => cases hkind
  | null =>
    refine jsonEquals_iff_of_kind V fun hkind => ?_
    cases json2 with
    | null =>
      rw [jsonEquals, value]
      exact iff_of_true rfl rfl
    | _ => cases hkind

/-! ### Two ways to one object -/

/-- Whole numbers, without a NaN. -/
def natValues : NumberValues Nat Nat where
  value := some
  beq_iff n n' v v' hv hv' := by
    cases hv
    cases hv'
    exact beq_iff_eq

/-- One order of insertion, and the other one with a removal. -/
def insertOps : List (MapOp Bytes (Json Nat)) × List (MapOp Bytes (Json Nat)) :=
  ([.put [0x61] (.number 1), .put [0x62] .null],
    [.put [0x62] .null, .put [0x63] (.list []), .remove [0x63], .put [0x61] (.number 1)])

theorem jsonEquals_iff_insertOps :
    jsonEquals (.object (stateAfter hmStep newObject insertOps.1))
        (.object (stateAfter hmStep newObject insertOps.2)) = true ↔
      value natValues (.object (stateAfter hmStep newObject insertOps.1))
        = value natValues (.object (stateAfter hmStep newObject insertOps.2)) := by
  have hcomparable : ∀ ops ∈ [insertOps.1, insertOps.2],
      Comparable natValues (.object (stateAfter hmStep newObject ops)) := by
    intro ops hops
    obtain ⟨hinv, hhash, heq⟩ := stateAfter_newObject ops
    simp only [List.mem_cons, List.not_mem_nil, or_false] at hops
    refine .object hinv hhash heq ?_ ?_
    · rcases hops with rfl | rfl <;> decide +kernel
    · rcases hops with rfl | rfl
      · show ∀ kv ∈ [KeyVal.mk _ _ _, KeyVal.mk _ _ _], _
        simp only [List.forall_mem_cons]
        exact ⟨.number rfl, .null, by simp⟩
      · show ∀ kv ∈ [KeyVal.mk _ _ _, KeyVal.mk _ _ _], _
        simp only [List.forall_mem_cons]
        exact ⟨.number rfl, .null, by simp⟩
  exact jsonEquals_iff natValues (hcomparable _ (by simp)) (hcomparable _ (by simp))

end Chlibs.Chjson

import Chlibs.Rpc.Endpoint
import Chlibs.Util.Stream

/-!
# JSON trees

`json.c`, and the comparison of `json_helpers.c`. A `double` is any type with a test for
equality. The keys of an object are strings, hashed up to their length and compared up to their
first NUL.

* `jsonEquals` — maps are compared by lookup, lists by position.
-/

namespace Chlibs.Chjson

open Infra Util

/-- `json_t` -/
inductive Json (Num : Type) where
  | object (hm : HashMap Bytes (Json Num))
  | list (l : List (Json Num))
  | string (s : Bytes)
  | number (n : Num)
  | boolean (b : Bool)
  | null

/-- `CHJSON_NUMBER_MAX_STR_WIDTH` -/
def numberMaxStrWidth : Nat := 26

/-! ## Keys -/

def sEquals (s1 s2 : Bytes) : Bool := cString s1 == cString s2

/-- Every character counts, also behind a NUL. -/
def sHash (s : Bytes) : UInt32 := s.foldl (fun hashVal c => hashVal * 31 + Rpc.widenChar c) 23

/-- On strings without a NUL, such as the names of endpoints, the two functions agree. -/
theorem sEquals_chars (s1 s2 : Serial.CString) :
    Rpc.sEquals s1 s2 = sEquals s1.chars s2.chars ∧ Rpc.sHash s1 = sHash s1.chars := by
  rw [Rpc.sEquals, Rpc.cString_block, Rpc.cString_block, sEquals, cString_of_notMem s1.noNul,
    cString_of_notMem s2.noNul]
  exact ⟨rfl, rfl⟩

variable {Num : Type}

/-- The map of `new_json_object`. -/
def newObject : HashMap Bytes (Json Num) := newHashMap sHash sEquals

/-! ## Sizes -/

theorem sizeOf_value_lt {hm : HashMap Bytes (Json Num)} {kv : KeyVal Bytes (Json Num)}
    (h : kv ∈ hmKvps hm) : sizeOf kv.value < sizeOf (Json.object hm) := by
  obtain ⟨chain, hchain, hkv⟩ := List.mem_flatten.mp h
  have h1 := List.sizeOf_lt_of_mem hchain
  have h2 := List.sizeOf_lt_of_mem hkv
  cases hm
  cases kv
  simp only [Json.object.sizeOf_spec, HashMap.mk.sizeOf_spec, KeyVal.mk.sizeOf_spec] at *
  omega

theorem sizeOf_element_lt {l : List (Json Num)} {json : Json Num} (h : json ∈ l) :
    sizeOf json < sizeOf (Json.list l) := by
  have h1 := List.sizeOf_lt_of_mem h
  simp only [Json.list.sizeOf_spec]
  omega

/-! ## Equality -/

/-- `json_equals`: maps are compared as `hm_equals` does, lists as `l_equals` does. -/
def jsonEquals [BEq Num] : Json Num → Json Num → Bool
  | .object hm1, .object hm2 =>
    hmNumKeys hm1 == hmNumKeys hm2 &&
      (hmKvps hm1).attach.all fun kv =>
        match hmGet hm2 kv.1.key with
        | some hm2Val => jsonEquals kv.1.value hm2Val
        | none => false
  | .list l1, .list l2 =>
    l1.length == l2.length && (l1.attach.zip l2).all fun (json1, json2) => jsonEquals json1.1 json2
  | .string s1, .string s2 => sEquals s1 s2
  | .number n1, .number n2 => n1 == n2
  | .boolean b1, .boolean b2 => b1 == b2
  | .null, .null => true
  | _, _ => false
termination_by json1 => sizeOf json1
decreasing_by
  · exact sizeOf_value_lt kv.2
  · exact sizeOf_element_lt json1.2

section Equality

variable [BEq Num]

theorem jsonEquals_object {hm1 hm2 : HashMap Bytes (Json Num)} :
    jsonEquals (.object hm1) (.object hm2) = true ↔ hmNumKeys hm1 = hmNumKeys hm2 ∧
      ∀ kv ∈ hmKvps hm1, ∃ v, hmGet hm2 kv.key = some v ∧ jsonEquals kv.value v = true := by
  rw [jsonEquals, Bool.and_eq_true, beq_iff_eq, List.all_eq_true]
  refine and_congr_right fun _ => ?_
  constructor
  · intro h kv hkv
    have hmatch := h ⟨kv, hkv⟩ (List.mem_attach _ _)
    cases hget : hmGet hm2 kv.key with
    | none =>
      simp only [hget] at hmatch
      cases hmatch
    | some v =>
      simp only [hget] at hmatch
      exact ⟨v, rfl, hmatch⟩
  · rintro h ⟨kv, hkv⟩ -
    obtain ⟨v, hget, heq⟩ := h kv hkv
    simp only [hget]
    exact heq

theorem jsonEquals_list {l1 l2 : List (Json Num)} :
    jsonEquals (.list l1) (.list l2) = true ↔
      List.Forall₂ (fun json1 json2 => jsonEquals json1 json2 = true) l1 l2 := by
  rw [jsonEquals, Bool.and_eq_true, beq_iff_eq, List.all_eq_true, List.forall₂_iff_zip]
  have hzip : (l1.attach.zip l2).map (Prod.map Subtype.val id) = l1.zip l2 := by
    rw [← List.zip_map_left, List.attach_map_subtype_val]
  refine and_congr_right fun _ => ?_
  constructor
  · intro h json1 json2 hmem
    rw [← hzip] at hmem
    obtain ⟨⟨⟨x, hx⟩, y⟩, hpair, heq⟩ := List.mem_map.mp hmem
    cases heq
    exact h _ hpair
  · rintro h ⟨⟨json1, hmem⟩, json2⟩ hpair
    have hmap := List.mem_map_of_mem (f := Prod.map Subtype.val id) hpair
    rw [hzip] at hmap
    exact h hmap

end Equality

end Chlibs.Chjson

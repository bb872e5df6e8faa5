import Chlibs.Serial.Construct
import Chlibs.Util.Map

/-!
# Endpoints

Endpoints and the set that a server looks them up in by name (`rpc_server.c`, with the
string keys of `string.c`).

* `chrpcEndpointSetLookup_eq` — a lookup finds the endpoint of that name, if the set has one.
-/

namespace Chlibs.Rpc

open Infra Serial Util

/-! ## Names -/

/-- `s_get_char` yields a `char`, which is signed and is widened before it is added. -/
def widenChar (c : UInt8) : UInt32 := c.toInt8.toInt32.toUInt32

def sHash (s : CString) : UInt32 :=
  s.chars.foldl (fun hashVal c => hashVal * 31 + widenChar c) 23

/-- `strcmp(s1, s2) == 0` -/
def sEquals (s1 s2 : CString) : Bool := cString s1.block == cString s2.block

/-- The string that a `char *` points to: empty for `NULL`, undefined without a NUL. -/
def newStringFromLiteral (literal : Bytes) : Option CString :=
  if literal = [] then some ⟨[], by simp⟩
  else if (0 : UInt8) ∈ literal then some ⟨cString literal, zero_notMem_cString literal⟩
  else none

theorem CString.ext {s t : CString} (h : s.chars = t.chars) : s = t := by
  cases s
  cases t
  cases h
  rfl

@[simp] theorem cString_block (s : CString) : cString s.block = s.chars :=
  cString_append_zero s.noNul []

/-- `s_equals` is equality of strings. -/
theorem sEquals_iff (s1 s2 : CString) : sEquals s1 s2 = true ↔ s1 = s2 := by
  simp only [sEquals, cString_block, beq_iff_eq]
  exact ⟨CString.ext, fun h => by rw [h]⟩

theorem sEquals_equivalence : Equivalence fun s1 s2 => sEquals s1 s2 = true := by
  simp only [sEquals_iff]
  exact eq_equivalence

/-! ## Endpoints -/

def chrpcEndpointMaxArgs : Nat := 10
def chrpcEndpointSetMaxSize : Nat := 300

/-- `chrpc_endpoint_t`, less the function: `ret` is `none` for a void endpoint, and the
number of arguments is within the limit that the constructor enforces. -/
structure Endpoint where
  name : CString
  ret : Option ChrpcType
  args : List ChrpcType
  args_length : args.length ≤ chrpcEndpointMaxArgs

/-- `NULL` for more than 10 arguments. -/
def newChrpcEndpoint (n : CString) (rt : Option ChrpcType) (args : List ChrpcType) :
    Option Endpoint :=
  if h : args.length ≤ chrpcEndpointMaxArgs then some ⟨n, rt, args, h⟩ else none

/-- `chrpc_endpoint_set_t` -/
structure EndpointSet where
  nameMap : HashMap CString Endpoint
  endpoints : List Endpoint

/-- Put the endpoints into the map. `none` when a name is taken. -/
def putEndpoints : List Endpoint → HashMap CString Endpoint → Option (HashMap CString Endpoint)
  | [], hm => some hm
  | ep :: eps, hm =>
    if hmContains hm ep.name then none else putEndpoints eps (hmPut hm ep.name ep)

/-- `NULL` unless there are 1 to 300 endpoints with distinct names. -/
def newChrpcEndpointSet (eps : List Endpoint) : Option EndpointSet :=
  if eps.length < 1 ∨ chrpcEndpointSetMaxSize < eps.length then none
  else
    match putEndpoints eps (newHashMap sHash sEquals) with
    | some hm => some ⟨hm, eps⟩
    | none => none

/-- `none` if the name has no end. -/
def chrpcEndpointSetLookup (epSet : EndpointSet) (name : Bytes) : Option (Option Endpoint) :=
  (newStringFromLiteral name).map (hmGet epSet.nameMap)

/-! ## Lookup -/

/-- A set as the constructor makes it: names are distinct, and the map holds the endpoints. -/
structure EndpointSet.WellFormed (epSet : EndpointSet) : Prop where
  distinct : (epSet.endpoints.map Endpoint.name).Nodup
  inv : epSet.nameMap.Inv
  binds : ∀ n ep, Binds epSet.nameMap n ep ↔ ep ∈ epSet.endpoints ∧ ep.name = n

theorem putEndpoints_spec : ∀ (eps done : List Endpoint) {hm hm' : HashMap CString Endpoint},
    hm.Inv → (∀ a b, hm.SameKey a b ↔ a = b) → (done.map Endpoint.name).Nodup →
    (∀ n ep, Binds hm n ep ↔ ep ∈ done ∧ ep.name = n) → putEndpoints eps hm = some hm' →
    EndpointSet.WellFormed ⟨hm', done ++ eps⟩
  | [], done, hm, hm', hinv, _, hnodup, hbinds, h => by
    cases h
    simpa using (⟨hnodup, hinv, hbinds⟩ : EndpointSet.WellFormed ⟨hm, done⟩)
  | ep :: eps, done, hm, hm', hinv, hkeys, hnodup, hbinds, h => by
    rw [putEndpoints] at h
    split at h
    · simp at h
    · next hfree =>
      have hnone : hmGet hm ep.name = none := by simpa [hmContains] using hfree
      have hnew : ∀ x ∈ done, x.name ≠ ep.name := fun x hx he =>
        (hmGet_eq_none hinv ep.name).mp hnone x ((hbinds _ _).mpr ⟨hx, he⟩)
      obtain ⟨hinv', hsame, hput⟩ := hmPut_spec hinv ep.name ep
      have hih := putEndpoints_spec eps (done ++ [ep]) hinv' (by rwa [hsame]) ?_ ?_ h
      · simpa using hih
      · rw [List.map_append, List.nodup_append]
        refine ⟨hnodup, by simp, ?_⟩
        rintro n hn m hm' rfl
        obtain ⟨x, hx, rfl⟩ := List.mem_map.mp hn
        exact hnew x hx (by simpa using hm')
      · intro n x
        rw [hput, hbinds, hkeys]
        constructor
        · rintro (⟨rfl, rfl⟩ | ⟨-, hx, rfl⟩)
          · exact ⟨by simp, rfl⟩
          · exact ⟨List.mem_append_left _ hx, rfl⟩
        · rintro ⟨hx, rfl⟩
          rcases List.mem_append.mp hx with hx | hx
          · exact Or.inr ⟨fun he => hnew x hx he.symm, hx, rfl⟩
          · rw [List.mem_singleton.mp hx]
            exact Or.inl ⟨rfl, rfl⟩

/-- **The constructor makes well-formed sets of the endpoints it is given.** -/
theorem newChrpcEndpointSet_wellFormed {eps : List Endpoint} {epSet : EndpointSet}
    (h : newChrpcEndpointSet eps = some epSet) : epSet.WellFormed ∧ epSet.endpoints = eps := by
  unfold newChrpcEndpointSet at h
  split at h
  · simp at h
  · split at h
    · next hm hput =>
      cases h
      refine ⟨?_, rfl⟩
      refine putEndpoints_spec eps [] (newHashMap_inv sEquals_equivalence) (fun a b => ?_) (by simp)
        (by simp [not_binds_newHashMap]) hput
      exact ⟨fun hab => (sEquals_iff a b).mp hab.2, by
        rintro rfl
        exact ⟨rfl, (sEquals_iff a a).mpr rfl⟩⟩
    · simp at h

/-- **A lookup finds the endpoint of that name, and only if the set has one.** -/
theorem hmGet_nameMap_eq_some {epSet : EndpointSet} (h : epSet.WellFormed) (n : CString)
    (ep : Endpoint) : hmGet epSet.nameMap n = some ep ↔ ep ∈ epSet.endpoints ∧ ep.name = n := by
  rw [hmGet_eq_some h.inv, h.binds]

theorem hmGet_nameMap_eq_none {epSet : EndpointSet} (h : epSet.WellFormed) (n : CString) :
    hmGet epSet.nameMap n = none ↔ ∀ ep ∈ epSet.endpoints, ep.name ≠ n := by
  rw [hmGet_eq_none h.inv]
  simp only [h.binds, not_and, ne_eq]

/-- A name that ends is looked up as the string in front of its end. -/
theorem chrpcEndpointSetLookup_eq (epSet : EndpointSet) {name : Bytes} (h : (0 : UInt8) ∈ name) :
    chrpcEndpointSetLookup epSet name
      = some (hmGet epSet.nameMap ⟨cString name, zero_notMem_cString name⟩) := by
  rw [chrpcEndpointSetLookup, newStringFromLiteral, if_neg (List.ne_nil_of_mem h), if_pos h]
  rfl

theorem chrpcEndpointSetLookup_of_mem {epSet : EndpointSet} (h : epSet.WellFormed) {name : Bytes}
    (hnul : (0 : UInt8) ∈ name) {ep : Endpoint} (hep : ep ∈ epSet.endpoints)
    (hname : cString name = ep.name.chars) : chrpcEndpointSetLookup epSet name = some (some ep) := by
  rw [chrpcEndpointSetLookup_eq epSet hnul]
  exact congrArg some ((hmGet_nameMap_eq_some h _ ep).mpr ⟨hep, CString.ext hname.symm⟩)

theorem chrpcEndpointSetLookup_of_notMem {epSet : EndpointSet} (h : epSet.WellFormed)
    {name : Bytes} (hnul : (0 : UInt8) ∈ name)
    (hname : ∀ ep ∈ epSet.endpoints, cString name ≠ ep.name.chars) :
    chrpcEndpointSetLookup epSet name = some none := by
  rw [chrpcEndpointSetLookup_eq epSet hnul]
  refine congrArg some ((hmGet_nameMap_eq_none h _).mpr fun ep hep he => hname ep hep ?_)
  rw [he]

end Chlibs.Rpc

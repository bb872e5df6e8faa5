import Chlibs.Json.Denotation
import Chlibs.Json.Equality
import Chlibs.Json.Escapes
import Chlibs.Util.StringSubstring

/-!
# Equal strings and their hashes

`s_equals` compares the characters up to the first NUL, `s_hash` runs over all of them. The two
agree on strings without a NUL. Nothing puts one into a string but `s_append_char` and `s_set_char`
with that character, and the parser where it reads an escape of it.

* `sEqualsAt_eq`, `sHashAt_eq` — the two functions on strings in memory.
* `plain_values` — what runs keep true in which no NUL is written.
* `KeysAgree`, `AgreesOnKeys` — no two keys of an object are equal, and a value is found under every
  string that is equal to its key.
* `equal_strings_hash_alike` — strings and objects that come about without a NUL.
-/

namespace Chlibs.Chjson

open Infra Util

variable {Num : Type} {m : StringMem} {s s1 s2 : Nat} {w w1 w2 : Bytes}

/-! ## Strings in memory -/

/-- `s_equals`: `strcmp` -/
def sEqualsAt (m : StringMem) (s1 s2 : Nat) : Option Bool := do
  let cstr1 ← m.cstr (← sGetCstr m s1)
  let cstr2 ← m.cstr (← sGetCstr m s2)
  some (cstr1 == cstr2)

/-- The loop from `i` on, with so many characters left. -/
def sHashLoop (m : StringMem) (s : Nat) : Nat → Nat → UInt32 → Option UInt32
  | 0, _, hashVal => some hashVal
  | left + 1, i, hashVal => do
    let c ← sGetChar m s i
    sHashLoop m s left (i + 1) (hashVal * 31 + Rpc.widenChar c)

/-- `s_hash` -/
def sHashAt (m : StringMem) (s : Nat) : Option UInt32 := do
  let len ← sLen m s
  sHashLoop m s len 0 23

theorem sEqualsAt_eq {x1 x2 : StringT} (h1 : m.strings.load s1 = some x1) (hx1 : HasText m x1 w1)
    (h2 : m.strings.load s2 = some x2) (hx2 : HasText m x2 w2) :
    sEqualsAt m s1 s2 = some (sEquals w1 w2) := by
  obtain ⟨p1, hp1, hcstr1⟩ := cstr_sGetCstr h1 hx1
  obtain ⟨p2, hp2, hcstr2⟩ := cstr_sGetCstr h2 hx2
  simp only [sEqualsAt, hp1, hcstr1, hp2, hcstr2, Option.bind_eq_bind, Option.bind_some]
  rfl

theorem sHashLoop_eq {x : StringT} (h : m.strings.load s = some x) (hx : HasText m x w) :
    ∀ (rest done : Bytes) (hashVal : UInt32), w = done ++ rest →
      sHashLoop m s rest.length done.length hashVal
        = some (rest.foldl (fun hashVal c => hashVal * 31 + Rpc.widenChar c) hashVal)
  | [], _, _, _ => rfl
  | c :: rest, done, hashVal, hw => by
    have hi : done.length < w.length := by simp [hw]
    have hchar : sGetChar m s done.length = some c := by
      rw [sGetChar_eq h hx hi]
      simp [hw]
    have hrest := sHashLoop_eq h hx rest (done ++ [c]) (hashVal * 31 + Rpc.widenChar c) (by simp [hw])
    rw [List.length_append, List.length_singleton] at hrest
    simp only [List.length_cons, sHashLoop, hchar, Option.bind_eq_bind, Option.bind_some, hrest,
      List.foldl_cons]

theorem sHashAt_eq {x : StringT} (h : m.strings.load s = some x) (hx : HasText m x w) :
    sHashAt m s = some (sHash w) := by
  simp only [sHashAt, sLen_eq h hx, Option.bind_eq_bind, Option.bind_some]
  exact sHashLoop_eq h hx w [] 23 rfl

/-! ## Runs without a NUL -/

/-- The operation writes no NUL behind or into a string. -/
def PlainOp : ApiOp → Prop
  | .op (.sAppendChar _ c) => c ≠ 0
  | .op (.sSetChar _ _ c) => c ≠ 0
  | _ => True

/-- No string has a NUL in it. -/
def PlainValues (σ : Strings) : Prop := ∀ s w, σ.values s = some w → (0 : UInt8) ∉ w

theorem PlainValues.update {σ : Strings} (h : PlainValues σ) {v : Option Bytes}
    (hv : ∀ w, v = some w → (0 : UInt8) ∉ w) {mem : StringMem} {s : Nat} :
    PlainValues { σ with mem := mem, values := Function.update σ.values s v } := by
  intro s' w hw
  by_cases hs : s' = s
  · subst hs
    exact hv w ((Function.update_self s' v σ.values).symm.trans hw)
  · exact h s' w ((Function.update_of_ne hs v σ.values).symm.trans hw)

/-- A text that is read as C text has no NUL. -/
theorem zero_notMem_cstr {p : CharPtr} {t : Bytes} (h : m.cstr p = some t) : (0 : UInt8) ∉ t := by
  obtain ⟨block, -, hcstr⟩ := Option.bind_eq_some_iff.mp h
  exact Chars.cstr_ne_zero hcstr

/-- What an operation makes or changes, if it writes no NUL. -/
theorem PlainValues.value {σ : Strings} (h : PlainValues σ) {op : StringOp} (hop : PlainOp (.op op)) :
    ∀ w, op.value σ = some w → (0 : UInt8) ∉ w := by
  intro w hw
  cases op with
  | newString =>
    cases hw
    exact List.not_mem_nil
  | newStringFromCstr cstr =>
    cases cstr with
    | none =>
      cases hw
      exact List.not_mem_nil
    | some p => exact zero_notMem_cstr hw
  | newStringFromLiteral literal =>
    cases literal with
    | none =>
      cases hw
      exact List.not_mem_nil
    | some p => exact zero_notMem_cstr hw
  | sCopy s => exact h s w hw
  | sAppendChar s c =>
    obtain ⟨v, hv, rfl⟩ := Option.map_eq_some_iff.mp hw
    -- By `PlainOp` the character is no NUL.
    have hc : (0 : UInt8) ≠ c := fun h0 => hop h0.symm
    simp [h s v hv, hc]
  | sAppendCstr s addition =>
    obtain ⟨v, hv, hrest⟩ := Option.bind_eq_some_iff.mp hw
    obtain ⟨t, ht, hsum⟩ := Option.bind_eq_some_iff.mp hrest
    cases hsum
    simp [h s v hv, zero_notMem_cstr ht]
  | sAppendString s addition =>
    obtain ⟨v, hv, hrest⟩ := Option.bind_eq_some_iff.mp hw
    obtain ⟨t, ht, hsum⟩ := Option.bind_eq_some_iff.mp hrest
    cases hsum
    rw [cString_of_notMem (h addition t ht)]
    simp [h s v hv, h addition t ht]
  | sSetChar s i c =>
    obtain ⟨v, hv, rfl⟩ := Option.map_eq_some_iff.mp hw
    intro hmem
    rcases List.mem_or_eq_of_mem_set hmem with hmem | h0
    · exact h s v hv hmem
    · exact hop h0.symm
  | deleteString s => cases hw

/-- **No run that writes no NUL makes a string with one.** -/
theorem plain_values {σ : Strings} (hσ : (stringApi PlainOp).Reachable σ) : PlainValues σ := by
  induction hσ with
  | init h0 =>
    cases h0
    intro s w hw
    cases hw
  | step hσ hstep ih =>
    obtain ⟨op, hop, hstep⟩ := hstep
    cases hstep with
    | text bs => exact ih
    | op hallowed hexec => exact ih.update (ih.value hop)
    | @sSubstring s start fin s' w m hs hexec =>
      refine ih.update ?_
      rintro _ ⟨⟩ hmem
      exact ih s w hs (List.mem_of_mem_take hmem)

/-! ## Objects -/

/-- `json_lookup_key` -/
def jsonLookupKey (json : Json Num) (key : Bytes) : Option (Json Num) :=
  match json with
  | .object hm => hmGet hm key
  | _ => none

/-- No two keys are equal, and under every key of `K` that is equal to a stored one its value is. -/
structure KeysAgree (K : Bytes → Prop) (hm : HashMap Bytes (Json Num)) : Prop where
  distinct : (hmKvps hm).Pairwise fun kv kv' => sEquals kv.key kv'.key = false
  found : ∀ kv ∈ hmKvps hm, ∀ key, K key → sEquals kv.key key = true →
    jsonLookupKey (.object hm) key = some kv.value

/-- The keys agree in every object of a tree. -/
inductive AgreesOnKeys (K : Bytes → Prop) : Json Num → Prop
  | object {hm} : KeysAgree K hm → (∀ kv ∈ hmKvps hm, AgreesOnKeys K kv.value) →
    AgreesOnKeys K (.object hm)
  | list {l} : (∀ json ∈ l, AgreesOnKeys K json) → AgreesOnKeys K (.list l)
  | string {str} : AgreesOnKeys K (.string str)
  | number {n} : AgreesOnKeys K (.number n)
  | boolean {b} : AgreesOnKeys K (.boolean b)
  | null : AgreesOnKeys K .null

/-- Equal strings have one hash, if neither has a NUL. -/
theorem sHash_eq_of_sEquals (h1 : (0 : UInt8) ∉ w1) (h2 : (0 : UInt8) ∉ w2)
    (heq : sEquals w1 w2 = true) : sHash w1 = sHash w2 := by
  rw [(sEquals_iff_of_notMem h1 h2).mp heq]

/-- The keys and the values that puts and removals leave are from the puts. -/
theorem mem_kvps_stateAfter (ops : List (MapOp Bytes (Json Num))) :
    ∀ kv ∈ hmKvps (stateAfter hmStep newObject ops),
      (∃ value, MapOp.put kv.key value ∈ ops) ∧ ∃ key, MapOp.put key kv.value ∈ ops := by
  induction ops using List.reverseRecOn with
  | nil =>
    intro kv hkv
    rw [stateAfter, List.foldl_nil, newObject, hmKvps_newHashMap] at hkv
    cases hkv
  | append_singleton ops op ih =>
    intro kv hkv
    rw [stateAfter_append] at hkv
    obtain ⟨hinv, -, -⟩ := stateAfter_newObject ops
    have hold : ∀ kv ∈ hmKvps (stateAfter hmStep newObject ops),
        (∃ value, MapOp.put kv.key value ∈ ops ++ [op]) ∧
          ∃ key, MapOp.put key kv.value ∈ ops ++ [op] := by
      intro kv hkv
      obtain ⟨⟨value, hvalue⟩, key, hkey⟩ := ih kv hkv
      exact ⟨⟨value, List.mem_append_left _ hvalue⟩, key, List.mem_append_left _ hkey⟩
    cases op with
    | put key value =>
      have hnew : MapOp.put key value ∈ ops ++ [MapOp.put key value] := by simp
      obtain ⟨-, -, hstep⟩ := hmPut_step hinv key value
      rcases hstep with ⟨first, rest, -, hperm, hperm'⟩ | ⟨-, hperm'⟩
      · -- the key was there, with another value
        rcases List.mem_cons.mp (hperm'.mem_iff.mp hkv) with rfl | hrest
        · exact ⟨(hold first (hperm.mem_iff.mpr List.mem_cons_self)).1, key, hnew⟩
        · exact hold kv (hperm.mem_iff.mpr (List.mem_cons_of_mem _ hrest))
      · rcases List.mem_cons.mp (hperm'.mem_iff.mp hkv) with rfl | hrest
        · exact ⟨⟨value, hnew⟩, key, hnew⟩
        · exact hold kv hrest
    | remove key =>
      obtain ⟨-, -, hstep⟩ := hmRemove_step hinv key
      rcases hstep with ⟨-, first, rest, -, hperm, hperm'⟩ | ⟨-, hsame, -⟩
      · exact hold kv (hperm.mem_iff.mpr (List.mem_cons_of_mem _ (hperm'.mem_iff.mp hkv)))
      · refine hold kv ?_
        rw [← hsame]
        exact hkv
    | get key => exact hold kv hkv
    | contains key => exact hold kv hkv
    | numKeys => exact hold kv hkv

/-- **Keys without a NUL agree**, whatever calls an object is made with. -/
theorem keysAgree_stateAfter {K : Bytes → Prop} (hK : ∀ key, K key → (0 : UInt8) ∉ key)
    (ops : List (MapOp Bytes (Json Num)))
    (hops : ∀ key value, MapOp.put key value ∈ ops → (0 : UInt8) ∉ key) :
    KeysAgree K (stateAfter hmStep newObject ops) := by
  obtain ⟨hinv, hhash, heq⟩ := stateAfter_newObject ops
  have hkeys : ∀ kv ∈ hmKvps (stateAfter hmStep newObject ops), (0 : UInt8) ∉ kv.key := by
    intro kv hkv
    obtain ⟨⟨value, hput⟩, -⟩ := mem_kvps_stateAfter ops kv hkv
    exact hops _ value hput
  have hsame : ∀ {a b : Bytes}, (0 : UInt8) ∉ a → (0 : UInt8) ∉ b → sEquals a b = true →
      (stateAfter hmStep newObject ops).SameKey a b := by
    intro a b ha hb hab
    rw [HashMap.SameKey, hhash, heq]
    exact ⟨sHash_eq_of_sEquals ha hb hab, hab⟩
  constructor
  · refine (List.Pairwise.imp_of_mem ?_ hinv.distinct)
    intro kv kv' hkv hkv' hne
    exact Bool.eq_false_iff.mpr fun hab => hne (hsame (hkeys kv hkv) (hkeys kv' hkv') hab)
  · intro kv hkv key hkey hab
    exact (hmGet_eq_some hinv key kv.value).mpr ⟨kv, hkv, hsame (hkeys kv hkv) (hK key hkey) hab, rfl⟩

/-! ## Parsed trees -/

/-- A key or a string of a tree. -/
inductive HasString : Json Num → Bytes → Prop
  | key {hm kv} : kv ∈ hmKvps hm → HasString (.object hm) kv.key
  | value {hm kv str} : kv ∈ hmKvps hm → HasString kv.value str → HasString (.object hm) str
  | element {l json str} : json ∈ l → HasString json str → HasString (.list l) str
  | string {str} : HasString (.string str) str

/-- The members of a text are put in one by one. -/
theorem foldl_putMember_ops (members : List (Bytes × JsonText Num)) :
    members.foldl putMember newObject
      = stateAfter hmStep newObject (members.map fun m => MapOp.put m.1 (build m.2)) := by
  rw [stateAfter, List.foldl_map]
  rfl

/-- **The tree of a text without a NUL.** -/
theorem NoNul.build {K : Bytes → Prop} (hK : ∀ key, K key → (0 : UInt8) ∉ key)
    (t : JsonText Num) : NoNul t →
      AgreesOnKeys K (build t) ∧ ∀ str, HasString (build t) str → (0 : UInt8) ∉ str := by
  induction t using JsonText.induct with
  | object members ih =>
    intro h
    cases h with | object hkeys hvalues
    rw [build_object, foldl_putMember_ops]
    -- what is in the map is a key or a value of a member
    have hmem := mem_kvps_stateAfter (members.map fun m => MapOp.put m.1 (Chjson.build m.2))
    have hkey : ∀ key value, MapOp.put key value ∈
        (members.map fun m => MapOp.put m.1 (Chjson.build m.2)) → (0 : UInt8) ∉ key := by
      intro key value hput
      obtain ⟨m, hm, heq⟩ := List.mem_map.mp hput
      cases heq
      exact hkeys m hm
    have hvalue : ∀ kv ∈ hmKvps (stateAfter hmStep newObject
        (members.map fun m => MapOp.put m.1 (Chjson.build m.2))),
        ∃ m ∈ members, kv.value = Chjson.build m.2 := by
      intro kv hkv
      obtain ⟨-, key, hput⟩ := hmem kv hkv
      obtain ⟨m, hm, heq⟩ := List.mem_map.mp hput
      exact ⟨m, hm, (MapOp.put.inj heq).2.symm⟩
    refine ⟨.object (keysAgree_stateAfter hK _ hkey) fun kv hkv => ?_, fun str hstr => ?_⟩
    · obtain ⟨m, hm, heq⟩ := hvalue kv hkv
      rw [heq]
      exact (ih m hm (hvalues m hm)).1
    · cases hstr with
      | key hkv =>
        obtain ⟨⟨value, hput⟩, -⟩ := hmem _ hkv
        exact hkey _ value hput
      | value hkv hstr =>
        obtain ⟨m, hm, heq⟩ := hvalue _ hkv
        rw [heq] at hstr
        exact (ih m hm (hvalues m hm)).2 str hstr
  | list elements ih =>
    intro h
    cases h with | list helements
    rw [build_list]
    refine ⟨.list ?_, ?_⟩
    · intro json hjson
      obtain ⟨t, ht, rfl⟩ := List.mem_map.mp hjson
      exact (ih t ht (helements t ht)).1
    · rintro str (_ | _ | ⟨hjson, hstr⟩ | _)
      obtain ⟨t, ht, rfl⟩ := List.mem_map.mp hjson
      exact (ih t ht (helements t ht)).2 str hstr
  | string str =>
    intro h
    cases h with | string hstr
    rw [Chjson.build]
    refine ⟨.string, ?_⟩
    rintro _ ⟨⟩
    exact hstr
  | number n =>
    intro _
    rw [Chjson.build]
    exact ⟨.number, by rintro _ ⟨⟩⟩
  | boolean b =>
    intro _
    rw [Chjson.build]
    exact ⟨.boolean, by rintro _ ⟨⟩⟩
  | null =>
    intro _
    rw [Chjson.build]
    exact ⟨.null, by rintro _ ⟨⟩⟩

/-! ## Strings that come about -/

/--
What a run makes that writes no NUL, and what the parser makes of a document without an escape of
one.
-/
inductive Produced (strtod : Bytes → Num × Nat) : Bytes → Prop
  | api {σ : Strings} {s : Nat} {w : Bytes} : (stringApi PlainOp).Reachable σ →
    σ.values s = some w → Produced strtod w
  | parsed {doc rest : Bytes} {json : Json Num} {str : Bytes} :
    jsonFromInStream strtod (doc ++ rest) = .ok json rest → escapesNul doc = false →
    HasString json str → Produced strtod str

/-- A document that is parsed, with no escape of a NUL. -/
theorem noNul_of_ok {strtod : Bytes → Num × Nat} {doc rest : Bytes} {json : Json Num}
    (h : jsonFromInStream strtod (doc ++ rest) = .ok json rest) (hdoc : escapesNul doc = false) :
    ∃ t, NoNul t ∧ json = build t := by
  obtain ⟨t, ht, heq⟩ := jsonFromInStream_eq_ok.mp h
  exact ⟨t, ht.escapesNul_iff.mp hdoc, heq⟩

theorem Produced.zero_notMem {strtod : Bytes → Num × Nat} {w : Bytes} (h : Produced strtod w) :
    (0 : UInt8) ∉ w := by
  cases h with
  | api hσ hw => exact plain_values hσ _ w hw
  | parsed hparse hdoc hstr =>
    obtain ⟨t, ht, rfl⟩ := noNul_of_ok hparse hdoc
    exact (ht.build (fun _ => id) t).2 w hstr

/--
**Strings that come about without a NUL have equal hashes when they are equal**, in a run of the
string functions and in what the parser makes. The keys of an object agree, whether it is made by
calls or by the parser.
-/
theorem equal_strings_hash_alike (strtod : Bytes → Num × Nat) :
    (∀ σ, (stringApi PlainOp).Reachable σ → ∀ s1 s2 w1 w2, σ.values s1 = some w1 →
      σ.values s2 = some w2 → ∃ equal hash1 hash2, sEqualsAt σ.mem s1 s2 = some equal ∧
        sHashAt σ.mem s1 = some hash1 ∧ sHashAt σ.mem s2 = some hash2 ∧
        (equal = true → hash1 = hash2)) ∧
    (∀ w1 w2, Produced strtod w1 → Produced strtod w2 → sEquals w1 w2 = true →
      sHash w1 = sHash w2) ∧
    (∀ ops : List (MapOp Bytes (Json Num)), (∀ key value, .put key value ∈ ops →
      Produced strtod key) → KeysAgree (Produced strtod) (stateAfter hmStep newObject ops)) ∧
    ∀ doc rest json, jsonFromInStream strtod (doc ++ rest) = .ok json rest →
      escapesNul doc = false → AgreesOnKeys (Produced strtod) json := by
  refine ⟨?_, ?_, ?_, ?_⟩
  · intro σ hσ s1 s2 w1 w2 hs1 hs2
    obtain ⟨-, hd⟩ := (stringApi_inductive PlainOp).reachable hσ
    obtain ⟨x1, h1, hx1⟩ := hd.load hs1
    obtain ⟨x2, h2, hx2⟩ := hd.load hs2
    exact ⟨_, _, _, sEqualsAt_eq h1 hx1 h2 hx2, sHashAt_eq h1 hx1, sHashAt_eq h2 hx2,
      sHash_eq_of_sEquals (plain_values hσ s1 w1 hs1) (plain_values hσ s2 w2 hs2)⟩
  · exact fun w1 w2 h1 h2 => sHash_eq_of_sEquals h1.zero_notMem h2.zero_notMem
  · intro ops hops
    exact keysAgree_stateAfter (fun _ => Produced.zero_notMem) ops
      fun key value hput => (hops key value hput).zero_notMem
  · intro doc rest json hparse hdoc
    obtain ⟨t, ht, rfl⟩ := noNul_of_ok hparse hdoc
    exact (ht.build (fun _ => Produced.zero_notMem) t).1

/-- `{"a":null}` -/
def plainText : Bytes := [0x7B, 0x22, 0x61, 0x22, 0x3A, 0x6E, 0x75, 0x6C, 0x6C, 0x7D]

/-- The member of `plainText`. -/
def plainMembers : List (Bytes × JsonText Nat) := [([0x61], .null)]

theorem jsonFromInStream_plainText : jsonFromInStream strtodDigits (plainText ++ [])
    = .ok (.object (plainMembers.foldl putMember newObject)) [] := by
  rw [jsonFromInStream_eq_ok]
  refine ⟨.object plainMembers, ⟨plainText, Ws.refl _, .object ?_⟩, (build_object _).symm⟩
  exact .first (Ws.refl _) (.mk (.mk (.plain (by decide) (by decide) (by decide) .quote))
    (Ws.refl _) (Ws.refl _) .nullText) (.done (Ws.refl _))

theorem equal_strings_hash_alike_plainText : escapesNul plainText = false ∧
    AgreesOnKeys (Produced strtodDigits) (.object (plainMembers.foldl putMember newObject)) :=
  ⟨by decide, (equal_strings_hash_alike strtodDigits).2.2.2 plainText [] _
    jsonFromInStream_plainText (by decide)⟩

/-- `{"":null,"\u0000":null}` -/
def nulText : Bytes :=
  [0x7B, 0x22, 0x22, 0x3A, 0x6E, 0x75, 0x6C, 0x6C, 0x2C,
    0x22, 0x5C, 0x75, 0x30, 0x30, 0x30, 0x30, 0x22, 0x3A, 0x6E, 0x75, 0x6C, 0x6C, 0x7D]

/-- The members of `nulText`. -/
def nulMembers : List (Bytes × JsonText Nat) := [([], .null), ([0x00], .null)]

theorem jsonFromInStream_nulText : jsonFromInStream strtodDigits nulText
    = .ok (.object (nulMembers.foldl putMember newObject)) [] := by
  rw [jsonFromInStream_eq_ok]
  have hzeros : ∀ x ∈ ([0x30, 0x30, 0x30, 0x30] : Bytes), isHexDigit x = true := by
    decide +kernel
  refine ⟨.object nulMembers, ⟨nulText, Ws.refl _, .object ?_⟩, (build_object _).symm⟩
  exact .first (Ws.refl _) (.mk (.mk .quote) (Ws.refl _) (Ws.refl _) .nullText)
    (.next (Ws.refl _) (Ws.refl _) (.mk (.mk (IsChars.unicode rfl hzeros .quote))
      (Ws.refl _) (Ws.refl _) .nullText) (.done (Ws.refl _)))

/--
The empty string and the string of one NUL are equal, and their hashes are not: in memory, and as
the keys of one parsed object. Under the one, nothing is found that is stored under the other.
-/
theorem equal_strings_hash_apart :
    (∃ σ, (stringApi anyOp).Reachable σ ∧ σ.values 0 = some [] ∧ σ.values 1 = some [0x00] ∧
      sEqualsAt σ.mem 0 1 = some true ∧ sHashAt σ.mem 0 = some 23 ∧
      sHashAt σ.mem 1 = some 713) ∧
    (∃ hm, jsonFromInStream strtodDigits nulText = .ok (.object hm) [] ∧
      ¬((hmKvps hm).Pairwise fun kv kv' => sEquals kv.key kv'.key = false)) ∧
    sEquals [0x00] [] = true ∧
    jsonLookupKey (.object (hmPut newObject [0x00] (.null : Json Nat))) [] = none := by
  refine ⟨?_, ⟨_, jsonFromInStream_nulText, fun h => ?_⟩, rfl, rfl⟩
  · have h₁ := (TransitionSystem.Reachable.init (S := stringApi anyOp) rfl).step
      ⟨_, trivial, @ApiStep.op _ .newString _ _ trivial rfl⟩
    have h₂ := h₁.step ⟨_, trivial, @ApiStep.op _ .newString _ _ trivial rfl⟩
    have h₃ := h₂.step ⟨_, trivial, @ApiStep.op _ (.sAppendChar 1 0x00) _ _
      (Option.some_ne_none ([] : Bytes)) rfl⟩
    exact ⟨_, h₃, rfl, rfl, rfl, rfl, rfl⟩
  · have hkeys : (hmKvps (nulMembers.foldl putMember newObject)).map KeyVal.key = [[0x00], []] := by
      decide +kernel
    have hpair : ([[0x00], []] : List Bytes).Pairwise fun a b => sEquals a b = false := by
      rw [← hkeys, List.pairwise_map]
      exact h
    exact absurd hpair (by decide)

end Chlibs.Chjson

import Chlibs.Json.Exact
import Chlibs.Util.MapPuts

/-!
# What a document denotes

The tree of a document has one pair for each different key, with the last value of that key.
The hash map of an object takes two keys for one when their hashes agree and they are equal up to
their first NUL; `\u0000` puts a NUL into a key.

* `denotes_build_iff` — when the tree that is built is the one that is denoted.
* `jsonFromInStream_exact` — the parser accepts its grammar exactly, where no keys clash.
-/

namespace Chlibs.Chjson

open Infra Util

variable {Num : Type}

/-! ## Maps of objects -/

theorem sEquals_equivalence : Equivalence fun a b : Bytes => sEquals a b = true where
  refl _ := beq_self_eq_true _
  symm h := beq_iff_eq.mpr (beq_iff_eq.mp h).symm
  trans h h' := beq_iff_eq.mpr ((beq_iff_eq.mp h).trans (beq_iff_eq.mp h'))

theorem newObject_inv : (newObject : HashMap Bytes (Json Num)).Inv :=
  newHashMap_inv sEquals_equivalence

theorem newObject_sameKey {a b : Bytes} : (newObject : HashMap Bytes (Json Num)).SameKey a b ↔
    sHash a = sHash b ∧ cString a = cString b := by
  show sHash a = sHash b ∧ sEquals a b = true ↔ _
  rw [sEquals, beq_iff_eq]

/-- The members that a text gives, in their order. -/
theorem foldl_putMember (members : List (Bytes × JsonText Num)) :
    members.foldl putMember newObject
      = (members.map fun m => (m.1, build m.2)).foldl (fun hm kv => hmPut hm kv.1 kv.2) newObject := by
  rw [List.foldl_map]
  rfl

theorem foldl_putMember_inv (members : List (Bytes × JsonText Num)) :
    (members.foldl putMember newObject).Inv := by
  rw [foldl_putMember]
  exact (foldl_hmPut_holds newObject_inv (hmKvps_newHashMap _ _) _).1

theorem foldl_putMember_sameKey (members : List (Bytes × JsonText Num)) :
    (members.foldl putMember newObject).SameKey
      = (newObject : HashMap Bytes (Json Num)).SameKey := by
  rw [foldl_putMember]
  exact (foldl_hmPut_holds newObject_inv (hmKvps_newHashMap _ _) _).2.1

theorem foldl_putMember_holds {members : List (Bytes × JsonText Num)}
    (h : (newObject : HashMap Bytes (Json Num)).TellsApart (members.map Prod.fst)) (k : Bytes)
    (v : Json Num) : Holds (members.foldl putMember newObject) k v ↔
      ∃ t, lastValue members k = some t ∧ build t = v := by
  have hholds := (foldl_hmPut_holds newObject_inv (hmKvps_newHashMap _ _)
    (members.map fun m => (m.1, build m.2))).2.2
  rw [foldl_putMember, hholds (by rw [List.map_map]; exact h), lastValue_map,
    Option.map_eq_some_iff]

/-! ## Denotation -/

/-- The tree that a text denotes: of a repeated key, the last value counts. -/
inductive Denotes : JsonText Num → Json Num → Prop
  | object {members hm} :
    (∀ k, k ∈ (hmKvps hm).map KeyVal.key ↔ k ∈ members.map Prod.fst) →
    ((hmKvps hm).map KeyVal.key).Nodup →
    (∀ kv ∈ hmKvps hm, hmGet hm kv.key = some kv.value) →
    (∀ kv ∈ hmKvps hm, ∀ t, lastValue members kv.key = some t → Denotes t kv.value) →
    Denotes (.object members) (.object hm)
  | list {elements l} : List.Forall₂ Denotes elements l → Denotes (.list elements) (.list l)
  | string {str} : Denotes (.string str) (.string str)
  | number {n} : Denotes (.number n) (.number n)
  | boolean {b} : Denotes (.boolean b) (.boolean b)
  | null : Denotes .null .null

/--
No object has two different keys with one hash and one text up to their first NUL. Members that a
later one overwrites do not matter, but for their keys.
-/
inductive NoClash : JsonText Num → Prop
  | object {members} :
    (∀ k ∈ members.map Prod.fst, ∀ k' ∈ members.map Prod.fst,
      sHash k = sHash k' → cString k = cString k' → k = k') →
    (∀ k t, lastValue members k = some t → NoClash t) → NoClash (.object members)
  | list {elements} : (∀ t ∈ elements, NoClash t) → NoClash (.list elements)
  | string {str} : NoClash (.string str)
  | number {n} : NoClash (.number n)
  | boolean {b} : NoClash (.boolean b)
  | null : NoClash .null

theorem tellsApart_iff {keys : List Bytes} :
    (newObject : HashMap Bytes (Json Num)).TellsApart keys ↔
      ∀ k ∈ keys, ∀ k' ∈ keys, sHash k = sHash k' → cString k = cString k' → k = k' := by
  simp only [HashMap.TellsApart, newObject_sameKey, and_imp]

/-- A map that has all of the keys has told them apart. -/
theorem tellsApart_of_keys {members : List (Bytes × JsonText Num)}
    (h : ∀ k, k ∈ (hmKvps (members.foldl putMember newObject)).map KeyVal.key ↔
      k ∈ members.map Prod.fst) :
    (newObject : HashMap Bytes (Json Num)).TellsApart (members.map Prod.fst) := by
  intro a ha b hb hsame
  obtain ⟨x, hx, rfl⟩ := List.mem_map.mp ((h a).mpr ha)
  obtain ⟨y, hy, rfl⟩ := List.mem_map.mp ((h b).mpr hb)
  rw [← foldl_putMember_sameKey members] at hsame
  rw [(foldl_putMember_inv members).unique hx hy hsame]

/-- Keys that are told apart are all stored. -/
theorem mem_keys_iff {members : List (Bytes × JsonText Num)}
    (h : (newObject : HashMap Bytes (Json Num)).TellsApart (members.map Prod.fst)) (k : Bytes) :
    k ∈ (hmKvps (members.foldl putMember newObject)).map KeyVal.key ↔
      k ∈ members.map Prod.fst := by
  have hholds := foldl_putMember_holds h
  constructor
  · intro hk
    obtain ⟨kv, hkv, rfl⟩ := List.mem_map.mp hk
    obtain ⟨t, ht, -⟩ := (hholds kv.key kv.value).mp ⟨kv, hkv, rfl, rfl⟩
    exact List.mem_map_of_mem (f := Prod.fst) (lastValue_mem ht)
  · intro hk
    obtain ⟨t, ht⟩ := lastValue_isSome hk
    obtain ⟨kv, hkv, hkey, -⟩ := (hholds k (build t)).mpr ⟨t, ht, rfl⟩
    exact List.mem_map.mpr ⟨kv, hkv, hkey⟩

theorem denotes_object_iff {members : List (Bytes × JsonText Num)} :
    Denotes (.object members) (.object (members.foldl putMember newObject)) ↔
      (newObject : HashMap Bytes (Json Num)).TellsApart (members.map Prod.fst) ∧
        ∀ k t, lastValue members k = some t → Denotes t (build t) := by
  have hinv := foldl_putMember_inv members
  constructor
  · intro h
    cases h with
    | object hkeys _ _ hvalues =>
      have hapart := tellsApart_of_keys hkeys
      refine ⟨hapart, fun k t ht => ?_⟩
      obtain ⟨kv, hkv, rfl, hval⟩ := (foldl_putMember_holds hapart k (build t)).mpr ⟨t, ht, rfl⟩
      rw [← hval]
      exact hvalues kv hkv t ht
  · rintro ⟨hapart, hvalues⟩
    have hholds := foldl_putMember_holds hapart
    refine .object (mem_keys_iff hapart) hinv.nodup_keys (fun kv hkv => ?_) fun kv hkv t ht => ?_
    · exact (hmGet_eq_some hinv _ _).mpr (Holds.binds hinv ⟨kv, hkv, rfl, rfl⟩)
    · obtain ⟨t', ht', hbuild⟩ := (hholds kv.key kv.value).mp ⟨kv, hkv, rfl, rfl⟩
      rw [ht] at ht'
      rw [← hbuild, ← Option.some.inj ht']
      exact hvalues kv.key t ht

/-- **The tree that is built is the one denoted, if and only if no keys clash.** -/
theorem denotes_build_iff (t : JsonText Num) : Denotes t (build t) ↔ NoClash t := by
  induction t using JsonText.induct with
  | object members ih =>
    -- Of members with one key the last counts, so the induction is used for those only.
    have hvalues : (∀ k t, lastValue members k = some t → Denotes t (build t)) ↔
        ∀ k t, lastValue members k = some t → NoClash t :=
      forall₃_congr fun k t ht => ih (k, t) (lastValue_mem ht)
    rw [build_object, denotes_object_iff, hvalues, tellsApart_iff]
    constructor
    · rintro ⟨hkeys, hvalues⟩
      exact .object hkeys hvalues
    · intro h
      cases h with
      | object hkeys hvalues => exact ⟨hkeys, hvalues⟩
  | list elements ih =>
    rw [build_list]
    constructor
    · intro h
      cases h with
      | list helements =>
        rw [List.forall₂_map_right_iff, List.forall₂_same] at helements
        exact .list fun t ht => (ih t ht).mp (helements t ht)
    · intro h
      cases h with
      | list helements =>
        refine .list ?_
        rw [List.forall₂_map_right_iff, List.forall₂_same]
        exact fun t ht => (ih t ht).mpr (helements t ht)
  | string str =>
    rw [build]
    exact ⟨fun _ => .string, fun _ => .string⟩
  | number n =>
    rw [build]
    exact ⟨fun _ => .number, fun _ => .number⟩
  | boolean b =>
    rw [build]
    exact ⟨fun _ => .boolean, fun _ => .boolean⟩
  | null =>
    rw [build]
    exact ⟨fun _ => .null, fun _ => .null⟩

/-! ## The parser -/

/-- The parser accepts what the grammar does, and gives the tree that the grammar denotes. -/
structure ParsesExactly (strtod : Bytes → Num × Nat) (is : Bytes) : Prop where
  document : ∀ t rest, IsDocument (IsNumber strtod) t is rest →
    ∃ json, jsonFromInStream strtod is = .ok json rest ∧ Denotes t json
  otherwise : (¬∃ t rest, IsDocument (IsNumber strtod) t is rest) →
    ∃ rest, jsonFromInStream strtod is = .error (.state .syntaxError) rest

theorem jsonFromInStream_of_document {strtod : Bytes → Num × Nat} {is rest : Bytes}
    (his : NumberRuns is) {t : JsonText Num} (h : IsDocument (IsNumber strtod) t is rest) :
    jsonFromInStream strtod is = .ok (build t) rest := by
  have hN : NumberTokens strtod (IsNumber strtod) := fun _ _ _ hn => hn
  refine jsonFromInStream_complete hN.numberLike ?_ h
  rintro n s r hs ⟨run, hrun⟩
  exact jsonNumber_complete hrun (his.suffix hs run ⟨[], r, hrun.text.symm⟩ hrun.like)

/--
**The parser accepts exactly its grammar, if and only if no keys of the document clash.** The runs
of number-like characters are no longer than the buffer.
-/
theorem jsonFromInStream_exact (strtod : Bytes → Num × Nat) {is : Bytes} (his : NumberRuns is) :
    ParsesExactly strtod is ↔ ∀ t rest, IsDocument (IsNumber strtod) t is rest → NoClash t := by
  constructor
  · rintro ⟨hdocument, -⟩ t rest h
    obtain ⟨json, hjson, hdenotes⟩ := hdocument t rest h
    rw [jsonFromInStream_of_document his h] at hjson
    cases hjson
    exact (denotes_build_iff t).mp hdenotes
  · intro hclash
    refine ⟨fun t rest h => ⟨build t, jsonFromInStream_of_document his h,
      (denotes_build_iff t).mpr (hclash t rest h)⟩, fun hnone => ?_⟩
    have hreads : Reads (jsonFromInStream strtod) is _ := jsonFromInStream_reads_of_runs his
    cases hrun : jsonFromInStream strtod is with
    | ok json rest =>
      obtain ⟨t, ht, -⟩ := Ends.ok_of hreads hrun
      exact absurd ⟨t, rest, ht⟩ hnone
    | error e rest =>
      rw [Ends.err_of hreads hrun]
      exact ⟨rest, rfl⟩

/-! ### Two keys that clash -/

/-- `strtod`, on digits. -/
def strtodDigits (buf : Bytes) : Nat × Nat :=
  let digits := buf.takeWhile fun c => 0x30 ≤ c && c ≤ 0x39
  (digits.foldl (fun n c => n * 10 + (c.toNat - 0x30)) 0, digits.length)

/-- `{"\u0000Aa":1,"\u0000BB":2}` -/
def clashText : Bytes :=
  [0x7B, 0x22, 0x5C, 0x75, 0x30, 0x30, 0x30, 0x30, 0x41, 0x61, 0x22, 0x3A, 0x31, 0x2C,
    0x22, 0x5C, 0x75, 0x30, 0x30, 0x30, 0x30, 0x42, 0x42, 0x22, 0x3A, 0x32, 0x7D]

/-- There are not even that many number-like characters. -/
theorem numberRuns_of_count {is : Bytes}
    (h : (is.filter isNumberLike).length ≤ numberMaxStrWidth) : NumberRuns is := by
  intro run hrun hlike
  have hfilter := hrun.sublist.filter isNumberLike
  rw [List.filter_eq_self.mpr hlike] at hfilter
  exact hfilter.length_le.trans h

theorem numberRuns_clashText : NumberRuns clashText := numberRuns_of_count (by decide)

theorem jsonFromInStream_exact_clashText : NumberRuns clashText ∧
    (ParsesExactly strtodDigits clashText ↔
      ∀ t rest, IsDocument (IsNumber strtodDigits) t clashText rest → NoClash t) :=
  ⟨numberRuns_clashText, jsonFromInStream_exact strtodDigits numberRuns_clashText⟩

/-- The members of `clashText`. -/
def clashMembers : List (Bytes × JsonText Nat) :=
  [([0x00, 0x41, 0x61], .number 1), ([0x00, 0x42, 0x42], .number 2)]

theorem isDocument_clashText :
    IsDocument (IsNumber strtodDigits) (.object clashMembers) clashText [] := by
  have isKey {c d : UInt8} {rest : Bytes} (hc : 0x20 ≤ c ∧ c ≠ 0x22 ∧ c ≠ 0x5C)
      (hd : 0x20 ≤ d ∧ d ≠ 0x22 ∧ d ≠ 0x5C) : IsString [0x00, c, d]
        (0x22 :: 0x5C :: 0x75 :: ([0x30, 0x30, 0x30, 0x30] ++ c :: d :: 0x22 :: rest)) rest := by
    have hchars : IsChars [c, d] (c :: d :: 0x22 :: rest) rest :=
      .plain hc.1 hc.2.1 hc.2.2 (.plain hd.1 hd.2.1 hd.2.2 .quote)
    have hzeros : ∀ x ∈ ([0x30, 0x30, 0x30, 0x30] : Bytes), isHexDigit x = true := by
      decide +kernel
    exact .mk (IsChars.unicode rfl hzeros hchars)
  have isDigit {c : UInt8} {rest : Bytes} {n : Nat} (hc : isNumberLike c = true)
      (hrest : ∀ x ∈ rest.head?, isNumberLike x = false) (hn : strtodDigits [c] = (n, 1)) :
      IsValue (IsNumber strtodDigits) (.number n) (c :: rest) rest :=
    .number ⟨[c], by simp, by simpa using hc, rfl, hrest, hn⟩
  refine ⟨clashText, Ws.refl _, .object (.first (Ws.refl _) (.mk (isKey (by decide) (by decide))
    (Ws.refl _) (Ws.refl _) (isDigit rfl (by decide +kernel) rfl))
    (.next (Ws.refl _) (Ws.refl _) (.mk (isKey (by decide) (by decide))
      (Ws.refl _) (Ws.refl _) (isDigit rfl (by decide +kernel) rfl))
      (.done (Ws.refl _))))⟩

/-- **The map takes the two keys for one**, and the tree has one member where the text has two. -/
theorem not_parsesExactly_clashText : NumberRuns clashText ∧ ¬[0x5C, 0x22] <:+: clashText ∧
    ¬ParsesExactly strtodDigits clashText := by
  refine ⟨numberRuns_clashText, by decide, fun h => ?_⟩
  obtain ⟨json, hjson, hdenotes⟩ := h.document _ _ isDocument_clashText
  rw [jsonFromInStream_of_document numberRuns_clashText isDocument_clashText] at hjson
  cases hjson
  cases (denotes_build_iff _).mp hdenotes with
  | object hkeys _ =>
    have heq := hkeys [0x00, 0x41, 0x61] (by decide) [0x00, 0x42, 0x42] (by decide) (by decide)
      (by decide)
    exact absurd heq (by decide)

end Chlibs.Chjson

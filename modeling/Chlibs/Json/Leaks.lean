import Chlibs.Json.Denotation
import Chlibs.Json.Memory

/-!
# What the parser leaks

The blocks that are left once the tree that was read is deleted, or once reading has failed. There
are some if and only if a key is repeated on the way: `hm_put` overwrites the value of such a key,
and frees neither the old value nor the key that it was given.

* `RepeatsKey` — a member with the key of an earlier one, at any depth.
* `deleteJsonCount_shifts` — deletion frees what a tree owns.
* `leaksNothing_iff` — no block is left unless a key is repeated.
-/

namespace Chlibs.Chjson

open Infra Util

variable {Num τ α : Type}

/-! ## Repeated keys -/

/-- What stands between an item and the item at `rest`: commas, and the items `ts`. -/
inductive TailBefore (V : τ → Bytes → Bytes → Prop) : List τ → Bytes → Bytes → Prop
  | comma {s s1 rest} : Ws s (0x2C :: s1) → Ws s1 rest → TailBefore V [] s rest
  | next {t ts s s1 s2 s3 rest} : Ws s (0x2C :: s1) → Ws s1 s2 → V t s2 s3 →
    TailBefore V ts s3 rest → TailBefore V (t :: ts) s rest

/-- What stands in front of the item at `rest`: the opening character, and the items `ts`. -/
inductive ItemsBefore (start : UInt8) (V : τ → Bytes → Bytes → Prop) :
    List τ → Bytes → Bytes → Prop
  | first {s rest} : Ws s rest → ItemsBefore start V [] (start :: s) rest
  | later {t ts s s1 s2 rest} : Ws s s1 → V t s1 s2 → TailBefore V ts s2 rest →
    ItemsBefore start V (t :: ts) (start :: s) rest

/-- Two keys that a map takes for one. -/
def SameKey (a b : Bytes) : Prop := sHash a = sHash b ∧ sEquals a b = true

/--
In an object that starts in `s`, a member has the key of an earlier one. What is behind that member
does not matter, it may be anything.
-/
inductive RepeatsKey (N : Num → Bytes → Bytes → Prop) : Bytes → Prop
  | element {elements s rest} : ItemsBefore 0x5B (IsValue N) elements s rest →
    RepeatsKey N rest → RepeatsKey N s
  | value {members key s s1 s2 s3 rest} : ItemsBefore 0x7B (IsMember (IsValue N)) members s s1 →
    IsString key s1 s2 → Ws s2 (0x3A :: s3) → Ws s3 rest → RepeatsKey N rest → RepeatsKey N s
  | key {members m m' s s1 rest} : ItemsBefore 0x7B (IsMember (IsValue N)) members s s1 →
    IsMember (IsValue N) m s1 rest → m' ∈ members → SameKey m'.1 m.1 → RepeatsKey N s

/-! ## What a tree owns -/

/-- The blocks of a string. -/
def stringBlocks : Nat := 3

/-- The blocks of a tree. -/
def jsonBlocks : Json Num → Nat
  | .object hm => ((hmKvps hm).attach.map fun kv => stringBlocks + jsonBlocks kv.1.value).sum +
    ((hmKvps hm).length + blockCount (sizeofPtr * hm.chains.length) + 1) + 1
  | .list l => (l.attach.map fun json => jsonBlocks json.1).sum + 3 + 1
  | .string _ => stringBlocks + 1
  | .number _ => 1
  | .boolean _ => 1
  | .null => 0
termination_by json => sizeOf json
decreasing_by
  · exact sizeOf_value_lt kv.2
  · exact sizeOf_element_lt json.2

/-- The blocks of a map, its keys and its values. -/
def mapBlocks (hm : HashMap Bytes (Json Num)) : Nat :=
  ((hmKvps hm).map fun kv => stringBlocks + jsonBlocks kv.value).sum +
    ((hmKvps hm).length + blockCount (sizeofPtr * hm.chains.length) + 1)

def listBlocks (l : List (Json Num)) : Nat := (l.map jsonBlocks).sum + 3

theorem jsonBlocks_object (hm : HashMap Bytes (Json Num)) :
    jsonBlocks (.object hm) = mapBlocks hm + 1 := by
  have hmap : ((hmKvps hm).attach.map fun kv => stringBlocks + jsonBlocks kv.1.value)
      = (hmKvps hm).map fun kv => stringBlocks + jsonBlocks kv.value :=
    List.attach_map_val (f := fun kv : KeyVal Bytes (Json Num) => stringBlocks + jsonBlocks kv.value)
  rw [jsonBlocks, hmap, mapBlocks]

theorem jsonBlocks_list (l : List (Json Num)) : jsonBlocks (.list l) = listBlocks l + 1 := by
  have hmap : (l.attach.map fun json => jsonBlocks json.1) = l.map jsonBlocks :=
    List.attach_map_val (f := jsonBlocks)
  rw [jsonBlocks, hmap, listBlocks]

@[simp] theorem listBlocks_nil : listBlocks ([] : List (Json Num)) = 3 := rfl

@[simp] theorem mapBlocks_newObject : mapBlocks (newObject : HashMap Bytes (Json Num)) = 2 := by
  simp [mapBlocks, newObject, newHashMap, hmKvps, blockCount, sizeofPtr]

/-! ## Allocating and freeing -/

theorem newStringCount_shifts : Shifts newStringCount stringBlocks := by
  refine ((Shifts.malloc sizeofString).andThen ((Shifts.malloc sizeofSharedString).andThen
    (Shifts.malloc 1))).of_eq rfl

theorem deleteStringCount_shifts : Shifts deleteStringCount (-stringBlocks) :=
  ((Shifts.free 1).andThen ((Shifts.free sizeofSharedString).andThen
    (Shifts.free sizeofString))).of_eq rfl

theorem newJsonListCount_shifts : Shifts newJsonListCount 4 :=
  (((Shifts.malloc sizeofArrayList).andThen ((Shifts.malloc sizeofPtr).andThen
    (Shifts.malloc sizeofList))).andThen (Shifts.malloc sizeofJson)).of_eq rfl

theorem newJsonObjectCount_shifts : Shifts newJsonObjectCount 3 :=
  (((Shifts.malloc sizeofHashMap).andThen (Shifts.malloc (sizeofPtr * 8))).andThen
    (Shifts.malloc sizeofJson)).of_eq rfl

theorem deleteListCount_shifts : Shifts deleteListCount (-3) :=
  ((Shifts.free sizeofPtr).andThen ((Shifts.free sizeofArrayList).andThen
    (Shifts.free sizeofList))).of_eq rfl

theorem deleteHashMapCount_shifts (hm : HashMap Bytes (Json Num)) :
    Shifts (deleteHashMapCount hm)
      (-((hmKvps hm).length + blockCount (sizeofPtr * hm.chains.length) + 1 : Nat)) := by
  have hchain : ∀ chain ∈ hm.chains,
      Shifts (chain.forM fun _ => safeFreeCount sizeofKvp : JsonM Unit) (-chain.length) := by
    intro chain _
    have hfree : ∀ kv ∈ chain, Shifts (safeFreeCount sizeofKvp : JsonM Unit) (-(1 : Nat)) :=
      fun _ _ => Shifts.free sizeofKvp
    simpa using Shifts.forM_free chain hfree
  refine ((Shifts.forM_free hm.chains hchain).andThen ((Shifts.free _).andThen
    (Shifts.free sizeofHashMap))).of_eq ?_
  rw [hmKvps, List.length_flatten, show blockCount sizeofHashMap = 1 from rfl]
  omega

/-- **Deletion frees what a tree owns.** -/
theorem deleteJsonCount_shifts : ∀ json : Json Num, Shifts (deleteJsonCount json) (-jsonBlocks json)
  | .object hm => by
    rw [deleteJsonCount, jsonBlocks]
    have hkvp : ∀ kv ∈ (hmKvps hm).attach, Shifts (do
        deleteStringCount
        deleteJsonCount kv.1.value) (-(stringBlocks + jsonBlocks kv.1.value : Nat)) := by
      intro kv _
      refine (deleteStringCount_shifts.andThen (deleteJsonCount_shifts kv.1.value)).of_eq ?_
      omega
    refine ((Shifts.forM_free _ hkvp).andThen ((deleteHashMapCount_shifts hm).andThen
      (Shifts.free sizeofJson))).of_eq ?_
    rw [show blockCount sizeofJson = 1 from rfl]
    omega
  | .list l => by
    rw [deleteJsonCount, jsonBlocks]
    refine ((Shifts.forM_free l.attach fun json _ => deleteJsonCount_shifts json.1).andThen
      (deleteListCount_shifts.andThen (Shifts.free sizeofJson))).of_eq ?_
    rw [show blockCount sizeofJson = 1 from rfl]
    omega
  | .string _ => by
    rw [deleteJsonCount, jsonBlocks]
    exact (deleteStringCount_shifts.andThen (Shifts.free sizeofJson)).of_eq rfl
  | .number _ => by
    rw [deleteJsonCount, jsonBlocks]
    exact Shifts.free sizeofJson
  | .boolean _ => by
    rw [deleteJsonCount, jsonBlocks]
    exact Shifts.free sizeofJson
  | .null => by
    rw [deleteJsonCount, jsonBlocks]
    exact Shifts.skip
termination_by json => sizeOf json
decreasing_by
  · exact sizeOf_value_lt kv.2
  · exact sizeOf_element_lt json.2

/-! ## A put -/

/-- The blocks of a map, told from its pairs in any order. -/
theorem mapBlocks_of_perm {hm : HashMap Bytes (Json Num)} (h : hm.Inv)
    {kvs : List (KeyVal Bytes (Json Num))} (hperm : (hmKvps hm).Perm kvs) :
    mapBlocks hm = (kvs.map fun kv => stringBlocks + jsonBlocks kv.value).sum + (kvs.length + 2) := by
  have hpos := h.pos
  rw [mapBlocks, (hperm.map _).sum_eq, hperm.length_eq,
    blockCount_of_pos (by rw [sizeofPtr]; omega)]

/-- What `hm_put` does where it finds no pair of its key. -/
theorem hmCheckResizeCount_eq {hm : HashMap Bytes (Json Num)} (h : 0 < hm.chains.length)
    (s : InStream) (count : Int) :
    hmCheckResizeCount hm (s, count) = .ok (hmCheckResize hm) (s, count) := by
  unfold hmCheckResizeCount hmCheckResize
  split
  · rfl
  · rw [bind_of_ok (Shifts.malloc _ s count), bind_of_ok (Shifts.free _ s _),
      blockCount_of_pos (by rw [sizeofPtr]; omega), blockCount_of_pos (by rw [sizeofPtr]; omega),
      Int.add_neg_cancel_right]
    rfl

/--
**A put loses blocks where it finds its key**: the key that it was given, and what the map had under
it. Otherwise the map owns the key and the value.
-/
theorem hmPutCount_loses {hm : HashMap Bytes (Json Num)} (h : hm.Inv) (key : Bytes)
    (value : Json Num) (s : InStream) (left : Int) :
    Loses (hmPutCount hm key value) (pure (hmPut hm key value)) s
      (fun hm' => mapBlocks hm' - mapBlocks hm - stringBlocks - jsonBlocks value) left
      (∃ kv ∈ hmKvps hm, hm.SameKey kv.key key) := by
  obtain ⟨hinv, -, hstep⟩ := hmPut_step h key value
  cases hupd : updateChain (kvMatches hm (hm.hashFunc key) key) value
      (chainOf hm (hm.hashFunc key)) with
  | some chain =>
    -- The key is there already: the value goes in, and nobody has the new key any more.
    have hfound : ∃ kv ∈ hmKvps hm, hm.SameKey kv.key key := by
      by_contra hnone
      have hfresh : ∀ kv ∈ hmKvps hm, ¬hm.SameKey kv.key key :=
        fun kv hkv hsame => hnone ⟨kv, hkv, hsame⟩
      have hnil := (h.updateChain_eq_none_iff key value).mpr hfresh
      rw [hupd] at hnil
      cases hnil
    rcases hstep with ⟨kv, rest, -, hold, hnew⟩ | ⟨hfresh, -⟩
    · have hrun : ∀ count, hmPutCount hm key value (s, count)
          = .ok (hmPut hm key value) (s, count + 0) := by
        intro count
        simp only [hmPutCount, hmPut, hupd, Int.add_zero]
        rfl
      have hlost : stringBlocks + jsonBlocks kv.value ≠ 0 ↔
          ∃ kv ∈ hmKvps hm, hm.SameKey kv.key key := by simp [stringBlocks, hfound]
      refine Loses.of_ok hlost hrun ?_
      rw [mapBlocks_of_perm h hold, mapBlocks_of_perm hinv hnew]
      simp only [List.map_cons, List.sum_cons, List.length_cons]
      push_cast
      omega
    · obtain ⟨kv, hkv, hsame⟩ := hfound
      exact absurd hsame (hfresh kv hkv)
  | none =>
    -- A new key, whose pair takes one block.
    have hfresh := (h.updateChain_eq_none_iff key value).mp hupd
    rcases hstep with ⟨kv, rest, hsame, hold, -⟩ | ⟨-, hnew⟩
    · exact absurd hsame (hfresh kv (hold.mem_iff.mpr List.mem_cons_self))
    · have hnone : ¬∃ kv ∈ hmKvps hm, hm.SameKey kv.key key := by
        rintro ⟨kv, hkv, hsame⟩
        exact hfresh kv hkv hsame
      have hrun : ∀ count, hmPutCount hm key value (s, count)
          = .ok (hmPut hm key value) (s, count + 1) := by
        intro count
        simp only [hmPutCount, hmPut, hupd]
        rw [bind_of_ok (Shifts.malloc sizeofKvp s count),
          hmCheckResizeCount_eq (by simpa using h.pos)]
        rfl
      have hlost : (0 : Nat) ≠ 0 ↔ ∃ kv ∈ hmKvps hm, hm.SameKey kv.key key := by simp [hnone]
      refine Loses.of_ok hlost hrun ?_
      rw [mapBlocks_of_perm h (.refl _), mapBlocks_of_perm hinv hnew]
      simp only [List.map_cons, List.sum_cons, List.length_cons]
      push_cast
      omega

/-! ## Strings and numbers -/

/-- The stream of a unicode character is deleted. -/
theorem expectControlSuffixCount_eq (builder : Bytes) :
    expectControlSuffixCount builder = uncounted (expectControlSuffix builder) := by
  rw [expectControlSuffixCount, expectControlSuffix, uncounted_bind]
  congr 1
  funext c
  cases controlChar c with
  | some control => rfl
  | none =>
    by_cases hc : c = 0x75
    · simp only [if_pos hc]
      rw [uncounted_bind]
      congr 1
      funext digits
      have hstream : Shifts (do
          safeMallocCount sizeofStringOutStream
          safeMallocCount sizeofOutStream
          safeFreeCount sizeofStringOutStream
          safeFreeCount sizeofOutStream : JsonM Unit) 0 :=
        ((Shifts.malloc _).andThen ((Shifts.malloc _).andThen
          ((Shifts.free _).andThen (Shifts.free _)))).of_eq (by omega)
      have hrun := fun write : Unit → JsonM Bytes => hstream.zero_bind (f := write)
      simp only [bind_assoc] at hrun
      refine (hrun _).trans ?_
      cases unicodeToUtf8 stringOutStream (unicodeFromCstr digits) builder <;> rfl
    · simp only [if_neg hc]

theorem stringLoopCount_eq : ∀ (fuel : Nat) (builder : Bytes),
    stringLoopCount fuel builder = uncounted (stringLoop fuel builder)
  | 0, _ => rfl
  | fuel + 1, builder => by
    rw [stringLoopCount, stringLoop, uncounted_bind]
    congr 1
    funext c
    by_cases hcontrol : 0 ≤ charVal c ∧ charVal c < 0x20
    · rw [if_pos hcontrol, if_pos hcontrol]
    rw [if_neg hcontrol, if_neg hcontrol]
    by_cases hquote : c = 0x22
    · rw [if_pos hquote, if_pos hquote]
      rfl
    rw [if_neg hquote, if_neg hquote]
    by_cases hescape : c = 0x5C
    · rw [if_pos hescape, if_pos hescape, uncounted_bind, expectControlSuffixCount_eq]
      congr 1
      funext builder'
      exact stringLoopCount_eq fuel builder'
    · rw [if_neg hescape, if_neg hescape]
      exact stringLoopCount_eq fuel (builder ++ [c])

/-- A builder that is there already keeps its blocks. -/
theorem stringFromInStreamCount_eq (builder : Bytes) :
    stringFromInStreamCount builder = uncounted (stringFromInStreamNoTrim builder) := by
  rw [stringFromInStreamCount, stringFromInStreamNoTrim, uncounted_bind]
  congr 1
  funext _ x
  show stringLoopCount _ builder x = _
  rw [stringLoopCount_eq]
  rfl

theorem jsonStringFromInStreamCount_keeps (s : InStream) :
    Keeps (jsonStringFromInStreamCount : JsonM (Json Num)) jsonStringFromInStreamNoTrim s
      (fun json => jsonBlocks json) 0 := by
  refine Loses.shift newStringCount_shifts ?_
  rw [stringFromInStreamCount_eq]
  refine Keeps.outcome (Loses.uncounted (stringFromInStreamNoTrim []) s) (fun str s' _ => ?_)
    fun e s' _ => ?_
  · refine Loses.shift (Shifts.malloc sizeofJson) (Loses.ret ?_)
    rw [jsonBlocks]
    rfl
  · exact Loses.shift deleteStringCount_shifts (Loses.fail rfl)

theorem jsonNumberFromStreamCount_keeps (strtod : Bytes → Num × Nat) (s : InStream) :
    Keeps (jsonNumberFromStreamCount strtod) (jsonNumberFromStreamNoTrim strtod) s
      (fun json => jsonBlocks json) 0 := by
  refine Keeps.bind (Loses.uncounted (numberLoop numberMaxStrWidth) s) fun buf s' _ => ?_
  by_cases hempty : buf.length = 0
  · rw [if_pos hempty, if_pos hempty]
    exact Loses.fail rfl
  rw [if_neg hempty, if_neg hempty]
  by_cases hend : buf.length ≠ (strtod buf).2
  · rw [if_pos hend, if_pos hend]
    exact Loses.fail rfl
  · rw [if_neg hend, if_neg hend]
    refine Loses.shift (Shifts.malloc sizeofJson) (Loses.ret ?_)
    rw [jsonBlocks]
    rfl

/-! ## Fuel -/

theorem withFuelCount_loses {p : Nat → JsonM α} {q : Nat → ParserM α} {s : Bytes} {gain : α → Int}
    {left : Int} {Loss : Prop} (h : Loses (p (s.length + 1)) (q (s.length + 1)) s gain left Loss) :
    Loses (withFuelCount p) (withFuel q) s gain left Loss := h

theorem withFuelCount_settles {p : Nat → JsonM (α × Option ParserError)} {q : Nat → ParserM α}
    {s : Bytes} {gain : α → Int} {Loss : Prop}
    (h : Settles (p (s.length + 1)) (q (s.length + 1)) s gain Loss) :
    Settles (withFuelCount p) (withFuel q) s gain Loss := h

/-! ## Items -/

theorem itemsLoop_succ (close : UInt8) (item : α → ParserM α) (fuel : Nat) (acc : α) :
    itemsLoop close item (fuel + 1) acc = nextItem close >>= fun more => match more with
      | true => item acc >>= itemsLoop close item fuel
      | false => pure acc := by
  simp only [itemsLoop, nextItem, bind_assoc]
  congr 1
  funext _
  congr 1
  funext c
  by_cases hclose : c = close
  · simp only [if_pos hclose, pure_bind]
  by_cases hcomma : c ≠ 0x2C
  · simp only [if_neg hclose, if_pos hcomma]
    rfl
  · simp only [if_neg hclose, if_neg hcomma, bind_assoc, pure_bind]

theorem itemsFromStream_eq (start close : UInt8) (item : α → ParserM α) (acc : α) :
    itemsFromStream start close item acc = firstItem start close >>= fun more => match more with
      | true => item acc >>= fun acc' => withFuel fun fuel => itemsLoop close item fuel acc'
      | false => pure acc := by
  simp only [itemsFromStream, firstItem, bind_assoc]
  congr 1
  funext _
  congr 1
  funext _
  congr 1
  funext c
  by_cases hclose : c = close
  · simp only [if_pos hclose, bind_assoc, pure_bind]
  · simp only [if_neg hclose, pure_bind]

/-- What is left behind the whitespace. -/
def trimmed (s : Bytes) : Bytes := s.dropWhile isWhitespace

theorem trimWs_trimmed (s : Bytes) : trimWs s = .ok () (trimmed s) := trimWs_eq s

theorem ws_trimmed (s : Bytes) : Ws s (trimmed s) :=
  ⟨s.takeWhile isWhitespace, fun _ hc => List.mem_takeWhile_imp hc,
    List.takeWhile_append_dropWhile.symm⟩

theorem ws_cons_iff {s s1 : Bytes} {c : UInt8} (hc : isWhitespace c = false) :
    Ws s (c :: s1) ↔ trimmed s = c :: s1 := by
  constructor
  · intro h
    have hrun := (trimWs_trimmed s).symm.trans (trimWs_complete h hc)
    simpa using hrun
  · intro h
    rw [← h]
    exact ws_trimmed s

theorem Ws.eq_trimmed {s rest : Bytes} (h : Ws s rest) (hstarts : StartsItem rest) :
    rest = trimmed s := by
  obtain ⟨c, s', rfl, hc, -, -⟩ := hstarts
  exact ((ws_cons_iff hc).mp h).symm

/-- Another item is behind a comma. -/
theorem nextItem_eq_true {close : UInt8} (hclose : close ≠ 0x2C) {s s' : Bytes} :
    nextItem close s = .ok true s' ↔ ∃ s1, Ws s (0x2C :: s1) ∧ s' = trimmed s1 := by
  have hcomma : isWhitespace 0x2C = false := rfl
  simp only [ws_cons_iff hcomma]
  rw [nextItem, bind_of_ok (trimWs_trimmed s)]
  cases trimmed s with
  | nil =>
    rw [bind_of_error (rfl : nextChar [] = .error _ [])]
    simp
  | cons c r =>
    rw [bind_of_ok (rfl : nextChar (c :: r) = .ok c r)]
    by_cases hc : c = 0x2C
    · subst hc
      rw [if_neg hclose.symm, if_neg (by simp), bind_of_ok (trimWs_trimmed r)]
      show EStateM.Result.ok true (trimmed r) = .ok true s' ↔ _
      simp [eq_comm]
    · have hno : ¬∃ s1, c :: r = 0x2C :: s1 ∧ s' = trimmed s1 := by simp [hc]
      refine iff_of_false ?_ hno
      by_cases hend : c = close
      · rw [if_pos hend]
        show ¬EStateM.Result.ok false r = .ok true s'
        simp
      · rw [if_neg hend, if_pos hc]
        show ¬EStateM.Result.error _ r = .ok true s'
        simp

theorem TailBefore.nextItem {V : τ → Bytes → Bytes → Prop} {close : UInt8} (hclose : close ≠ 0x2C)
    {ts : List τ} {s rest : Bytes} :
    TailBefore V ts s rest → ∃ s', Chjson.nextItem close s = .ok true s'
  | .comma hs _ => ⟨_, (nextItem_eq_true hclose).mpr ⟨_, hs, rfl⟩⟩
  | .next hs _ _ _ => ⟨_, (nextItem_eq_true hclose).mpr ⟨_, hs, rfl⟩⟩

/-- A first item is behind the opening character, where it is not closed at once. -/
theorem firstItem_eq_true {start close : UInt8} {s s' : Bytes} :
    firstItem start close s = .ok true s' ↔
      ∃ s1, s = start :: s1 ∧ s' = trimmed s1 ∧ ∃ c s2, s' = c :: s2 ∧ c ≠ close := by
  have hreads : Reads (expectChar start) s _ := expectChar_reads start s
  rw [firstItem]
  cases hrun : expectChar start s with
  | error e r =>
    rw [bind_of_error hrun]
    refine iff_of_false (by simp) ?_
    rintro ⟨s1, rfl, -⟩
    rw [expectChar_complete] at hrun
    cases hrun
  | ok a r =>
    obtain rfl := Ends.ok_of hreads hrun
    rw [bind_of_ok hrun, bind_of_ok (trimWs_trimmed r)]
    -- Behind the bracket and the blanks is the character that the test is about.
    cases htrim : trimmed r with
    | nil =>
      rw [bind_of_error (rfl : peekChar [] = .error _ [])]
      refine iff_of_false (by simp) ?_
      rintro ⟨s1, heq, rfl, c, s2, hcons, -⟩
      obtain rfl := (List.cons.inj heq).2
      rw [htrim] at hcons
      cases hcons
    | cons c r' =>
      rw [bind_of_ok (rfl : peekChar (c :: r') = .ok c (c :: r'))]
      by_cases hc : c = close
      · rw [if_pos hc]
        refine iff_of_false ?_ ?_
        · show ¬EStateM.Result.ok false r' = .ok true s'
          simp
        · rintro ⟨s1, heq, rfl, c', s2, hcons, hne⟩
          obtain rfl := (List.cons.inj heq).2
          rw [htrim] at hcons
          exact hne ((List.cons.inj hcons).1 ▸ hc)
      · rw [if_neg hc]
        show EStateM.Result.ok true (c :: r') = .ok true s' ↔ _
        constructor
        · intro h
          simp only [EStateM.Result.ok.injEq, true_and] at h
          exact ⟨r, rfl, by rw [← h, htrim], c, r', h.symm, hc⟩
        · rintro ⟨s1, heq, rfl, -⟩
          obtain rfl := (List.cons.inj heq).2
          rw [htrim]

/--
What the loops have to know of an item. On inputs shorter than `n`, `item` reads what `V` says and
puts it in, and the call that counts loses blocks if and only if `Bad` says so of the items that
came before.
-/
structure ItemLoses (V : τ → Bytes → Bytes → Prop) (step : α → τ → α) (init : α)
    (itemCount : α → JsonM α) (item : α → ParserM α) (own : α → Nat) (Bad : List τ → Bytes → Prop)
    (n : Nat) : Prop where
  suffix : ∀ {t s r}, V t s r → r <:+ s
  starts : ∀ {t s r}, V t s r → StartsItem s
  starts_bad : ∀ {done s}, Bad done s → StartsItem s
  reads : ∀ {acc s acc' r}, s.length < n → (item acc s = .ok acc' r ↔ ∃ t, V t s r ∧ acc' = step acc t)
  same : ∀ {t t' s r r'}, V t s r → V t' s r' → ∀ done ts rest, Bad (done ++ t :: ts) rest →
    Bad (done ++ t' :: ts) rest
  loses : ∀ (done : List τ) {s}, s.length < n → Loses (itemCount (done.foldl step init))
    (item (done.foldl step init)) s
    (fun acc => (own acc : Int) - own (done.foldl step init)) 0 (Bad done s)

section Items

variable {V : τ → Bytes → Bytes → Prop} {step : α → τ → α} {init : α} {itemCount : α → JsonM α}
  {item : α → ParserM α} {own : α → Nat} {Bad : List τ → Bytes → Prop} {n : Nat}
  {start close : UInt8}

/-- Behind a comma, the first bad item is the next one or a later one. -/
theorem tailBefore_iff (h : ItemLoses V step init itemCount item own Bad n) (done : List τ)
    {s s1 : Bytes} (hs : Ws s (0x2C :: s1)) :
    (∃ ts rest, TailBefore V ts s rest ∧ Bad (done ++ ts) rest) ↔ Bad done (trimmed s1) ∨
      ∃ t ts s2 rest, V t (trimmed s1) s2 ∧ TailBefore V ts s2 rest ∧ Bad (done ++ t :: ts) rest := by
  have hcomma : isWhitespace 0x2C = false := rfl
  constructor
  · rintro ⟨ts, rest, hbefore, hbad⟩
    cases hbefore with
    | comma hs' hws =>
      obtain ⟨-, rfl⟩ := hs.unique hs' hcomma hcomma
      rw [List.append_nil] at hbad
      rw [← hws.eq_trimmed (h.starts_bad hbad)]
      exact .inl hbad
    | @next t ts _ _ s2 s3 _ hs' hws ht hrest =>
      obtain ⟨-, rfl⟩ := hs.unique hs' hcomma hcomma
      rw [← hws.eq_trimmed (h.starts ht)]
      exact .inr ⟨t, ts, s3, rest, ht, hrest, hbad⟩
  · rintro (hbad | ⟨t, ts, s2, rest, ht, hrest, hbad⟩)
    · exact ⟨[], trimmed s1, .comma hs (ws_trimmed s1), by rwa [List.append_nil]⟩
    · exact ⟨t :: ts, rest, .next hs (ws_trimmed s1) ht hrest, hbad⟩

theorem itemsBefore_iff (h : ItemLoses V step init itemCount item own Bad n) {s1 : Bytes} :
    (∃ ts rest, ItemsBefore start V ts (start :: s1) rest ∧ Bad ts rest) ↔ Bad [] (trimmed s1) ∨
      ∃ t ts s2 rest, V t (trimmed s1) s2 ∧ TailBefore V ts s2 rest ∧ Bad (t :: ts) rest := by
  constructor
  · rintro ⟨ts, rest, hbefore, hbad⟩
    cases hbefore with
    | first hws =>
      rw [← hws.eq_trimmed (h.starts_bad hbad)]
      exact .inl hbad
    | @later t ts _ _ s2 _ hws ht hrest =>
      rw [← hws.eq_trimmed (h.starts ht)]
      exact .inr ⟨t, ts, s2, rest, ht, hrest, hbad⟩
  · rintro (hbad | ⟨t, ts, s2, rest, ht, hrest, hbad⟩)
    · exact ⟨[], trimmed s1, .first (ws_trimmed s1), hbad⟩
    · exact ⟨t :: ts, rest, .later (ws_trimmed s1) ht hrest, hbad⟩

/-- An item, and the loop over what is behind it. -/
theorem itemThen_settles (h : ItemLoses V step init itemCount item own Bad n) (done : List τ)
    {s : Bytes} (hs : s.length < n) {K : α → JsonM (α × Option ParserError)} {G : α → ParserM α}
    (hrest : ∀ t s2, V t s s2 → Settles (K ((done ++ [t]).foldl step init))
      (G ((done ++ [t]).foldl step init)) s2
      (fun acc => (own acc : Int) - own ((done ++ [t]).foldl step init))
      (∃ ts rest, TailBefore V ts s2 rest ∧ Bad (done ++ [t] ++ ts) rest)) :
    Settles (do
        match ← outcome (itemCount (done.foldl step init)) with
        | .error ps => pure (done.foldl step init, some ps)
        | .ok acc' => K acc')
      (item (done.foldl step init) >>= G) s
      (fun acc => (own acc : Int) - own (done.foldl step init))
      (Bad done s ∨
        ∃ t ts s2 rest, V t s s2 ∧ TailBefore V ts s2 rest ∧ Bad (done ++ t :: ts) rest) := by
  refine (Settles.outcome (fun _ s2 => ∃ t ts rest, V t s s2 ∧ TailBefore V ts s2 rest ∧
    Bad (done ++ t :: ts) rest) (h.loses done hs) (fun acc' s2 hrun => ?_)
    fun e s2 _ => Settles.fail (by omega)).iff ?_
  · obtain ⟨t, ht, rfl⟩ := (h.reads hs).mp hrun
    have hstep := hrest t s2 ht
    rw [List.foldl_append] at hstep
    have hgain : (fun acc => (own acc : Int) - own (step (done.foldl step init) t))
        = fun acc => (own acc : Int) - own (done.foldl step init)
          - (own (step (done.foldl step init) t) - own (done.foldl step init)) := by
      funext acc
      omega
    refine Settles.iff (hgain ▸ hstep) ?_
    -- Which item was read is told by what was put in, as far as it matters.
    simp only [List.append_assoc, List.singleton_append]
    constructor
    · rintro ⟨ts, rest, hbefore, hbad⟩
      exact ⟨t, ts, rest, ht, hbefore, hbad⟩
    · rintro ⟨t', ts, rest, ht', hbefore, hbad⟩
      exact ⟨ts, rest, hbefore, h.same ht' ht done ts rest hbad⟩
  · refine or_congr_right ?_
    constructor
    · rintro ⟨acc, s2, -, t, ts, rest, ht, hbefore, hbad⟩
      exact ⟨t, ts, s2, rest, ht, hbefore, hbad⟩
    · rintro ⟨t, ts, s2, rest, ht, hbefore, hbad⟩
      exact ⟨_, s2, (h.reads hs).mpr ⟨t, ht, rfl⟩, t, ts, rest, ht, hbefore, hbad⟩

theorem itemsLoopCount_settles (h : ItemLoses V step init itemCount item own Bad n)
    (hclose : close ≠ 0x2C) : ∀ (fuel : Nat) (done : List τ) (s : Bytes), s.length < n →
    s.length < fuel → Settles (itemsLoopCount close itemCount fuel (done.foldl step init))
      (itemsLoop close item fuel (done.foldl step init)) s
      (fun acc => (own acc : Int) - own (done.foldl step init))
      (∃ ts rest, TailBefore V ts s rest ∧ Bad (done ++ ts) rest)
  | fuel + 1, done, s, hs, hfuel => by
    rw [itemsLoop_succ]
    refine Settles.test ?_ (fun s' hnext => ?_) (fun s' => Settles.ret (by omega))
      fun e s' => Settles.fail (by omega)
    · rintro ⟨ts, rest, hbefore, -⟩
      exact hbefore.nextItem hclose
    · obtain ⟨s1, hws, rfl⟩ := (nextItem_eq_true hclose).mp hnext
      have hlen : (trimmed s1).length < s.length := by
        have h1 := hws.suffix.length_le
        have h2 := (ws_trimmed s1).suffix.length_le
        rw [List.length_cons] at h1
        omega
      refine (itemThen_settles h done (by omega) fun t s2 ht => ?_).iff
        (tailBefore_iff h done hws).symm
      have hle := (h.suffix ht).length_le
      exact itemsLoopCount_settles h hclose fuel (done ++ [t]) s2 (by omega) (by omega)

/-- Where an item is in the way, the list or the object is not closed at once. -/
theorem ItemsBefore.firstItem (h : ItemLoses V step init itemCount item own Bad n)
    (hclose : close = 0x5D ∨ close = 0x7D) {ts : List τ} {s rest : Bytes}
    (hbefore : ItemsBefore start V ts s rest) (hbad : Bad ts rest) :
    ∃ s', Chjson.firstItem start close s = .ok true s' := by
  have hstarts : ∀ {s1 s2}, Ws s1 s2 → StartsItem s2 →
      ∃ s', Chjson.firstItem start close (start :: s1) = .ok true s' := by
    rintro s1 s2 hws ⟨c, s3, rfl, hc, hlist, hobject⟩
    have hne : c ≠ close := by
      rintro rfl
      exact hclose.elim hlist hobject
    exact ⟨_, firstItem_eq_true.mpr ⟨s1, rfl, rfl, c, s3, (ws_cons_iff hc).mp hws, hne⟩⟩
  cases hbefore with
  | first hws => exact hstarts hws (h.starts_bad hbad)
  | later hws ht _ => exact hstarts hws (h.starts ht)

/-- **Items lose blocks where one of them does.** -/
theorem itemsFromStreamCount_settles (h : ItemLoses V step init itemCount item own Bad n)
    (hclose : close = 0x5D ∨ close = 0x7D) {s : Bytes} (hs : s.length ≤ n) :
    Settles (itemsFromStreamCount start close itemCount init)
      (itemsFromStream start close item init) s (fun acc => (own acc : Int) - own init)
      (∃ ts rest, ItemsBefore start V ts s rest ∧ Bad ts rest) := by
  have hcomma : close ≠ 0x2C := by rcases hclose with rfl | rfl <;> decide
  rw [itemsFromStream_eq]
  refine Settles.test ?_ (fun s' hfirst => ?_) (fun s' => Settles.ret (by omega))
    fun e s' => Settles.fail (by omega)
  · rintro ⟨ts, rest, hbefore, hbad⟩
    exact hbefore.firstItem h hclose hbad
  · obtain ⟨s1, rfl, rfl, -⟩ := firstItem_eq_true.mp hfirst
    have hlen : (trimmed s1).length < n := by
      have h1 := (ws_trimmed s1).suffix.length_le
      rw [List.length_cons] at hs
      omega
    refine (itemThen_settles h [] hlen fun t s2 ht => ?_).iff (itemsBefore_iff h).symm
    have hle := (h.suffix ht).length_le
    exact withFuelCount_settles
      (itemsLoopCount_settles h hcomma (s2.length + 1) [t] s2 (by omega) (by omega))

end Items

/-! ## Elements and members -/

section Values

variable {strtod : Bytes → Num × Nat} {N : Num → Bytes → Bytes → Prop} {s : Bytes}

theorem RepeatsKey.starts (h : RepeatsKey N s) :
    ∃ c s', s = c :: s' ∧ (c = 0x7B ∨ c = 0x5B) := by
  have hfirst : ∀ {τ : Type} {start} {V : τ → Bytes → Bytes → Prop} {ts s rest},
      ItemsBefore start V ts s rest → ∃ s', s = start :: s' := by
    rintro τ start V ts s rest (_ | _) <;> exact ⟨_, rfl⟩
  cases h with
  | element hbefore _ =>
    obtain ⟨s', rfl⟩ := hfirst hbefore
    exact ⟨_, s', rfl, .inr rfl⟩
  | value hbefore _ _ _ _ =>
    obtain ⟨s', rfl⟩ := hfirst hbefore
    exact ⟨_, s', rfl, .inl rfl⟩
  | key hbefore _ _ _ =>
    obtain ⟨s', rfl⟩ := hfirst hbefore
    exact ⟨_, s', rfl, .inl rfl⟩

theorem RepeatsKey.startsItem (h : RepeatsKey N s) : StartsItem s := by
  obtain ⟨c, s', rfl, rfl | rfl⟩ := h.starts <;>
    exact ⟨_, s', rfl, by decide, by decide, by decide⟩

/-- A member that repeats a key behind the members `done`, its own or one in its value. -/
def RepeatsInMember (N : Num → Bytes → Bytes → Prop) (done : List (Bytes × JsonText Num))
    (s : Bytes) : Prop :=
  (∃ key s1 s2 s3, IsString key s s1 ∧ Ws s1 (0x3A :: s2) ∧ Ws s2 s3 ∧ RepeatsKey N s3) ∨
    ∃ m rest, IsMember (IsValue N) m s rest ∧ ∃ m' ∈ done, SameKey m'.1 m.1

theorem repeatsKey_object_iff {s' : Bytes} : RepeatsKey N (0x7B :: s') ↔
    ∃ members rest, ItemsBefore 0x7B (IsMember (IsValue N)) members (0x7B :: s') rest ∧
      RepeatsInMember N members rest := by
  constructor
  · intro h
    cases h with
    | element hbefore _ => cases hbefore
    | value hbefore hkey hws hws' hvalue =>
      exact ⟨_, _, hbefore, .inl ⟨_, _, _, _, hkey, hws, hws', hvalue⟩⟩
    | key hbefore hm hm' hsame => exact ⟨_, _, hbefore, .inr ⟨_, _, hm, _, hm', hsame⟩⟩
  · rintro ⟨members, rest, hbefore, ⟨_, _, _, _, hkey, hws, hws', hvalue⟩ | ⟨_, _, hm, _, hm', hsame⟩⟩
    · exact .value hbefore hkey hws hws' hvalue
    · exact .key hbefore hm hm' hsame

theorem repeatsKey_list_iff {s' : Bytes} : RepeatsKey N (0x5B :: s') ↔
    ∃ elements rest, ItemsBefore 0x5B (IsValue N) elements (0x5B :: s') rest ∧
      RepeatsKey N rest := by
  constructor
  · intro h
    cases h with
    | element hbefore hvalue => exact ⟨_, _, hbefore, hvalue⟩
    | value hbefore _ _ _ _ => cases hbefore
    | key hbefore _ _ _ => cases hbefore
  · rintro ⟨elements, rest, hbefore, hvalue⟩
    exact .element hbefore hvalue

/-- What a value is read as, with fuel for the input. -/
theorem jsonFromInStreamNoTrim_eq_ok {fuel : Nat} (hfuel : s.length < fuel) {json : Json Num}
    {rest : Bytes} : jsonFromInStreamNoTrim strtod fuel s = .ok json rest ↔
      ∃ t, IsValue (IsBuffered strtod) t s rest ∧ json = build t := by
  have hreads : Reads (jsonFromInStreamNoTrim strtod fuel) s _ :=
    jsonFromInStreamNoTrim_reads numberBuf_numberLike (fun s _ => jsonNumber_buffered s) fuel s
      (List.suffix_refl s) hfuel
  constructor
  · exact Ends.ok_of hreads
  · rintro ⟨t, ht, rfl⟩
    exact jsonFromInStreamNoTrim_complete numberBuf_numberLike
      (fun _ _ _ _ hn => jsonNumber_eq_ok.mpr ⟨_, rfl, hn⟩) t fuel s rest (List.suffix_refl s)
      hfuel ht

/-- The key of a member, and what stands in front of its value. -/
def jsonKeyFromStream : ParserM Bytes := do
  let k ← stringFromInStreamNoTrim []
  trimWs
  expectChar 0x3A
  trimWs
  pure k

theorem jsonKeyFromStream_eq_ok {k rest : Bytes} : jsonKeyFromStream s = .ok k rest ↔
    ∃ s1 s2, IsString k s s1 ∧ Ws s1 (0x3A :: s2) ∧ rest = trimmed s2 := by
  have hreads : Reads jsonKeyFromStream s fun k rest =>
      ∃ s1 s2, IsString k s s1 ∧ Ws s1 (0x3A :: s2) ∧ rest = trimmed s2 := by
    refine Reads.bind (stringFromInStreamNoTrim_reads s) ?_
    intro key s1 hkey
    refine Reads.bind (trimWs_reads s1) ?_
    rintro - s1' hws
    refine Reads.bind (expectChar_reads 0x3A s1') ?_
    rintro - s2 rfl
    have htrim : Reads trimWs s2 fun _ r => r = trimmed s2 := Ends.of_ok (trimWs_trimmed s2) rfl
    refine Reads.bind htrim ?_
    rintro - _ rfl
    exact Reads.pure ⟨s1, s2, hkey, hws, rfl⟩
  constructor
  · exact Ends.ok_of hreads
  · rintro ⟨s1, s2, hkey, hws, rfl⟩
    rw [jsonKeyFromStream, bind_of_ok (stringFromInStreamNoTrim_complete hkey),
      bind_of_ok (trimWs_complete hws (by decide)), bind_of_ok (expectChar_complete 0x3A s2),
      bind_of_ok (trimWs_trimmed s2)]
    rfl

theorem jsonKvpFromStreamNoTrim_eq (value : ParserM (Json Num)) (hm : HashMap Bytes (Json Num)) :
    jsonKvpFromStreamNoTrim value hm = (jsonKeyFromStream >>= fun k =>
      value >>= fun v => pure (k, v)) >>= fun kv => pure (hmPut hm kv.1 kv.2) := by
  simp only [jsonKvpFromStreamNoTrim, jsonKeyFromStream, bind_assoc, pure_bind]

theorem jsonKvpPartsFromStreamCount_eq (value : JsonM (Json Num)) :
    jsonKvpPartsFromStreamCount value = uncounted jsonKeyFromStream >>= fun k =>
      value >>= fun v => pure (k, v) := by
  simp only [jsonKvpPartsFromStreamCount, jsonKeyFromStream, stringFromInStreamCount_eq,
    uncounted_bind, bind_assoc]
  rfl

/-- What the reader of a value is assumed to do on inputs shorter than `n`. -/
structure ValueLoses (N : Num → Bytes → Bytes → Prop) (valueCount : JsonM (Json Num))
    (value : ParserM (Json Num)) (n : Nat) : Prop where
  numbers : NumberLike N
  reads : ∀ {s json rest}, s.length < n →
    (value s = .ok json rest ↔ ∃ t, IsValue N t s rest ∧ json = build t)
  loses : ∀ {s}, s.length < n →
    Loses valueCount value s (fun json => (jsonBlocks json : Int)) 0 (RepeatsKey N s)

variable {valueCount : JsonM (Json Num)} {value : ParserM (Json Num)} {n : Nat}

/-- **An element loses blocks if a key is repeated in it.** -/
theorem jsonElement_loses (h : ValueLoses N valueCount value n) :
    ItemLoses (IsValue N) (fun l t => l ++ [build t]) [] (jsonElementFromStreamCount valueCount)
      (jsonElementFromStream value) listBlocks (fun _ => RepeatsKey N) n where
  suffix ht := IsValue.suffix h.numbers _ _ _ ht
  starts ht := IsValue.starts h.numbers ht
  starts_bad := RepeatsKey.startsItem
  reads := by
    intro l s l' r hs
    simp only [jsonElementFromStream, bind_eq_ok, h.reads hs]
    constructor
    · rintro ⟨_, r', ⟨t, ht, rfl⟩, hpure⟩
      cases hpure
      exact ⟨t, ht, rfl⟩
    · rintro ⟨t, ht, rfl⟩
      exact ⟨_, r, ⟨t, ht, rfl⟩, rfl⟩
  same _ _ _ _ _ hbad := hbad
  loses := by
    intro done s hs
    refine (h.loses hs).andRet _ fun ele => ?_
    simp only [listBlocks, List.map_append, List.sum_append, List.map_singleton, List.sum_singleton]
    omega

/-- The value of a member is shorter than the member. -/
theorem memberValue_length_lt {key s1 s2 s3 : Bytes} (hkey : IsString key s s1)
    (hws : Ws s1 (0x3A :: s2)) (hws' : Ws s2 s3) : s3.length < s.length := by
  have h1 := hws'.suffix.length_le
  have h2 := hws.suffix.length_le
  have h3 := hkey.suffix.length_le
  rw [List.length_cons] at h2
  omega

/-- A key and a value are read where there is a member. -/
theorem jsonKvpParts_eq_ok (h : ValueLoses N valueCount value n) (hs : s.length < n)
    {kv : Bytes × Json Num} {rest : Bytes} :
    (jsonKeyFromStream >>= fun k => value >>= fun v => pure (k, v)) s = .ok kv rest ↔
      ∃ t, IsMember (IsValue N) (kv.1, t) s rest ∧ kv.2 = build t := by
  simp only [bind_eq_ok, jsonKeyFromStream_eq_ok]
  constructor
  · rintro ⟨k, _, ⟨s1, s2, hkey, hws, rfl⟩, v, r, hvalue, hpure⟩
    cases hpure
    have hlen := (memberValue_length_lt hkey hws (ws_trimmed s2)).trans hs
    obtain ⟨t, ht, rfl⟩ := (h.reads hlen).mp hvalue
    exact ⟨t, .mk hkey hws (ws_trimmed s2) ht, rfl⟩
  · rintro ⟨t, hmember, hv⟩
    obtain ⟨k, v⟩ := kv
    cases hmember with
    | @mk _ _ _ s1 s2 s3 _ hkey hws hws' ht =>
      have hs3 := hws'.eq_trimmed (IsValue.starts h.numbers ht)
      have hlen := (memberValue_length_lt hkey hws hws').trans hs
      exact ⟨k, s3, ⟨s1, s2, hkey, hws, hs3⟩, v, rest, (h.reads hlen).mpr ⟨t, ht, hv⟩, rfl⟩

/-- Reading a key and a value loses what reading the value does. -/
theorem jsonKvpParts_loses (h : ValueLoses N valueCount value n) (hs : s.length < n) :
    Loses (jsonKvpPartsFromStreamCount valueCount)
      (jsonKeyFromStream >>= fun k => value >>= fun v => pure (k, v)) s
      (fun kv => (jsonBlocks kv.2 : Int)) 0
      (∃ key s1 s2 s3, IsString key s s1 ∧ Ws s1 (0x3A :: s2) ∧ Ws s2 s3 ∧ RepeatsKey N s3) := by
  rw [jsonKvpPartsFromStreamCount_eq]
  cases hkey : jsonKeyFromStream s with
  | error e s' =>
    refine (Loses.uncounted_error hkey).iff ?_
    simp only [false_iff]
    rintro ⟨key, s1, s2, s3, hstr, hws, -, -⟩
    rw [jsonKeyFromStream_eq_ok.mpr ⟨s1, s2, hstr, hws, rfl⟩] at hkey
    cases hkey
  | ok k s' =>
    obtain ⟨s1, s2, hstr, hws, rfl⟩ := jsonKeyFromStream_eq_ok.mp hkey
    have hlen := (memberValue_length_lt hstr hws (ws_trimmed s2)).trans hs
    refine (Loses.uncounted_ok hkey ((h.loses hlen).andRet (fun v => (k, v)) fun _ => rfl)).iff ?_
    constructor
    · intro hvalue
      exact ⟨k, s1, s2, _, hstr, hws, ws_trimmed s2, hvalue⟩
    · rintro ⟨key', s1', s2', s3, hstr', hws', hws3, hvalue⟩
      rw [hws3.eq_trimmed hvalue.startsItem] at hvalue
      rw [jsonKeyFromStream_eq_ok.mpr ⟨s1', s2', hstr', hws', rfl⟩] at hkey
      simp only [EStateM.Result.ok.injEq] at hkey
      rwa [hkey.2] at hvalue

/-- The keys that a map has are those of the members that were put. -/
theorem foldl_putMember_sameKey_iff (done : List (Bytes × JsonText Num)) (k : Bytes) :
    (∃ kv ∈ hmKvps (done.foldl putMember newObject),
      (done.foldl putMember newObject).SameKey kv.key k) ↔ ∃ m ∈ done, SameKey m.1 k := by
  have hbinds := (foldl_hmPut_binds newObject_inv k (done.map fun m => (m.1, build m.2))).2.2
  rw [← foldl_putMember] at hbinds
  have hnew : ¬∃ v, Binds (newObject : HashMap Bytes (Json Num)) k v := by
    rintro ⟨v, hv⟩
    exact not_binds_newHashMap k v hv
  constructor
  · rintro ⟨kv, hkv, hsame⟩
    rcases hbinds.mp ⟨kv.value, kv, hkv, hsame, rfl⟩ with hold | ⟨x, hx, hkey⟩
    · exact absurd hold hnew
    · obtain ⟨m, hm, rfl⟩ := List.mem_map.mp hx
      exact ⟨m, hm, hkey⟩
  · rintro ⟨m, hm, hkey⟩
    obtain ⟨v, kv, hkv, hsame, -⟩ := hbinds.mpr (.inr ⟨_, List.mem_map_of_mem hm, hkey⟩)
    exact ⟨kv, hkv, hsame⟩

/-- A text has one key. -/
theorem IsMember.key_eq {V : JsonText Num → Bytes → Bytes → Prop} {m m' : Bytes × JsonText Num}
    {r r' : Bytes} (hm : IsMember V m s r) (hm' : IsMember V m' s r') : m.1 = m'.1 := by
  obtain ⟨hkey, -, -, -⟩ := hm
  obtain ⟨hkey', -, -, -⟩ := hm'
  have hrun := (stringFromInStreamNoTrim_complete hkey).symm.trans
    (stringFromInStreamNoTrim_complete hkey')
  simp only [EStateM.Result.ok.injEq] at hrun
  exact hrun.1

/-- **A member loses blocks if its key is repeated**, or one in its value. -/
theorem jsonKvp_loses (h : ValueLoses N valueCount value n) :
    ItemLoses (IsMember (IsValue N)) putMember newObject (jsonKvpFromStreamCount valueCount)
      (jsonKvpFromStreamNoTrim value) mapBlocks (RepeatsInMember N) n where
  suffix hm := IsMember.suffix (IsValue.suffix h.numbers _) hm
  starts hm := hm.starts
  starts_bad := by
    rintro done s (⟨key, s1, s2, s3, hkey, -⟩ | ⟨m, rest, hm, -⟩)
    · cases hkey
      exact ⟨_, _, rfl, by decide, by decide, by decide⟩
    · exact hm.starts
  reads := by
    intro hm s hm' r hs
    rw [jsonKvpFromStreamNoTrim_eq]
    simp only [bind_eq_ok (p := jsonKeyFromStream >>= _), jsonKvpParts_eq_ok h hs]
    constructor
    · rintro ⟨⟨k, v⟩, r', ⟨t, ht, rfl⟩, hpure⟩
      cases hpure
      exact ⟨(k, t), ht, rfl⟩
    · rintro ⟨⟨k, t⟩, ht, rfl⟩
      exact ⟨(k, build t), r, ⟨t, ht, rfl⟩, rfl⟩
  same := by
    rintro m m' s r r' hm hm' done ts rest (hvalue | ⟨x, rest', hx, y, hy, hsame⟩)
    · exact .inl hvalue
    refine .inr ⟨x, rest', hx, ?_⟩
    rcases List.mem_append.mp hy with hy | hy
    · exact ⟨y, List.mem_append_left _ hy, hsame⟩
    rcases List.mem_cons.mp hy with rfl | hy
    · exact ⟨m', by simp, hm.key_eq hm' ▸ hsame⟩
    · exact ⟨y, by simp [hy], hsame⟩
  loses := by
    intro done s hs
    rw [jsonKvpFromStreamNoTrim_eq]
    have hinv := foldl_putMember_inv done
    refine Loses.shift newStringCount_shifts ?_
    refine (Loses.outcome (fun kv _ => ∃ x ∈ hmKvps (done.foldl putMember newObject),
      (done.foldl putMember newObject).SameKey x.key kv.1) (jsonKvpParts_loses h hs)
      (fun kv s' _ => ?_) fun e s' _ => ?_).iff ?_
    · refine (hmPutCount_loses hinv kv.1 kv.2 s' _).gain_congr fun hm' _ _ => ?_
      omega
    · exact Loses.shift deleteStringCount_shifts (Loses.fail (by omega))
    · simp only [foldl_putMember_sameKey_iff, jsonKvpParts_eq_ok h hs]
      refine or_congr_right ?_
      constructor
      · rintro ⟨⟨k, v⟩, rest, ⟨t, ht, -⟩, m, hm, hsame⟩
        exact ⟨(k, t), rest, ht, m, hm, hsame⟩
      · rintro ⟨⟨k, t⟩, rest, ht, m, hm, hsame⟩
        exact ⟨(k, build t), rest, ⟨t, ht, rfl⟩, m, hm, hsame⟩

/-! ## Values -/

theorem jsonListFromStreamCount_loses (h : ValueLoses N valueCount value n) (hs : s.length ≤ n) :
    Loses (jsonListFromStreamCount valueCount) (jsonListFromStreamNoTrim value) s
      (fun json => (jsonBlocks json : Int)) 0
      (∃ ts rest, ItemsBefore 0x5B (IsValue N) ts s rest ∧ RepeatsKey N rest) := by
  refine Loses.shift newJsonListCount_shifts (Loses.settled
    (itemsFromStreamCount_settles (jsonElement_loses h) (.inl rfl) hs) (fun l s' _ => ?_)
    fun l e s' => ?_)
  · refine Loses.ret ?_
    rw [jsonBlocks_list, listBlocks_nil]
    omega
  · refine Loses.shift (deleteJsonCount_shifts _) (Loses.fail ?_)
    rw [jsonBlocks_list, listBlocks_nil]
    omega

theorem jsonObjectFromStreamCount_loses (h : ValueLoses N valueCount value n) (hs : s.length ≤ n) :
    Loses (jsonObjectFromStreamCount valueCount) (jsonObjectFromStreamNoTrim value) s
      (fun json => (jsonBlocks json : Int)) 0
      (∃ members rest, ItemsBefore 0x7B (IsMember (IsValue N)) members s rest ∧
        RepeatsInMember N members rest) := by
  refine Loses.shift newJsonObjectCount_shifts (Loses.settled
    (itemsFromStreamCount_settles (jsonKvp_loses h) (.inr rfl) hs) (fun hm s' _ => ?_)
    fun hm e s' => ?_)
  · refine Loses.ret ?_
    rw [jsonBlocks_object, mapBlocks_newObject]
    omega
  · refine Loses.shift (deleteJsonCount_shifts _) (Loses.fail ?_)
    rw [jsonBlocks_object, mapBlocks_newObject]
    omega

/-- A literal, and one block for it. -/
theorem literal_keeps (cstr : Bytes) (b : Bool) (s : InStream) :
    Keeps (do
        uncounted (expectCstr cstr)
        safeMallocCount sizeofJson
        pure (.boolean b) : JsonM (Json Num))
      (do
        expectCstr cstr
        pure (.boolean b)) s (fun json => (jsonBlocks json : Int)) 0 := by
  refine Keeps.bind (Loses.uncounted (expectCstr cstr) s) fun _ s' _ => ?_
  refine Loses.shift (Shifts.malloc sizeofJson) (Loses.ret ?_)
  rw [jsonBlocks]
  rfl

/-- **A value loses blocks if a key is repeated in it**: the induction is on the fuel. -/
theorem jsonFromInStreamNoTrimCount_loses (strtod : Bytes → Num × Nat) : ∀ (fuel : Nat) (s : Bytes),
    s.length < fuel → Loses (jsonFromInStreamNoTrimCount strtod fuel)
      (jsonFromInStreamNoTrim strtod fuel) s (fun json => (jsonBlocks json : Int)) 0
      (RepeatsKey (IsBuffered strtod) s)
  | fuel + 1, s, hfuel => by
    have ih : ValueLoses (IsBuffered strtod) (jsonFromInStreamNoTrimCount strtod fuel)
        (jsonFromInStreamNoTrim strtod fuel) fuel :=
      ⟨numberBuf_numberLike, fun hs => jsonFromInStreamNoTrim_eq_ok hs,
        fun hs => jsonFromInStreamNoTrimCount_loses strtod fuel _ hs⟩
    cases s with
    | nil =>
      refine (Loses.uncounted_error (rfl : peekChar [] = .error _ [])).iff ?_
      simp only [false_iff]
      intro hrep
      obtain ⟨c, s', heq, -⟩ := hrep.starts
      cases heq
    | cons c s =>
      refine Loses.uncounted_ok (rfl : peekChar (c :: s) = .ok c (c :: s)) ?_
      by_cases hobject : c = 0x7B
      · subst hobject
        rw [if_pos rfl, if_pos rfl]
        exact (jsonObjectFromStreamCount_loses ih (Nat.le_of_lt_succ hfuel)).iff
          repeatsKey_object_iff.symm
      rw [if_neg hobject, if_neg hobject]
      by_cases hlist : c = 0x5B
      · subst hlist
        rw [if_pos rfl, if_pos rfl]
        exact (jsonListFromStreamCount_loses ih (Nat.le_of_lt_succ hfuel)).iff
          repeatsKey_list_iff.symm
      rw [if_neg hlist, if_neg hlist]
      have hnone : ¬RepeatsKey (IsBuffered strtod) (c :: s) := by
        intro hrep
        obtain ⟨c', s', heq, hc⟩ := hrep.starts
        obtain ⟨rfl, -⟩ := List.cons.inj heq
        exact hc.elim hobject hlist
      refine Loses.iff ?_ (iff_of_false not_false hnone)
      by_cases hstring : c = 0x22
      · rw [if_pos hstring, if_pos hstring]
        exact jsonStringFromInStreamCount_keeps _
      rw [if_neg hstring, if_neg hstring]
      by_cases hfalse : c = 0x66
      · rw [if_pos hfalse, if_pos hfalse]
        exact literal_keeps _ _ _
      rw [if_neg hfalse, if_neg hfalse]
      by_cases htrue : c = 0x74
      · rw [if_pos htrue, if_pos htrue]
        exact literal_keeps _ _ _
      rw [if_neg htrue, if_neg htrue]
      by_cases hnull : c = 0x6E
      · rw [if_pos hnull, if_pos hnull]
        refine Keeps.bind (Loses.uncounted _ _) fun _ s' _ => Loses.ret ?_
        rw [jsonBlocks]
        rfl
      · rw [if_neg hnull, if_neg hnull]
        exact jsonNumberFromStreamCount_keeps strtod _

/-- A document in which a key is repeated, as far as it is read. -/
def RepeatsKeyIn (N : Num → Bytes → Bytes → Prop) (is : Bytes) : Prop :=
  ∃ s, Ws is s ∧ RepeatsKey N s

theorem jsonFromInStreamCount_loses (strtod : Bytes → Num × Nat) (is : Bytes) :
    Loses (jsonFromInStreamCount strtod) (jsonFromInStream strtod) is
      (fun json => (jsonBlocks json : Int)) 0 (RepeatsKeyIn (IsBuffered strtod) is) := by
  have hvalue := withFuelCount_loses (jsonFromInStreamNoTrimCount_loses strtod
    ((trimmed is).length + 1) (trimmed is) (Nat.lt_succ_self _))
  refine (Loses.uncounted_ok (trimWs_trimmed is) hvalue).iff ?_
  constructor
  · intro h
    exact ⟨trimmed is, ws_trimmed is, h⟩
  · rintro ⟨s, hws, h⟩
    rwa [← hws.eq_trimmed h.startsItem]

/-! ## Leaks -/

/--
What is said of the counter: a parse that fails leaves it as it was, and after one that succeeds
deleting the result does.
-/
def LeaksNothing (strtod : Bytes → Num × Nat) (is : InStream) : Prop :=
  ∀ mallocCount : Int, match jsonFromInStreamCount strtod (is, mallocCount) with
    | .ok json s => ∃ s', deleteJsonCount json s = .ok () s' ∧ s'.2 = mallocCount
    | .error _ s => s.2 = mallocCount

/-- What was lost stays lost, for deletion frees what the tree owns and no more. -/
theorem leaksNothing_of_loses {strtod : Bytes → Num × Nat} {is : Bytes} {Loss : Prop}
    (h : Loses (jsonFromInStreamCount strtod) (jsonFromInStream strtod) is
      (fun json => (jsonBlocks json : Int)) 0 Loss) : LeaksNothing strtod is ↔ ¬Loss := by
  obtain ⟨lost, hlost, hrun⟩ := h
  rw [← hlost, not_not, LeaksNothing]
  simp only [hrun]
  cases jsonFromInStream strtod is with
  | error e rest =>
    constructor
    · intro h
      have hzero := h 0
      dsimp only at hzero
      omega
    · rintro rfl mallocCount
      dsimp only
      omega
  | ok json rest =>
    have hdelete : ∀ count, deleteJsonCount json (rest, count)
        = .ok () (rest, count + -jsonBlocks json) := deleteJsonCount_shifts json rest
    constructor
    · intro h
      obtain ⟨s', hrun', hcount⟩ := h 0
      rw [hdelete] at hrun'
      cases hrun'
      dsimp only at hcount
      omega
    · rintro rfl mallocCount
      refine ⟨_, hdelete _, ?_⟩
      dsimp only
      omega

/-- **Nothing leaks if and only if no key is repeated**, in no object that is read or half read. -/
theorem leaksNothing_iff (strtod : Bytes → Num × Nat) (is : InStream) :
    LeaksNothing strtod is ↔ ¬RepeatsKeyIn (IsBuffered strtod) is :=
  leaksNothing_of_loses (jsonFromInStreamCount_loses strtod is)

/-- Another `null` under the key `a`: the second key is nobody's. -/
theorem not_leaksNothing_repeated :
    ¬LeaksNothing (fun buf => (0, buf.length) : Bytes → Nat × Nat)
      ([0x7B, 0x22, 0x61, 0x22, 0x3A, 0x6E, 0x75, 0x6C, 0x6C, 0x2C] ++
        [0x22, 0x61, 0x22, 0x3A, 0x6E, 0x75, 0x6C, 0x6C, 0x7D]) := by
  rw [leaksNothing_of_loses (jsonFromInStreamCount_loses _ _), not_not]
  generalize IsBuffered (fun buf => (0, buf.length) : Bytes → Nat × Nat) = N
  have hmember : ∀ rest, IsMember (IsValue N) ([0x61], .null)
      ([0x22, 0x61, 0x22, 0x3A, 0x6E, 0x75, 0x6C, 0x6C] ++ rest) rest :=
    fun _ => .mk (.mk (.plain (by decide) (by decide) (by decide) .quote)) (.refl _) (.refl _)
      .nullText
  have hbefore : ∀ rest, ItemsBefore 0x7B (IsMember (IsValue N)) [([0x61], .null)]
      ([0x7B, 0x22, 0x61, 0x22, 0x3A, 0x6E, 0x75, 0x6C, 0x6C, 0x2C] ++ rest) rest :=
    fun _ => .later (.refl _) (hmember _) (.comma (.refl _) (.refl _))
  exact ⟨_, .refl _, .key (hbefore _) (hmember [0x7D]) List.mem_cons_self ⟨rfl, rfl⟩⟩

end Values

end Chlibs.Chjson

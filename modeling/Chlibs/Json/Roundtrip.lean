import Chlibs.Json.Denotation
import Chlibs.Json.Strings

/-!
# What is printed is parsed

The text of a tree is a document of the grammar, so the parser reads it, and it builds an equal
tree. The pairs of an object are printed in the order of the chains of its map and put into a new
map in that order.

* `items_writes` — the text of a list or an object.
* `Printable.writes` — the text of a tree.
* `jsonToString_roundtrip` — printing and parsing give an equal tree.
-/

namespace Chlibs.Chjson

open Infra Util

variable {Num α τ : Type}

/-- `rest` does not go on with a number that ends before it. -/
def EndsRun (rest : Bytes) : Prop := ∀ c ∈ rest.head?, isNumberLike c = false

/-! ## Items -/

/-- Nothing but a new line and spaces. -/
theorem ws_lineText (spaced : Bool) (tabs : Nat) (rest : Bytes) :
    Ws (lineText spaced tabs ++ rest) rest := by
  refine ⟨lineText spaced tabs, fun c hc => ?_, rfl⟩
  cases spaced with
  | false => cases hc
  | true =>
    rcases List.mem_cons.mp hc with rfl | hc
    · rfl
    · rw [List.eq_of_mem_replicate hc]
      rfl

theorem endsRun_lineText (spaced : Bool) (tabs : Nat) {c : UInt8} (hc : isNumberLike c = false)
    (rest : Bytes) : EndsRun (lineText spaced tabs ++ c :: rest) := by
  cases spaced with
  | false =>
    rintro x ⟨⟩
    exact hc
  | true =>
    rintro x ⟨⟩
    decide +kernel

section Items

variable {V : τ → Bytes → Bytes → Prop} {R : α → τ → Prop} {item : α → OutM Bytes Unit}
  {close : UInt8}

/-- A call that writes an item, and what the item says. -/
def WritesItem (V : τ → Bytes → Bytes → Prop) (p : OutM Bytes Unit) (t : τ) : Prop :=
  ∃ text, Writes p text ∧ ∀ rest, EndsRun rest → V t (text ++ rest) rest

/-- The items after the first one, each with its comma. -/
theorem itemsOut_writes (spaced : Bool) (tabs : Nat) (hclose : isNumberLike close = false) :
    ∀ {xs : List α}, (∀ x ∈ xs, ∃ t, R x t ∧ WritesItem V (item x) t) →
      ∃ text ts, Writes (itemsOut stringOutStream spaced tabs item false xs) text ∧
        List.Forall₂ R xs ts ∧ ∀ rest,
          ItemsTail close V ts (text ++ (lineText spaced tabs ++ close :: rest)) rest ∧
            EndsRun (text ++ (lineText spaced tabs ++ close :: rest))
  | [], _ => ⟨[], [], Writes.skip, .nil, fun rest =>
      ⟨.done (ws_lineText spaced tabs _), endsRun_lineText spaced tabs hclose rest⟩⟩
  | x :: xs, h => by
    obtain ⟨⟨t, hR, text, hitem, ht⟩, hxs⟩ := List.forall_mem_cons.mp h
    obtain ⟨text', ts, htail, hRs, hts⟩ := itemsOut_writes spaced tabs hclose hxs
    refine ⟨[0x2C] ++ (lineText spaced (tabs + 1) ++ (text ++ text')), t :: ts,
      (Writes.putc 0x2C).andThen ((writes_lineOut spaced (tabs + 1)).andThen
        (hitem.andThen htail)), .cons hR hRs, fun rest => ?_⟩
    obtain ⟨htail', hends⟩ := hts rest
    simp only [List.append_assoc, List.cons_append, List.nil_append]
    refine ⟨.next (Ws.refl _) (ws_lineText spaced (tabs + 1) _) (ht _ hends) htail', ?_⟩
    rintro c ⟨⟩
    decide +kernel

/-- **The text of a list or an object.** -/
theorem items_writes (start : UInt8) (spaced : Bool) (tabs : Nat) (hclose : isNumberLike close = false)
    {xs : List α} (h : ∀ x ∈ xs, ∃ t, R x t ∧ WritesItem V (item x) t) :
    ∃ ts, List.Forall₂ R xs ts ∧ WritesItem (Items start close V) (do
      osPutc stringOutStream start
      itemsOut stringOutStream spaced tabs item true xs
      lineOut stringOutStream spaced tabs
      osPutc stringOutStream close) ts := by
  have hend := (writes_lineOut spaced tabs).andThen (Writes.putc close)
  cases xs with
  | nil =>
    refine ⟨[], .nil, _, (Writes.putc start).andThen (Writes.skip.andThen hend), fun rest _ => ?_⟩
    simp only [List.append_assoc, List.cons_append, List.nil_append]
    exact .empty (ws_lineText spaced tabs _)
  | cons x xs =>
    obtain ⟨⟨t, hR, text, hitem, ht⟩, hxs⟩ := List.forall_mem_cons.mp h
    obtain ⟨text', ts, htail, hRs, hts⟩ := itemsOut_writes spaced tabs hclose hxs
    have hitems : Writes (itemsOut stringOutStream spaced tabs item true (x :: xs))
        ([] ++ (lineText spaced (tabs + 1) ++ (text ++ text'))) :=
      Writes.skip.andThen ((writes_lineOut spaced (tabs + 1)).andThen (hitem.andThen htail))
    refine ⟨t :: ts, .cons hR hRs, _, (Writes.putc start).andThen (hitems.andThen hend),
      fun rest _ => ?_⟩
    obtain ⟨htail', hends⟩ := hts rest
    simp only [List.append_assoc, List.cons_append, List.nil_append]
    exact .first (ws_lineText spaced (tabs + 1) _) (ht _ hends) htail'

end Items

/-! ## Strings -/

/-- A character that survives being printed in a string. -/
def PlainChar (c : UInt8) : Prop :=
  c ≠ 0x22 ∧ (0x20 ≤ c ∨ c ∈ ([0x08, 0x0C, 0x0A, 0x0D, 0x09] : List UInt8))

/-- A character that survives being printed in a key, where nothing is escaped. -/
def PlainKeyChar (c : UInt8) : Prop := 0x20 ≤ c ∧ c ≠ 0x22 ∧ c ≠ 0x5C

theorem zero_notMem_of_le {s : Bytes} (h : ∀ c ∈ s, PlainKeyChar c) : (0 : UInt8) ∉ s :=
  fun h0 => absurd (h 0 h0).1 (by decide)

theorem isChars_key {key : Bytes} (h : ∀ c ∈ key, PlainKeyChar c) (rest : Bytes) :
    IsChars key (key ++ 0x22 :: rest) rest := by
  induction key with
  | nil => exact .quote
  | cons c key ih =>
    obtain ⟨⟨hge, hquote, hslash⟩, hkey⟩ := List.forall_mem_cons.mp h
    exact .plain hge hquote hslash (ih hkey)

theorem PlainChar.kept {c : UInt8} (h : PlainChar c) : c ≠ 0 ∧ isIgnored c = false := by
  obtain ⟨-, hge | hcontrol⟩ := h
  · refine ⟨?_, isIgnored_of_le hge⟩
    rintro rfl
    exact absurd hge (by decide)
  · simp only [List.mem_cons, List.not_mem_nil, or_false] at hcontrol
    rcases hcontrol with rfl | rfl | rfl | rfl | rfl <;> exact ⟨by decide, by decide +kernel⟩

/-- A string of such characters is written and read back as it is. -/
theorem plainString_writes {s : Bytes} (h : ∀ c ∈ s, PlainChar c) :
    Writes (escapeStringToStream stringOutStream s) (s.flatMap escapeText) ∧
      ∀ rest, IsChars s (s.flatMap escapeText ++ 0x22 :: rest) rest := by
  have hzero : (0 : UInt8) ∉ s := fun hmem => (h 0 hmem).kept.1 rfl
  have hquote : (0x22 : UInt8) ∉ s := fun hmem => (h 0x22 hmem).1 rfl
  have hall : s.filter (!isIgnored ·) = s :=
    List.filter_eq_self.mpr fun c hc => by simp [(h c hc).kept.2]
  refine ⟨escapeString_writes hzero, fun rest => ?_⟩
  have hchars := isChars_escapeText hquote rest
  rwa [hall] at hchars

/-! ## Objects -/

/-- The text says an equal tree. -/
def Says [BEq Num] (json : Json Num) (t : JsonText Num) : Prop := jsonEquals json (build t) = true

/-- One key, and equal values. -/
def SameMember [BEq Num] (kv : KeyVal Bytes (Json Num)) (m : Bytes × JsonText Num) : Prop :=
  m.1 = kv.key ∧ Says kv.value m.2

theorem exists_of_forall₂ {R : α → τ → Prop} {xs : List α} {ts : List τ} (h : List.Forall₂ R xs ts)
    {x : α} (hx : x ∈ xs) : ∃ t ∈ ts, R x t := by
  induction h with
  | nil => cases hx
  | cons hR _ ih =>
    rcases List.mem_cons.mp hx with rfl | hx
    · exact ⟨_, List.mem_cons_self, hR⟩
    · obtain ⟨t, ht, hRt⟩ := ih hx
      exact ⟨t, List.mem_cons_of_mem _ ht, hRt⟩

/-- Keys without a NUL are compared whole. -/
theorem tellsApart_of_plain {keys : List Bytes} (h : ∀ k ∈ keys, (0 : UInt8) ∉ k) :
    (newObject : HashMap Bytes (Json Num)).TellsApart keys := by
  rw [tellsApart_iff]
  intro k hk k' hk' _ hcstr
  rwa [cString_of_notMem (h k hk), cString_of_notMem (h k' hk')] at hcstr

/-- Members with the keys of the pairs, in their order. -/
theorem map_key_of_forall₂ {R : KeyVal Bytes (Json Num) → Bytes × JsonText Num → Prop}
    (hR : ∀ kv m, R kv m → m.1 = kv.key) {kvs : List (KeyVal Bytes (Json Num))}
    {members : List (Bytes × JsonText Num)} (h : List.Forall₂ R kvs members) :
    members.map Prod.fst = kvs.map KeyVal.key := by
  induction h with
  | nil => rfl
  | cons hm _ ih => rw [List.map_cons, List.map_cons, hR _ _ hm, ih]

/-- Different keys without a NUL are all stored, each with its value. -/
theorem foldl_putMember_holds_of_nodup {members : List (Bytes × JsonText Num)}
    (hnodup : (members.map Prod.fst).Nodup) (hzero : ∀ k ∈ members.map Prod.fst, (0 : UInt8) ∉ k)
    (k : Bytes) (v : Json Num) : Holds (members.foldl putMember newObject) k v ↔
      ∃ m ∈ members, m.1 = k ∧ build m.2 = v := by
  rw [foldl_putMember_holds (tellsApart_of_plain hzero)]
  constructor
  · rintro ⟨t, ht, rfl⟩
    exact ⟨(k, t), lastValue_mem ht, rfl, rfl⟩
  · rintro ⟨m, hm, rfl, rfl⟩
    exact ⟨m.2, lastValue_of_nodup hnodup hm, rfl⟩

section Objects

variable [BEq Num] {hm : HashMap Bytes (Json Num)} {members : List (Bytes × JsonText Num)}

/-- **Putting the pairs of a map into a new one gives an equal map.** -/
theorem says_object (h : hm.Inv) (hkeys : ∀ kv ∈ hmKvps hm, (0 : UInt8) ∉ kv.key)
    (hmembers : List.Forall₂ SameMember (hmKvps hm) members) :
    Says (.object hm) (.object members) := by
  have hmap : members.map Prod.fst = (hmKvps hm).map KeyVal.key :=
    map_key_of_forall₂ (fun _ _ hsame => hsame.1) hmembers
  have hnodup : (members.map Prod.fst).Nodup := hmap ▸ h.nodup_keys
  have hzero : ∀ k ∈ members.map Prod.fst, (0 : UInt8) ∉ k := by
    rw [hmap]
    intro k hk
    obtain ⟨kv, hkv, rfl⟩ := List.mem_map.mp hk
    exact hkeys kv hkv
  have hinv := foldl_putMember_inv members
  have hperm : ((hmKvps (members.foldl putMember newObject)).map KeyVal.key).Perm
      (members.map Prod.fst) :=
    (List.perm_ext_iff_of_nodup hinv.nodup_keys hnodup).mpr (mem_keys_iff (tellsApart_of_plain hzero))
  rw [Says, build_object]
  refine jsonEquals_object.mpr ⟨?_, fun kv hkv => ?_⟩
  · have hlen := hperm.length_eq
    rw [hmap, List.length_map, List.length_map] at hlen
    rw [hmNumKeys, hmNumKeys, h.count, hinv.count, hlen]
  · obtain ⟨m, hm, hkey, heq⟩ := exists_of_forall₂ hmembers hkv
    have hholds := (foldl_putMember_holds_of_nodup hnodup hzero kv.key (build m.2)).mpr
      ⟨m, hm, hkey, rfl⟩
    exact ⟨build m.2, (hmGet_eq_some hinv _ _).mpr (hholds.binds hinv), heq⟩

end Objects

/-! ## Trees -/

/-- `%.15g` gives a text that `strtod` takes back, in at most the buffer less its NUL. -/
structure PrintsNumber [BEq Num] (fmt : Num → Bytes) (strtod : Bytes → Num × Nat) (n : Num) :
    Prop where
  nonempty : fmt n ≠ []
  short : (fmt n).length ≤ numberMaxStrWidth - 1
  like : ∀ c ∈ fmt n, isNumberLike c = true
  taken : (strtod (fmt n)).2 = (fmt n).length
  same : (n == (strtod (fmt n)).1) = true

/-- A tree of plain strings and keys, and of numbers that print. -/
inductive Printable [BEq Num] (fmt : Num → Bytes) (strtod : Bytes → Num × Nat) : Json Num → Prop
  | object {hm} : hm.Inv → (∀ kv ∈ hmKvps hm, ∀ c ∈ kv.key, PlainKeyChar c) →
    (∀ kv ∈ hmKvps hm, Printable fmt strtod kv.value) → Printable fmt strtod (.object hm)
  | list {l} : (∀ json ∈ l, Printable fmt strtod json) → Printable fmt strtod (.list l)
  | string {s} : (∀ c ∈ s, PlainChar c) → Printable fmt strtod (.string s)
  | number {n} : PrintsNumber fmt strtod n → Printable fmt strtod (.number n)
  | boolean {b} : Printable fmt strtod (.boolean b)
  | null : Printable fmt strtod .null

section Trees

variable [BEq Num] {fmt : Num → Bytes} {strtod : Bytes → Num × Nat}

/-- A number whose run fits the buffer. -/
def IsShortNumber (strtod : Bytes → Num × Nat) (n : Num) (s rest : Bytes) : Prop :=
  ∃ run, IsRun strtod n run s rest ∧ run.length ≤ numberMaxStrWidth

/-- The tree is written as a text that says an equal tree. -/
def WritesTree (fmt : Num → Bytes) (strtod : Bytes → Num × Nat) (spaced : Bool) (json : Json Num) :
    Prop := ∀ tabs, ∃ t, Says json t ∧
      WritesItem (IsValue (IsShortNumber strtod))
        (jsonToStreamHelper fmt stringOutStream spaced json tabs) t

omit [BEq Num] in
/-- A member, of whose value something is said. -/
theorem member_writes {N : Num → Bytes → Bytes → Prop} {P : JsonText Num → Prop} {spaced : Bool}
    {kv : KeyVal Bytes (Json Num)} {p : OutM Bytes Unit} (hkey : ∀ c ∈ kv.key, PlainKeyChar c)
    (h : ∃ t, P t ∧ WritesItem (IsValue N) p t) :
    ∃ m : Bytes × JsonText Num, (m.1 = kv.key ∧ P m.2) ∧ WritesItem (IsMember (IsValue N)) (do
      keyOut stringOutStream spaced kv.key
      ignoreState p) m := by
  obtain ⟨t, hsays, text, hwrites, ht⟩ := h
  refine ⟨(kv.key, t), ⟨rfl, hsays⟩, _,
    (writes_keyOut spaced (zero_notMem_of_le hkey)).andThen hwrites.ignore, fun rest hrest => ?_⟩
  have hspace : Ws ((if spaced then [0x20] else []) ++ (text ++ rest)) (text ++ rest) := by
    cases spaced with
    | false => exact Ws.refl _
    | true => exact ⟨[0x20], by decide +kernel, rfl⟩
  simp only [keyText, List.append_assoc, List.cons_append]
  exact .mk (.mk (isChars_key hkey _)) (Ws.refl _) hspace (ht rest hrest)

/-- **The text of a tree**: the induction is on the tree, for every depth of tabs. -/
theorem Printable.writes (spaced : Bool) {json : Json Num} (h : Printable fmt strtod json) :
    WritesTree fmt strtod spaced json := by
  induction h with
  | @object hm hinv hkeys _ ih =>
    intro tabs
    -- Members are written one by one. What each says is not known until all are.
    have hitem : ∀ kv ∈ (hmKvps hm).attach, ∃ m, SameMember kv.1 m ∧
        WritesItem (IsMember (IsValue (IsShortNumber strtod))) (do
          keyOut stringOutStream spaced kv.1.key
          ignoreState (jsonToStreamHelper fmt stringOutStream spaced kv.1.value (tabs + 1))) m :=
      fun kv _ => member_writes (hkeys kv.1 kv.2) (ih kv.1 kv.2 (tabs + 1))
    have hclose : isNumberLike 0x7D = false := by decide +kernel
    obtain ⟨members, hmembers, text, htext, hitems⟩ :=
      items_writes 0x7B spaced tabs hclose hitem
    rw [← List.forall₂_map_left_iff (f := Subtype.val), List.attach_map_subtype_val] at hmembers
    refine ⟨.object members, says_object hinv
      (fun kv hkv => zero_notMem_of_le (hkeys kv hkv)) hmembers, ?_⟩
    rw [jsonToStreamHelper]
    exact ⟨text, htext, fun rest hrest => .object (hitems rest hrest)⟩
  | @list l _ ih =>
    intro tabs
    have hitem : ∀ json ∈ l.attach, ∃ t, Says json.1 t ∧
        WritesItem (IsValue (IsShortNumber strtod)) (ignoreState
          (jsonToStreamHelper fmt stringOutStream spaced json.1 (tabs + 1))) t := by
      intro json _
      obtain ⟨t, heq, text, htext, ht⟩ := ih json.1 json.2 (tabs + 1)
      exact ⟨t, heq, text, htext.ignore, ht⟩
    have hclose : isNumberLike 0x5D = false := by decide +kernel
    obtain ⟨elements, helements, text, htext, hitems⟩ :=
      items_writes 0x5B spaced tabs hclose hitem
    rw [← List.forall₂_map_left_iff (f := Subtype.val), List.attach_map_subtype_val] at helements
    refine ⟨.list elements, ?_, ?_⟩
    · rw [Says, build_list]
      exact jsonEquals_list.mpr (List.forall₂_map_right_iff.mpr helements)
    · rw [jsonToStreamHelper]
      exact ⟨text, htext, fun rest hrest => .list (hitems rest hrest)⟩
  | @string s hs =>
    intro tabs
    obtain ⟨hwrites, htext⟩ := plainString_writes hs
    have hall := (Writes.putc 0x22).andThen (hwrites.andThen (Writes.putc 0x22))
    refine ⟨.string s, ?_, ?_⟩
    · rw [Says, build, jsonEquals, sEquals, beq_self_eq_true]
    · rw [jsonToStreamHelper]
      refine ⟨_, hall, fun rest _ => ?_⟩
      simp only [List.append_assoc, List.cons_append, List.nil_append]
      exact .string (.mk (htext rest))
  | @number n hn =>
    intro tabs
    have hzero : (0 : UInt8) ∉ fmt n := fun h0 => absurd (hn.like 0 h0) (by decide +kernel)
    refine ⟨.number (strtod (fmt n)).1, ?_, ?_⟩
    · rw [Says, build, jsonEquals]
      exact hn.same
    · rw [jsonToStreamHelper, List.take_of_length_le hn.short]
      refine ⟨_, Writes.puts _ hzero, fun rest hrest => .number ⟨fmt n, ?_, ?_⟩⟩
      · exact ⟨hn.nonempty, hn.like, rfl, hrest, Prod.ext rfl hn.taken⟩
      · exact hn.short.trans (Nat.sub_le _ _)
  | @boolean b =>
    intro tabs
    refine ⟨.boolean b, ?_, ?_⟩
    · rw [Says, build, jsonEquals, beq_self_eq_true]
    · rw [jsonToStreamHelper]
      cases b with
      | false => exact ⟨_, Writes.puts _ (by decide), fun _ _ => .falseText⟩
      | true => exact ⟨_, Writes.puts _ (by decide), fun _ _ => .trueText⟩
  | null =>
    intro tabs
    refine ⟨.null, ?_, ?_⟩
    · rw [Says, build, jsonEquals]
    · rw [jsonToStreamHelper]
      exact ⟨_, Writes.puts _ (by decide), fun _ _ => .nullText⟩

/-- **Printing and parsing give an equal tree**, and nothing is left of the text. -/
theorem jsonToString_roundtrip (fmt : Num → Bytes) (strtod : Bytes → Num × Nat) {json : Json Num}
    (h : Printable fmt strtod json) (spaced : Bool) :
    ∃ json', jsonFromInStream strtod (jsonToString fmt json spaced) = .ok json' [] ∧
      jsonEquals json json' = true := by
  obtain ⟨t, hsays, text, hwrites, htext⟩ := h.writes spaced 0
  have hstring : jsonToString fmt json spaced = text := by
    rw [jsonToString, hwrites]
    rfl
  have hdocument : IsDocument (IsShortNumber strtod) t text [] := by
    have hvalue := htext [] (by rintro c ⟨⟩)
    rw [List.append_nil] at hvalue
    exact ⟨text, Ws.refl _, hvalue⟩
  refine ⟨build t, ?_, hsays⟩
  rw [hstring]
  have hN : NumberTokens strtod (IsShortNumber strtod) := fun _ _ _ ⟨run, hrun, _⟩ => ⟨run, hrun⟩
  refine jsonFromInStream_complete hN.numberLike ?_ hdocument
  rintro n s r _ ⟨run, hrun, hshort⟩
  exact jsonNumber_complete hrun hshort

end Trees

/-! ### One tree -/

/-- `%.15g`, on whole numbers. -/
def fmtDigits (n : Nat) : Bytes := (Nat.toDigits 10 n).map fun c => UInt8.ofNat c.toNat

/-- An object with one list, of every other kind of tree. -/
def sampleJson : Json Nat :=
  .object (hmPut newObject [0x6B, 0xC3, 0xA9]
    (.list [.string [0x5C, 0x0A, 0xFF], .number 7, .boolean true, .null, .list []]))

theorem printable_sampleJson : Printable fmtDigits strtodDigits sampleJson := by
  have hchars : ∀ c ∈ ([0x5C, 0x0A, 0xFF] : Bytes), PlainChar c := by
    unfold PlainChar
    decide +kernel
  have hkey : ∀ c ∈ ([0x6B, 0xC3, 0xA9] : Bytes), PlainKeyChar c := by
    unfold PlainKeyChar
    decide +kernel
  have hnumber : PrintsNumber fmtDigits strtodDigits 7 :=
    ⟨by decide +kernel, by decide +kernel, by decide +kernel, by decide +kernel, by decide +kernel⟩
  refine .object (hmPut_step newObject_inv _ _).1 (fun kv hkv => ?_) fun kv hkv => ?_
  · cases List.mem_singleton.mp hkv
    exact hkey
  · cases List.mem_singleton.mp hkv
    refine .list ?_
    simp only [List.forall_mem_cons]
    exact ⟨.string hchars, .number hnumber, .boolean, .null, .list (by simp), by simp⟩

theorem jsonToString_roundtrip_sampleJson :
    ∃ json', jsonFromInStream strtodDigits (jsonToString fmtDigits sampleJson true)
      = .ok json' [] ∧ jsonEquals sampleJson json' = true :=
  jsonToString_roundtrip fmtDigits strtodDigits printable_sampleJson true

end Chlibs.Chjson

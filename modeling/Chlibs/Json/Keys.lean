import Chlibs.Json.Roundtrip

/-!
# Keys through the printer and the parser

A key is printed as it is, and read as a string with escapes. Objects of booleans and nulls show
what becomes of it: the text of such an object has one reading only, and a key with a backslash is
read as a shorter one.

* `IsChars.of_key` — what a printed key is read as.
* `items_of_objectText` — the members of a printed object.
* `keepsKeys_iff` — when an object comes back with its keys.
-/

namespace Chlibs.Chjson

open Infra Util

variable {Num : Type}

/-! ## One key -/

theorem utf8Of_length_le (n : Nat) : (utf8Of n).length ≤ 3 := by
  unfold utf8Of
  split
  · simp
  · split <;> simp

/-- Digits and letters. -/
theorem isHexDigit_ne {c : UInt8} (h : isHexDigit c = true) : 0x20 ≤ c ∧ c ≠ 0x22 := by
  constructor
  · by_contra hc
    have hcontrol := (charVal_control c).mpr (UInt8.not_le.mp hc)
    simp only [isHexDigit, Bool.or_eq_true, Bool.and_eq_true, decide_eq_true_eq] at h
    omega
  · rintro rfl
    exact absurd h (by decide +kernel)

theorem escapes_ne {letter c : UInt8} (h : (letter, c) ∈ escapes) :
    0x20 ≤ letter ∧ letter ≠ 0x22 := by
  simp only [escapes, List.mem_cons, Prod.mk.injEq, List.not_mem_nil, or_false] at h
  rcases h with h | h | h | h | h | h | h <;> rw [h.1] <;> decide

/-- What is left of a key that was read: no control character, and shorter where it has escapes. -/
structure ReadAs (key str : Bytes) : Prop where
  printable : ∀ c ∈ key, 0x20 ≤ c
  length_le : str.length ≤ key.length
  length_lt : 0x5C ∈ key → str.length < key.length

/-- **A key without a quote is read to its end.** -/
theorem IsChars.of_key {str s rest : Bytes} (h : IsChars str s rest) : ∀ {key tail : Bytes},
    s = key ++ 0x22 :: tail → (0x22 : UInt8) ∉ key → rest = tail ∧ ReadAs key str := by
  induction h with
  | quote =>
    intro key tail heq hquote
    cases key with
    | nil =>
      cases heq
      exact ⟨rfl, by simp, le_refl _, by simp⟩
    | cons c key =>
      cases heq
      exact absurd List.mem_cons_self hquote
  | plain hge hne hslash _ ih =>
    intro key tail heq hquote
    cases key with
    | nil =>
      cases heq
      exact absurd rfl hne
    | cons c key =>
      obtain ⟨rfl, rfl⟩ := List.cons.inj heq
      obtain ⟨rfl, hprintable, hle, hlt⟩ := ih rfl fun hmem => hquote (List.mem_cons_of_mem _ hmem)
      refine ⟨rfl, List.forall_mem_cons.mpr ⟨hge, hprintable⟩, Nat.succ_le_succ hle, ?_⟩
      intro hmem
      exact Nat.succ_lt_succ (hlt ((List.mem_cons.mp hmem).resolve_left (Ne.symm hslash)))
  | @escape letter c str s rest hescape _ ih =>
    intro key tail heq hquote
    obtain ⟨hge, hne⟩ := escapes_ne hescape
    match key with
    | [] => cases heq
    | [_] =>
      cases heq
      exact absurd rfl hne
    | _ :: _ :: key =>
      obtain ⟨rfl, hrest⟩ := List.cons.inj heq
      obtain ⟨rfl, rfl⟩ := List.cons.inj hrest
      obtain ⟨rfl, hprintable, hle, -⟩ := ih rfl fun hmem =>
        hquote (List.mem_cons_of_mem _ (List.mem_cons_of_mem _ hmem))
      refine ⟨rfl, ?_, ?_, fun _ => ?_⟩
      · exact List.forall_mem_cons.mpr ⟨by decide, List.forall_mem_cons.mpr ⟨hge, hprintable⟩⟩
      · simp only [List.length_cons]
        omega
      · simp only [List.length_cons]
        omega
  | @unicode digits str s rest hlen hhex _ ih =>
    intro key tail heq hquote
    match key with
    | [] => cases heq
    | [_] => cases heq
    | _ :: _ :: key =>
      obtain ⟨rfl, hrest⟩ := List.cons.inj heq
      obtain ⟨rfl, htext⟩ := List.cons.inj hrest
      -- The digits are in front of the quote, since there is none among them.
      obtain ⟨key', rfl, rfl⟩ : ∃ key', key = digits ++ key' ∧ s = key' ++ 0x22 :: tail := by
        rcases List.append_eq_append_iff.mp htext with ⟨as, hkey, hs⟩ | ⟨bs, hdigits, hs⟩
        · exact ⟨as, hkey, hs⟩
        · cases bs with
          | nil =>
            refine ⟨[], ?_, hs.symm⟩
            rw [hdigits, List.append_nil, List.append_nil]
          | cons b bs =>
            obtain ⟨rfl, -⟩ := List.cons.inj hs
            have hmem : 0x22 ∈ digits := by
              rw [hdigits]
              exact List.mem_append_right _ List.mem_cons_self
            exact absurd rfl (isHexDigit_ne (hhex _ hmem)).2
      obtain ⟨rfl, hprintable, hle, -⟩ := ih rfl fun hmem => hquote
        (List.mem_cons_of_mem _ (List.mem_cons_of_mem _ (List.mem_append_right _ hmem)))
      have hutf8 := utf8Of_length_le (hexValue digits)
      refine ⟨rfl, ?_, ?_, fun _ => ?_⟩
      · intro c hc
        rcases List.mem_cons.mp hc with rfl | hc
        · decide
        rcases List.mem_cons.mp hc with rfl | hc
        · decide
        rcases List.mem_append.mp hc with hc | hc
        · exact (isHexDigit_ne (hhex c hc)).1
        · exact hprintable c hc
      · simp only [List.length_cons, List.length_append]
        omega
      · simp only [List.length_cons, List.length_append]
        omega

/-! ## Objects of booleans and nulls -/

/-- The text of a boolean or a null. -/
def flatText : Json Num → Option Bytes
  | .boolean true => some [0x74, 0x72, 0x75, 0x65]
  | .boolean false => some [0x66, 0x61, 0x6C, 0x73, 0x65]
  | .null => some [0x6E, 0x75, 0x6C, 0x6C]
  | _ => none

/-- A boolean or a null. -/
def IsFlat (json : Json Num) : Prop := (flatText json).isSome

section Flat

variable {N : Num → Bytes → Bytes → Prop} {json : Json Num}

theorem flat_writes (fmt : Num → Bytes) (spaced : Bool) (tabs : Nat) {text : Bytes}
    (h : flatText json = some text) :
    Writes (jsonToStreamHelper fmt stringOutStream spaced json tabs) text := by
  rcases json with _ | _ | _ | _ | ⟨_ | _⟩ | _ <;> cases h <;> rw [jsonToStreamHelper] <;>
    exact Writes.puts _ (by decide)

/-- A boolean or a null has one reading. -/
theorem IsValue.of_flatText (hN : NumberLike N) {text : Bytes} (hflat : flatText json = some text)
    {t : JsonText Num} {tail rest : Bytes} (h : IsValue N t (text ++ tail) rest) :
    rest = tail ∧ build t = json := by
  have hnumber : ∀ {n}, N n (text ++ tail) rest → False := by
    intro n hn
    obtain ⟨-, c, s, hs, hc⟩ := hN _ _ _ hn
    obtain ⟨-, -, -, -, -, -, hfalse, htrue, hnull⟩ := isNumberLike_ne hc
    rcases json with _ | _ | _ | _ | ⟨_ | _⟩ | _ <;> cases hflat <;>
      obtain ⟨rfl, -⟩ := List.cons.inj hs <;> contradiction
  rcases json with _ | _ | _ | _ | ⟨_ | _⟩ | _ <;> cases hflat <;> cases h <;>
    first
    | exact ⟨rfl, by rw [build]⟩
    | exact absurd ‹N _ _ _› hnumber
    | obtain ⟨_, hs⟩ := (‹Items _ _ _ _ _ _› : Items _ _ _ _ _ _).exists_cons; cases hs
    | cases ‹IsString _ _ _›

end Flat

/-! ## The text of an object -/

/-- A key and a boolean or a null. -/
def memberText (spaced : Bool) (kv : KeyVal Bytes (Json Num)) : Bytes :=
  keyText spaced kv.key ++ (flatText kv.value).getD []

section Items

variable {α : Type}

/-- The items after the first one. -/
def tailText (spaced : Bool) (text : α → Bytes) (xs : List α) : Bytes :=
  xs.flatMap fun x => 0x2C :: (lineText spaced 1 ++ text x)

/-- All of the items. -/
def itemsText (spaced : Bool) (text : α → Bytes) : List α → Bytes
  | [] => []
  | x :: xs => lineText spaced 1 ++ (text x ++ tailText spaced text xs)

variable {item : α → OutM Bytes Unit} {text : α → Bytes}

theorem itemsOut_writes_tail (spaced : Bool) : ∀ {xs : List α},
    (∀ x ∈ xs, Writes (item x) (text x)) →
    Writes (itemsOut stringOutStream spaced 0 item false xs) (tailText spaced text xs)
  | [], _ => Writes.skip
  | x :: xs, h => by
    obtain ⟨hx, hxs⟩ := List.forall_mem_cons.mp h
    have hall := (Writes.putc 0x2C).andThen ((writes_lineOut spaced 1).andThen
      (hx.andThen (itemsOut_writes_tail spaced hxs)))
    simp only [List.cons_append, List.nil_append] at hall
    rw [tailText, List.flatMap_cons, List.cons_append, List.append_assoc]
    exact hall

theorem itemsOut_writes_text (spaced : Bool) {xs : List α}
    (h : ∀ x ∈ xs, Writes (item x) (text x)) :
    Writes (itemsOut stringOutStream spaced 0 item true xs) (itemsText spaced text xs) := by
  cases xs with
  | nil => exact Writes.skip
  | cons x xs =>
    obtain ⟨hx, hxs⟩ := List.forall_mem_cons.mp h
    exact Writes.skip.andThen ((writes_lineOut spaced 1).andThen
      (hx.andThen (itemsOut_writes_tail spaced hxs)))

theorem itemsText_attach (spaced : Bool) (text : α → Bytes) (xs : List α) :
    itemsText spaced (fun x : { x // x ∈ xs } => text x.1) xs.attach = itemsText spaced text xs := by
  have hmap : ∀ (P : α → Prop) (ys : List { x // P x }),
      itemsText spaced (fun x : { x // P x } => text x.1) ys
        = itemsText spaced text (ys.map Subtype.val) := by
    intro P ys
    cases ys with
    | nil => rfl
    | cons y ys => rw [List.map_cons, itemsText, itemsText, tailText, tailText, List.flatMap_map]
  rw [hmap, List.attach_map_subtype_val]

end Items

theorem jsonToString_object (fmt : Num → Bytes) (spaced : Bool) {hm : HashMap Bytes (Json Num)}
    (hkeys : ∀ kv ∈ hmKvps hm, (0 : UInt8) ∉ kv.key) (hflat : ∀ kv ∈ hmKvps hm, IsFlat kv.value) :
    jsonToString fmt (.object hm) spaced
      = 0x7B :: (itemsText spaced (memberText spaced) (hmKvps hm) ++ (lineText spaced 0 ++ [0x7D])) := by
  have hitem : ∀ kv ∈ (hmKvps hm).attach, Writes (do
      keyOut stringOutStream spaced kv.1.key
      ignoreState (jsonToStreamHelper fmt stringOutStream spaced kv.1.value (0 + 1)))
      (memberText spaced kv.1) := by
    intro kv _
    obtain ⟨text, htext⟩ := Option.isSome_iff_exists.mp (hflat kv.1 kv.2)
    rw [memberText, htext, Option.getD_some]
    exact (writes_keyOut spaced (hkeys kv.1 kv.2)).andThen (flat_writes fmt spaced _ htext).ignore
  have hall := (Writes.putc 0x7B).andThen ((itemsOut_writes_text spaced hitem).andThen
    ((writes_lineOut spaced 0).andThen (Writes.putc 0x7D)))
  rw [jsonToString, jsonToStreamHelper, hall [], itemsText_attach]
  rfl

/-! ## The reading of an object -/

/-- A member that was printed and read. -/
def ReadMember (kv : KeyVal Bytes (Json Num)) (m : Bytes × JsonText Num) : Prop :=
  ReadAs kv.key m.1 ∧ build m.2 = kv.value

section Reading

variable {N : Num → Bytes → Bytes → Prop} {spaced : Bool}

theorem IsMember.of_memberText (hN : NumberLike N) {kv : KeyVal Bytes (Json Num)}
    (hquote : (0x22 : UInt8) ∉ kv.key) (hflat : IsFlat kv.value) {m : Bytes × JsonText Num}
    {tail rest : Bytes} (h : IsMember (IsValue N) m (memberText spaced kv ++ tail) rest) :
    rest = tail ∧ ReadMember kv m := by
  obtain ⟨text, htext⟩ := Option.isSome_iff_exists.mp hflat
  rw [memberText, htext, Option.getD_some, keyText] at h
  simp only [List.append_assoc, List.cons_append] at h
  obtain ⟨⟨hchars⟩, hcolon, hws, ht⟩ := h
  obtain ⟨rfl, hread⟩ := hchars.of_key rfl hquote
  obtain ⟨-, rfl⟩ := (Ws.refl _).unique hcolon (by decide +kernel) (by decide +kernel)
  have hspace : Ws ((if spaced then [0x20] else []) ++ (text ++ tail)) (text ++ tail) := by
    cases spaced with
    | false => exact Ws.refl _
    | true => exact ⟨[0x20], by decide +kernel, rfl⟩
  obtain ⟨c, s', rfl, hc, -, -⟩ := ht.starts hN
  obtain ⟨d, text', rfl, hd⟩ : ∃ d text', text = d :: text' ∧ isWhitespace d = false := by
    generalize kv.value = json at htext
    rcases json with _ | _ | _ | _ | ⟨_ | _⟩ | _ <;> cases htext <;>
      exact ⟨_, _, rfl, by decide +kernel⟩
  obtain ⟨rfl, rfl⟩ := hws.unique hspace hc hd
  have ht' : IsValue N _ ((c :: text') ++ tail) _ := ht
  obtain ⟨rfl, hbuild⟩ := IsValue.of_flatText hN htext ht'
  exact ⟨rfl, hread, hbuild⟩

theorem ItemsTail.of_tailText (hN : NumberLike N) : ∀ {kvs : List (KeyVal Bytes (Json Num))}
    {ms : List (Bytes × JsonText Num)} {rest : Bytes}, (∀ kv ∈ kvs, (0x22 : UInt8) ∉ kv.key) →
    (∀ kv ∈ kvs, IsFlat kv.value) →
    ItemsTail 0x7D (IsMember (IsValue N)) ms (tailText spaced (memberText spaced) kvs ++
      (lineText spaced 0 ++ [0x7D])) rest → List.Forall₂ ReadMember kvs ms
  | [], ms, rest, _, _, h => by
    have hend := ws_lineText spaced 0 [0x7D]
    cases h with
    | done _ => exact .nil
    | next hcomma _ _ _ =>
      obtain ⟨hne, -⟩ := hend.unique hcomma (by decide +kernel) (by decide +kernel)
      exact absurd hne (by decide)
  | kv :: kvs, ms, rest, hquote, hflat, h => by
    obtain ⟨hq, hqs⟩ := List.forall_mem_cons.mp hquote
    obtain ⟨hf, hfs⟩ := List.forall_mem_cons.mp hflat
    rw [tailText, List.flatMap_cons] at h
    simp only [List.append_assoc, List.cons_append] at h
    cases h with
    | done hend =>
      obtain ⟨hne, -⟩ := (Ws.refl _).unique hend (by decide +kernel) (by decide +kernel)
      exact absurd hne (by decide)
    | next hcomma hws hm htail =>
      obtain ⟨-, rfl⟩ := (Ws.refl _).unique hcomma (by decide +kernel) (by decide +kernel)
      obtain ⟨c, s', rfl, hc, -, -⟩ := hm.starts
      obtain ⟨rfl, rfl⟩ := hws.unique (ws_lineText spaced 1 _) hc (d := 0x22) (by decide +kernel)
      obtain ⟨rfl, hread⟩ := IsMember.of_memberText hN hq hf hm
      exact .cons hread (ItemsTail.of_tailText hN hqs hfs htail)

/-- **A printed object has one reading**: member by member. -/
theorem items_of_objectText (hN : NumberLike N) {kvs : List (KeyVal Bytes (Json Num))}
    {ms : List (Bytes × JsonText Num)} {rest : Bytes} (hquote : ∀ kv ∈ kvs, (0x22 : UInt8) ∉ kv.key)
    (hflat : ∀ kv ∈ kvs, IsFlat kv.value)
    (h : Items 0x7B 0x7D (IsMember (IsValue N)) ms
      (0x7B :: (itemsText spaced (memberText spaced) kvs ++ (lineText spaced 0 ++ [0x7D]))) rest) :
    List.Forall₂ ReadMember kvs ms := by
  cases kvs with
  | nil =>
    cases h with
    | empty _ => exact .nil
    | first hws hm _ =>
      obtain ⟨c, s', rfl, hc, -, hne⟩ := hm.starts
      exact absurd (hws.unique (ws_lineText spaced 0 _) hc (by decide +kernel)).1 hne
  | cons kv kvs =>
    obtain ⟨hq, hqs⟩ := List.forall_mem_cons.mp hquote
    obtain ⟨hf, hfs⟩ := List.forall_mem_cons.mp hflat
    simp only [itemsText, List.append_assoc] at h
    cases h with
    | empty hend =>
      have hkey := ws_lineText spaced 1 (memberText spaced kv ++
        (tailText spaced (memberText spaced) kvs ++ (lineText spaced 0 ++ [0x7D])))
      exact absurd (hkey.unique hend (c := 0x22) (by decide +kernel) (by decide +kernel)).1 (by decide)
    | first hws hm htail =>
      obtain ⟨c, s', rfl, hc, -, -⟩ := hm.starts
      obtain ⟨rfl, rfl⟩ := hws.unique (ws_lineText spaced 1 _) hc (d := 0x22) (by decide +kernel)
      obtain ⟨rfl, hread⟩ := IsMember.of_memberText hN hq hf hm
      exact .cons hread (ItemsTail.of_tailText hN hqs hfs htail)

end Reading

/-! ## The keys that come back -/

/-- A map made of members has no keys but theirs. -/
theorem mem_of_mem_foldl (ms : List (Bytes × JsonText Num)) :
    ∀ kv ∈ hmKvps (ms.foldl putMember newObject), kv.key ∈ ms.map Prod.fst := by
  induction ms using List.reverseRecOn with
  | nil =>
    intro kv hkv
    rw [List.foldl_nil, newObject, hmKvps_newHashMap] at hkv
    cases hkv
  | append_singleton ms m ih =>
    intro kv hkv
    rw [List.foldl_append] at hkv
    obtain ⟨-, -, hstep⟩ := hmPut_step (foldl_putMember_inv ms) m.1 (build m.2)
    rw [List.map_append, List.mem_append]
    rcases hstep with ⟨old, rest, -, hold, hnew⟩ | ⟨-, hnew⟩
    · left
      rcases List.mem_cons.mp (hnew.mem_iff.mp hkv) with rfl | hrest
      · exact ih old (hold.mem_iff.mpr List.mem_cons_self)
      · exact ih kv (hold.mem_iff.mpr (List.mem_cons_of_mem _ hrest))
    · rcases List.mem_cons.mp (hnew.mem_iff.mp hkv) with rfl | hrest
      · right
        simp
      · exact .inl (ih kv hrest)

/-- The length of all keys together. -/
def totalLength (keys : List Bytes) : Nat := (keys.map List.length).sum

theorem totalLength_le_of_subperm {keys keys' : List Bytes} (h : keys.Subperm keys') :
    totalLength keys ≤ totalLength keys' := by
  obtain ⟨l, hperm, hsub⟩ := h
  have hle := (hsub.map List.length).sum_le_sum fun n _ => Nat.zero_le n
  rwa [(hperm.map List.length).sum_eq] at hle

/-- Reading makes keys shorter where they have a backslash. -/
theorem totalLength_of_readMember {kvs : List (KeyVal Bytes (Json Num))}
    {ms : List (Bytes × JsonText Num)} (h : List.Forall₂ ReadMember kvs ms) :
    totalLength (ms.map Prod.fst) ≤ totalLength (kvs.map KeyVal.key) ∧
      ((∃ kv ∈ kvs, 0x5C ∈ kv.key) →
        totalLength (ms.map Prod.fst) < totalLength (kvs.map KeyVal.key)) := by
  induction h with
  | nil => exact ⟨le_refl _, by simp⟩
  | @cons kv m kvs ms hm _ ih =>
    obtain ⟨⟨-, hle, hlt⟩, -⟩ := hm
    obtain ⟨hle', hlt'⟩ := ih
    simp only [totalLength, List.map_cons, List.sum_cons] at hle' hlt' ⊢
    refine ⟨Nat.add_le_add hle hle', ?_⟩
    rintro ⟨x, hx, hslash⟩
    rcases List.mem_cons.mp hx with rfl | hx
    · exact Nat.add_lt_add_of_lt_of_le (hlt hslash) hle'
    · exact Nat.add_lt_add_of_le_of_lt hle (hlt' ⟨x, hx, hslash⟩)

/-- The text of the object is accepted and gives an object of the same keys and values. -/
def KeepsKeys (fmt : Num → Bytes) (strtod : Bytes → Num × Nat) (hm : HashMap Bytes (Json Num))
    (spaced : Bool) : Prop :=
  ∃ hm', jsonFromInStream strtod (jsonToString fmt (.object hm) spaced) = .ok (.object hm') [] ∧
    ∀ k v, Holds hm' k v ↔ Holds hm k v

/-- What is read of a printed object, if anything is. -/
theorem jsonFromInStream_objectText {fmt : Num → Bytes} {strtod : Bytes → Num × Nat}
    {hm : HashMap Bytes (Json Num)} {spaced : Bool}
    (hkeys : ∀ kv ∈ hmKvps hm, ∀ c ∈ kv.key, PlainChar c)
    (hflat : ∀ kv ∈ hmKvps hm, IsFlat kv.value) {json : Json Num} {rest : Bytes}
    (h : jsonFromInStream strtod (jsonToString fmt (.object hm) spaced) = .ok json rest) :
    ∃ ms, json = .object (ms.foldl putMember newObject) ∧
      List.Forall₂ ReadMember (hmKvps hm) ms := by
  have hzero : ∀ kv ∈ hmKvps hm, (0 : UInt8) ∉ kv.key := fun kv hkv hmem =>
    (hkeys kv hkv 0 hmem).kept.1 rfl
  have hquote : ∀ kv ∈ hmKvps hm, (0x22 : UInt8) ∉ kv.key := fun kv hkv hmem =>
    (hkeys kv hkv 0x22 hmem).1 rfl
  rw [jsonToString_object fmt spaced hzero hflat] at h
  obtain ⟨t, ⟨s, hws, ht⟩, rfl⟩ := jsonFromInStream_eq_ok.mp h
  obtain ⟨c, s', rfl, hc, -, -⟩ := ht.starts numberBuf_numberLike
  obtain ⟨rfl, rfl⟩ := hws.unique (Ws.refl _) hc (by decide +kernel)
  generalize hs : (0x7B : UInt8) :: _ = s at ht
  cases ht with
  | @object ms _ _ hitems =>
    subst hs
    exact ⟨ms, build_object ms, items_of_objectText numberBuf_numberLike hquote hflat hitems⟩
  | list hitems =>
    obtain ⟨_, rfl⟩ := hitems.exists_cons
    cases hs
  | string hstr =>
    cases hstr
    cases hs
  | number hn =>
    obtain ⟨-, c, s', rfl, hc⟩ := numberBuf_numberLike _ _ _ hn
    obtain ⟨rfl, -⟩ := List.cons.inj hs
    exact absurd hc (by decide +kernel)
  | trueText => cases hs
  | falseText => cases hs
  | nullText => cases hs

/-- Keys that come back have neither backslashes nor control characters. -/
theorem KeepsKeys.plain {fmt : Num → Bytes} {strtod : Bytes → Num × Nat}
    {hm : HashMap Bytes (Json Num)} {spaced : Bool} (hinv : hm.Inv)
    (hkeys : ∀ kv ∈ hmKvps hm, ∀ c ∈ kv.key, PlainChar c)
    (hflat : ∀ kv ∈ hmKvps hm, IsFlat kv.value) (h : KeepsKeys fmt strtod hm spaced) :
    ∀ kv ∈ hmKvps hm, ∀ c ∈ kv.key, 0x20 ≤ c ∧ c ≠ 0x5C := by
  obtain ⟨hm', hparse, hholds⟩ := h
  obtain ⟨ms, hjson, hread⟩ := jsonFromInStream_objectText hkeys hflat hparse
  cases hjson
  have hmem : ∀ k, k ∈ (hmKvps (ms.foldl putMember newObject)).map KeyVal.key ↔
      k ∈ (hmKvps hm).map KeyVal.key := by
    intro k
    simp only [List.mem_map]
    constructor
    · rintro ⟨kv, hkv, rfl⟩
      obtain ⟨x, hx, hkey, -⟩ := (hholds _ _).mp ⟨kv, hkv, rfl, rfl⟩
      exact ⟨x, hx, hkey⟩
    · rintro ⟨kv, hkv, rfl⟩
      obtain ⟨x, hx, hkey, -⟩ := (hholds _ _).mpr ⟨kv, hkv, rfl, rfl⟩
      exact ⟨x, hx, hkey⟩
  have hnodup := (foldl_putMember_inv ms).nodup_keys
  have hperm := (List.perm_ext_iff_of_nodup hnodup hinv.nodup_keys).mpr hmem
  have hsub : (hmKvps (ms.foldl putMember newObject)).map KeyVal.key ⊆ ms.map Prod.fst := by
    intro k hk
    obtain ⟨kv, hkv, rfl⟩ := List.mem_map.mp hk
    exact mem_of_mem_foldl ms kv hkv
  -- As many characters come back as there were, so no key got shorter.
  have hle := totalLength_le_of_subperm (hnodup.subperm hsub)
  have hsame := totalLength_le_of_subperm hperm.symm.subperm
  obtain ⟨-, hshorter⟩ := totalLength_of_readMember hread
  intro kv hkv c hc
  obtain ⟨m, -, hm⟩ := exists_of_forall₂ hread hkv
  refine ⟨hm.1.printable c hc, ?_⟩
  rintro rfl
  have hlt := hshorter ⟨kv, hkv, hc⟩
  omega

/-- One key and one value. -/
def SamePair (kv : KeyVal Bytes (Json Num)) (m : Bytes × JsonText Num) : Prop :=
  m.1 = kv.key ∧ build m.2 = kv.value

/-- Plain keys come back. -/
theorem keepsKeys_of_plain (fmt : Num → Bytes) (strtod : Bytes → Num × Nat)
    {hm : HashMap Bytes (Json Num)} (spaced : Bool) (hinv : hm.Inv)
    (hkeys : ∀ kv ∈ hmKvps hm, ∀ c ∈ kv.key, PlainKeyChar c)
    (hflat : ∀ kv ∈ hmKvps hm, IsFlat kv.value) : KeepsKeys fmt strtod hm spaced := by
  have hitem : ∀ kv ∈ (hmKvps hm).attach, ∃ m, SamePair kv.1 m ∧
      WritesItem (IsMember (IsValue (IsBuffered strtod))) (do
        keyOut stringOutStream spaced kv.1.key
        ignoreState (jsonToStreamHelper fmt stringOutStream spaced kv.1.value (0 + 1))) m := by
    intro kv _
    refine member_writes (P := (build · = kv.1.value)) (hkeys kv.1 kv.2) ?_
    obtain ⟨text, htext⟩ := Option.isSome_iff_exists.mp (hflat kv.1 kv.2)
    have hwrites := flat_writes fmt spaced (0 + 1) htext
    generalize kv.1.value = json at htext hwrites
    -- Only what is flat is written without a reader of its own.
    rcases json with _ | _ | _ | _ | ⟨_ | _⟩ | _ <;> cases htext
    · exact ⟨.boolean false, by rw [build], _, hwrites, fun _ _ => .falseText⟩
    · exact ⟨.boolean true, by rw [build], _, hwrites, fun _ _ => .trueText⟩
    · exact ⟨.null, by rw [build], _, hwrites, fun _ _ => .nullText⟩
  have hclose : isNumberLike 0x7D = false := by decide +kernel
  obtain ⟨ms, hms, text, hwrites, hitems⟩ := items_writes 0x7B spaced 0 hclose hitem
  rw [← List.forall₂_map_left_iff (f := Subtype.val), List.attach_map_subtype_val] at hms
  have hstring : jsonToString fmt (.object hm) spaced = text := by
    rw [jsonToString, jsonToStreamHelper, hwrites []]
    rfl
  have hdocument : IsDocument (IsBuffered strtod) (.object ms) text [] := by
    have hvalue := hitems [] (by rintro c ⟨⟩)
    rw [List.append_nil] at hvalue
    exact ⟨text, Ws.refl _, .object hvalue⟩
  refine ⟨ms.foldl putMember newObject, ?_, fun k v => ?_⟩
  · rw [hstring, jsonFromInStream_eq_ok]
    exact ⟨_, hdocument, (build_object ms).symm⟩
  · have hmap : ms.map Prod.fst = (hmKvps hm).map KeyVal.key :=
      map_key_of_forall₂ (fun _ _ h => h.1) hms
    have hzero : ∀ k ∈ ms.map Prod.fst, (0 : UInt8) ∉ k := by
      rw [hmap]
      intro k hk
      obtain ⟨kv, hkv, rfl⟩ := List.mem_map.mp hk
      exact zero_notMem_of_le (hkeys kv hkv)
    rw [foldl_putMember_holds_of_nodup (hmap ▸ hinv.nodup_keys) hzero]
    -- No key is written twice, so every member that was written is read.
    constructor
    · rintro ⟨m, hm, rfl, rfl⟩
      obtain ⟨kv, hkv, hkey, hvalue⟩ := exists_of_forall₂ hms.flip hm
      exact ⟨kv, hkv, hkey.symm, hvalue.symm⟩
    · rintro ⟨kv, hkv, rfl, rfl⟩
      exact exists_of_forall₂ hms hkv

/-- **An object comes back with its keys if and only if they have no backslash and no control
character.** -/
theorem keepsKeys_iff (fmt : Num → Bytes) (strtod : Bytes → Num × Nat)
    {hm : HashMap Bytes (Json Num)} (spaced : Bool) (hinv : hm.Inv)
    (hkeys : ∀ kv ∈ hmKvps hm, ∀ c ∈ kv.key, PlainChar c)
    (hflat : ∀ kv ∈ hmKvps hm, IsFlat kv.value) :
    KeepsKeys fmt strtod hm spaced ↔ ∀ kv ∈ hmKvps hm, ∀ c ∈ kv.key, 0x20 ≤ c ∧ c ≠ 0x5C := by
  constructor
  · exact KeepsKeys.plain hinv hkeys hflat
  · intro hplain
    refine keepsKeys_of_plain fmt strtod spaced hinv (fun kv hkv c hc => ?_) hflat
    obtain ⟨hge, hslash⟩ := hplain kv hkv c hc
    exact ⟨hge, (hkeys kv hkv c hc).1, hslash⟩

/-! ### One key -/

/-- An object with one member, `null`. -/
def nullObject (key : Bytes) : HashMap Bytes (Json Nat) := hmPut newObject key .null

theorem keepsKeys_iff_nullObject :
    KeepsKeys fmtDigits strtodDigits (nullObject [0x6B, 0x5C, 0x5C]) true ↔
      ∀ kv ∈ hmKvps (nullObject [0x6B, 0x5C, 0x5C]), ∀ c ∈ kv.key, 0x20 ≤ c ∧ c ≠ 0x5C := by
  refine keepsKeys_iff fmtDigits strtodDigits true (hmPut_step newObject_inv _ _).1 ?_ ?_
  · intro kv hkv
    cases List.mem_singleton.mp hkv
    unfold PlainChar
    decide +kernel
  · intro kv hkv
    cases List.mem_singleton.mp hkv
    rfl

/-- A key of one new line is printed as it is, which is a syntax error. -/
theorem not_keepsKeys_newline :
    (∀ c ∈ ([0x0A] : Bytes), PlainChar c) ∧
      ¬KeepsKeys fmtDigits strtodDigits (nullObject [0x0A]) false := by
  refine ⟨by unfold PlainChar; decide +kernel, ?_⟩
  rintro ⟨hm', hparse, -⟩
  have htext : jsonToString fmtDigits (.object (nullObject [0x0A])) false
      = [0x7B, 0x22, 0x0A, 0x22, 0x3A, 0x6E, 0x75, 0x6C, 0x6C, 0x7D] := by
    rw [jsonToString_object fmtDigits false]
    · rfl
    · intro kv hkv
      cases List.mem_singleton.mp hkv
      decide
    · intro kv hkv
      cases List.mem_singleton.mp hkv
      rfl
  have herror : jsonFromInStream strtodDigits
      [0x7B, 0x22, 0x0A, 0x22, 0x3A, 0x6E, 0x75, 0x6C, 0x6C, 0x7D]
        = .error (.state .syntaxError) [0x22, 0x3A, 0x6E, 0x75, 0x6C, 0x6C, 0x7D] := by rfl
  rw [htext, herror] at hparse
  cases hparse

end Chlibs.Chjson

import Chlibs.Json.Parser

/-!
# The grammar of JSON

What the parser is for, as derivations. A relation `V t s rest` says that `s` starts with a text
of `t` and that `rest` is behind it. The token for a number is a parameter `N`.

* `JsonText` — what a text says, before there are maps: repeated keys are all there.
* `IsValue` — the derivations of a value.
* `build` — the tree that putting the members in their order gives.
-/

namespace Chlibs.Chjson

open Infra Util

inductive JsonText (Num : Type) where
  | object (members : List (Bytes × JsonText Num))
  | list (elements : List (JsonText Num))
  | string (str : Bytes)
  | number (n : Num)
  | boolean (b : Bool)
  | null

variable {Num τ : Type}

/-! ## Tokens -/

/-- Any whitespace. -/
def Ws (s rest : Bytes) : Prop := ∃ w, (∀ c ∈ w, isWhitespace c = true) ∧ s = w ++ rest

/-- The letter behind a backslash, and the character it stands for. -/
def escapes : List (UInt8 × UInt8) :=
  [(0x5C, 0x5C), (0x2F, 0x2F), (0x62, 0x08), (0x66, 0x0C), (0x6E, 0x0A), (0x72, 0x0D), (0x74, 0x09)]

/-- The characters of a string and its closing quote. -/
inductive IsChars : Bytes → Bytes → Bytes → Prop
  | quote {rest} : IsChars [] (0x22 :: rest) rest
  | plain {c str s rest} : 0x20 ≤ c → c ≠ 0x22 → c ≠ 0x5C → IsChars str s rest →
    IsChars (c :: str) (c :: s) rest
  | escape {letter c str s rest} : (letter, c) ∈ escapes → IsChars str s rest →
    IsChars (c :: str) (0x5C :: letter :: s) rest
  | unicode {digits str s rest} : digits.length = 4 → (∀ c ∈ digits, isHexDigit c = true) →
    IsChars str s rest →
    IsChars (utf8Of (hexValue digits) ++ str) (0x5C :: 0x75 :: (digits ++ s)) rest

inductive IsString : Bytes → Bytes → Bytes → Prop
  | mk {str s rest} : IsChars str s rest → IsString str (0x22 :: s) rest

/-- A run of number-like characters that `strtod` takes, all of it and no character less. -/
structure IsRun (strtod : Bytes → Num × Nat) (n : Num) (run s rest : Bytes) : Prop where
  nonempty : run ≠ []
  like : ∀ c ∈ run, isNumberLike c = true
  text : s = run ++ rest
  maximal : ∀ c ∈ rest.head?, isNumberLike c = false
  value : strtod run = (n, run.length)

def IsNumber (strtod : Bytes → Num × Nat) (n : Num) (s rest : Bytes) : Prop :=
  ∃ run, IsRun strtod n run s rest

/-! ## Values -/

/-- What may follow an item: more of them, each behind a comma, and the closing character. -/
inductive ItemsTail (close : UInt8) (V : τ → Bytes → Bytes → Prop) :
    List τ → Bytes → Bytes → Prop
  | done {s rest} : Ws s (close :: rest) → ItemsTail close V [] s rest
  | next {t ts s s1 s2 s3 rest} : Ws s (0x2C :: s1) → Ws s1 s2 → V t s2 s3 →
    ItemsTail close V ts s3 rest → ItemsTail close V (t :: ts) s rest

/-- Items between an opening and a closing character. -/
inductive Items (start close : UInt8) (V : τ → Bytes → Bytes → Prop) :
    List τ → Bytes → Bytes → Prop
  | empty {s rest} : Ws s (close :: rest) → Items start close V [] (start :: s) rest
  | first {t ts s s1 s2 rest} : Ws s s1 → V t s1 s2 → ItemsTail close V ts s2 rest →
    Items start close V (t :: ts) (start :: s) rest

/-- A key, a colon and a value. -/
inductive IsMember (V : JsonText Num → Bytes → Bytes → Prop) :
    Bytes × JsonText Num → Bytes → Bytes → Prop
  | mk {key t s s1 s2 s3 rest} : IsString key s s1 → Ws s1 (0x3A :: s2) → Ws s2 s3 →
    V t s3 rest → IsMember V (key, t) s rest

inductive IsValue (N : Num → Bytes → Bytes → Prop) : JsonText Num → Bytes → Bytes → Prop
  | object {members s rest} : Items 0x7B 0x7D (IsMember (IsValue N)) members s rest →
    IsValue N (.object members) s rest
  | list {elements s rest} : Items 0x5B 0x5D (IsValue N) elements s rest →
    IsValue N (.list elements) s rest
  | string {str s rest} : IsString str s rest → IsValue N (.string str) s rest
  | number {n s rest} : N n s rest → IsValue N (.number n) s rest
  | trueText {rest} : IsValue N (.boolean true) (0x74 :: 0x72 :: 0x75 :: 0x65 :: rest) rest
  | falseText {rest} :
    IsValue N (.boolean false) (0x66 :: 0x61 :: 0x6C :: 0x73 :: 0x65 :: rest) rest
  | nullText {rest} : IsValue N .null (0x6E :: 0x75 :: 0x6C :: 0x6C :: rest) rest

/-- What the parser reads: leading whitespace and a value. -/
def IsDocument (N : Num → Bytes → Bytes → Prop) (t : JsonText Num) (is rest : Bytes) : Prop :=
  ∃ s, Ws is s ∧ IsValue N t s rest

/-! ## Trees -/

theorem sizeOf_member_lt {members : List (Bytes × JsonText Num)} {m : Bytes × JsonText Num}
    (h : m ∈ members) : sizeOf m.2 < sizeOf (JsonText.object members) := by
  have h1 := List.sizeOf_lt_of_mem h
  obtain ⟨key, t⟩ := m
  simp only [JsonText.object.sizeOf_spec, Prod.mk.sizeOf_spec] at *
  omega

theorem sizeOf_elementText_lt {elements : List (JsonText Num)} {t : JsonText Num}
    (h : t ∈ elements) : sizeOf t < sizeOf (JsonText.list elements) := by
  have h1 := List.sizeOf_lt_of_mem h
  simp only [JsonText.list.sizeOf_spec]
  omega

/-- Every member is put in the map of its object, the later ones over the earlier ones. -/
def build : JsonText Num → Json Num
  | .object members =>
    .object (members.attach.foldl (fun hm m => hmPut hm m.1.1 (build m.1.2)) newObject)
  | .list elements => .list (elements.attach.map fun t => build t.1)
  | .string str => .string str
  | .number n => .number n
  | .boolean b => .boolean b
  | .null => .null
termination_by t => sizeOf t
decreasing_by
  · exact sizeOf_member_lt m.2
  · exact sizeOf_elementText_lt t.2

/-- One member more. -/
def putMember (hm : HashMap Bytes (Json Num)) (m : Bytes × JsonText Num) :
    HashMap Bytes (Json Num) := hmPut hm m.1 (build m.2)

@[simp] theorem build_object (members : List (Bytes × JsonText Num)) :
    build (.object members) = .object (members.foldl putMember newObject) := by
  rw [build, List.foldl_subtype (g := putMember) fun _ _ _ => rfl, List.unattach_attach]

@[simp] theorem build_list (elements : List (JsonText Num)) :
    build (.list elements) = .list (elements.map build) := by
  rw [build, List.map_subtype (g := build) fun _ _ => rfl, List.unattach_attach]

theorem JsonText.induct {motive : JsonText Num → Prop}
    (object : ∀ members, (∀ m ∈ members, motive m.2) → motive (.object members))
    (list : ∀ elements, (∀ t ∈ elements, motive t) → motive (.list elements))
    (string : ∀ str, motive (.string str)) (number : ∀ n, motive (.number n))
    (boolean : ∀ b, motive (.boolean b)) (null : motive .null) : ∀ t, motive t
  | .object members =>
    object members fun m _ => JsonText.induct object list string number boolean null m.2
  | .list elements =>
    list elements fun t _ => JsonText.induct object list string number boolean null t
  | .string str => string str
  | .number n => number n
  | .boolean b => boolean b
  | .null => null
termination_by t => sizeOf t
decreasing_by
  · exact sizeOf_member_lt ‹_›
  · exact sizeOf_elementText_lt ‹_›

end Chlibs.Chjson

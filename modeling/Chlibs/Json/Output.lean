import Chlibs.Json.Strings

/-!
# Printing to a stream that fails

A document is the characters that a call of `json_to_stream_helper` writes itself, with those of
member values and elements between them. The state of the call that writes a member value or an
element is not looked at, so a failure there goes unnoticed.

* `jsonToStreamHelper_eq` — the printer on any stream is its layout, written.
* `Layout.out_takes`, `Layout.out_answering` — what a stream that fails does to a layout.
* `writesWhole_iff` — when a reported success means that all was written.
-/

namespace Chlibs.Chjson

open Infra Util

/-! ## Layouts -/

/-- A text with nested values, whose output may fail without notice. -/
inductive Layout where
  | done
  | char (c : UInt8) (rest : Layout)
  | value (inner rest : Layout)

namespace Layout

def append : Layout → Layout → Layout
  | done, l => l
  | char c rest, l => char c (rest.append l)
  | value inner rest, l => value inner (rest.append l)

instance : Append Layout := ⟨append⟩

/-- A text without nested values. -/
def ofBytes : Bytes → Layout
  | [] => done
  | c :: s => char c (ofBytes s)

/-- The whole text. -/
def text : Layout → Bytes
  | done => []
  | char c rest => c :: rest.text
  | value inner rest => inner.text ++ rest.text

section Out

variable {σ : Type} (os : OutStream σ)

def out : Layout → OutM σ Unit
  | done => pure ()
  | char c rest => do
    osPutc os c
    rest.out
  | value inner rest => do
    ignoreState inner.out
    rest.out

theorem out_append : ∀ l l' : Layout, (l ++ l').out os = do l.out os; l'.out os
  | done, l' => by
    rw [out, pure_bind]
    rfl
  | char c rest, l' => by
    show (char c (rest ++ l')).out os = _
    rw [out, out, bind_assoc, out_append rest l']
  | value inner rest, l' => by
    show (value inner (rest ++ l')).out os = _
    rw [out, out, bind_assoc, out_append rest l']

theorem out_ofBytes_append (s s' : Bytes) :
    (ofBytes (s ++ s')).out os = (do (ofBytes s).out os; (ofBytes s').out os) := by
  induction s with
  | nil => rw [List.nil_append, ofBytes, out, pure_bind]
  | cons c s ih => rw [List.cons_append, ofBytes, ofBytes, out, out, bind_assoc, ih]

end Out

end Layout

open Layout

/-! ## The layout of a document -/

section Printer

variable {σ Num α : Type} (fmt : Num → Bytes) (os : OutStream σ)

/-- The loop over pairs or elements. -/
def itemsLayout (spaced : Bool) (tabs : Nat) (item : α → Layout) : Bool → List α → Layout
  | _, [] => done
  | first, x :: xs =>
    ofBytes (if first then [] else [0x2C]) ++ (ofBytes (lineText spaced (tabs + 1)) ++
      (item x ++ itemsLayout spaced tabs item false xs))

def jsonLayout (spaced : Bool) : Json Num → Nat → Layout
  | .object hm, tabs =>
    char 0x7B (itemsLayout spaced tabs (fun kv => ofBytes (keyText spaced (cString kv.1.key)) ++
      Layout.value (jsonLayout spaced kv.1.value (tabs + 1)) done) true (hmKvps hm).attach ++
      (ofBytes (lineText spaced tabs) ++ char 0x7D done))
  | .list l, tabs =>
    char 0x5B (itemsLayout spaced tabs
        (fun ele => Layout.value (jsonLayout spaced ele.1 (tabs + 1)) done)
      true l.attach ++ (ofBytes (lineText spaced tabs) ++ char 0x5D done))
  | .string s, _ => char 0x22 (ofBytes ((cString s).flatMap escapeText) ++ char 0x22 done)
  | .number n, _ => ofBytes (cString ((fmt n).take (numberMaxStrWidth - 1)))
  | .boolean b, _ =>
    ofBytes (if b then [0x74, 0x72, 0x75, 0x65] else [0x66, 0x61, 0x6C, 0x73, 0x65])
  | .null, _ => ofBytes [0x6E, 0x75, 0x6C, 0x6C]
termination_by json => sizeOf json
decreasing_by
  · exact sizeOf_value_lt kv.2
  · exact sizeOf_element_lt ele.2

theorem out_char (c : UInt8) : (char c done).out os = osPutc os c := bind_pure _

theorem osPuts_eq : ∀ s : Bytes, osPuts os s = (ofBytes (cString s)).out os
  | [] => rfl
  | c :: s => by
    by_cases hc : c = 0
    · rw [osPuts, if_pos hc, cString_cons, if_pos hc]
      rfl
    · rw [osPuts, if_neg hc, cString_cons, if_neg hc, ofBytes, out, osPuts_eq s]

theorem tabOut_eq : ∀ tabs, tabOut os tabs = (ofBytes (List.replicate (2 * tabs) 0x20)).out os
  | 0 => rfl
  | tabs + 1 => by
    have hcons : List.replicate (2 * (tabs + 1)) (0x20 : UInt8)
        = [0x20, 0x20] ++ List.replicate (2 * tabs) 0x20 := rfl
    rw [tabOut, tabOut_eq tabs, osPuts_eq, hcons, out_ofBytes_append]
    rfl

theorem lineOut_eq (spaced : Bool) (tabs : Nat) :
    lineOut os spaced tabs = (ofBytes (lineText spaced tabs)).out os := by
  cases spaced with
  | false => rfl
  | true =>
    show (do osPutc os 0x0A; tabOut os tabs) = _
    rw [tabOut_eq]
    rfl

theorem keyOut_eq (spaced : Bool) (key : Bytes) :
    keyOut os spaced key = (ofBytes (keyText spaced (cString key))).out os := by
  have htail : (do osPutc os 0x22; osPutc os 0x3A; if spaced then osPutc os 0x20 else pure ())
      = (ofBytes (0x22 :: 0x3A :: if spaced then [0x20] else [])).out os := by
    cases spaced with
    | false => rfl
    | true => rw [if_pos rfl, if_pos rfl, ofBytes, ofBytes, ofBytes, ofBytes, out, out, out_char]
  unfold keyOut keyText
  rw [htail, osPuts_eq, ← out_ofBytes_append]
  rfl

theorem escapeChar_eq (c : UInt8) : escapeChar os c = (ofBytes (escapeText c)).out os := by
  unfold escapeChar escapeText
  by_cases hc : 0x20 ≤ c
  · rw [if_pos ((not_control_iff c).mpr hc), if_pos hc]
    split
    · rw [ofBytes, ofBytes, ofBytes, out, out_char]
    · exact (out_char os c).symm
  · rw [if_neg ((not_control_iff c).not.mpr hc), if_neg hc]
    cases controlLetter c with
    | some letter =>
      show (do osPutc os 0x5C; osPutc os letter) = (ofBytes [0x5C, letter]).out os
      rw [ofBytes, ofBytes, ofBytes, out, out_char]
    | none => rfl

theorem escapeStringToStream_eq : ∀ s : Bytes,
    escapeStringToStream os s = (ofBytes ((cString s).flatMap escapeText)).out os
  | [] => rfl
  | c :: s => by
    by_cases hc : c = 0
    · rw [escapeStringToStream, if_pos hc, cString_cons, if_pos hc]
      rfl
    · rw [escapeStringToStream, if_neg hc, cString_cons, if_neg hc, List.flatMap_cons,
        out_ofBytes_append, escapeChar_eq, escapeStringToStream_eq s]

theorem itemsOut_eq (spaced : Bool) (tabs : Nat) {item : α → OutM σ Unit} {lay : α → Layout} :
    ∀ (xs : List α) (_ : ∀ x ∈ xs, item x = (lay x).out os) (first : Bool),
      itemsOut os spaced tabs item first xs = (itemsLayout spaced tabs lay first xs).out os
  | [], _, _ => rfl
  | x :: xs, h, first => by
    have hrest := itemsOut_eq spaced tabs xs (fun y hy => h y (List.mem_cons_of_mem _ hy)) false
    have hitem : (do lineOut os spaced (tabs + 1); item x; itemsOut os spaced tabs item false xs)
        = (ofBytes (lineText spaced (tabs + 1)) ++
          (lay x ++ itemsLayout spaced tabs lay false xs)).out os := by
      rw [out_append, out_append, lineOut_eq, h x List.mem_cons_self, hrest]
    cases first with
    | true => exact hitem
    | false =>
      show (do osPutc os 0x2C; lineOut os spaced (tabs + 1); item x
               itemsOut os spaced tabs item false xs) = _
      rw [hitem]
      rfl

/-- A nested value. -/
theorem out_value (inner : Layout) :
    (Layout.value inner done).out os = ignoreState (inner.out os) :=
  bind_pure _

/-- **The printer writes its layout**, whatever the stream does. -/
theorem jsonToStreamHelper_eq (spaced : Bool) : ∀ (json : Json Num) (tabs : Nat),
    jsonToStreamHelper fmt os spaced json tabs = (jsonLayout fmt spaced json tabs).out os
  | .object hm, tabs => by
    rw [jsonToStreamHelper, jsonLayout, out, out_append, out_append, lineOut_eq, out_char]
    rw [itemsOut_eq os spaced tabs _ fun kv _ => ?_]
    rw [out_append, keyOut_eq, out_value, jsonToStreamHelper_eq spaced kv.1.value]
  | .list l, tabs => by
    rw [jsonToStreamHelper, jsonLayout, out, out_append, out_append, lineOut_eq, out_char]
    rw [itemsOut_eq os spaced tabs _ fun ele _ => ?_]
    rw [out_value, jsonToStreamHelper_eq spaced ele.1]
  | .string s, tabs => by
    rw [jsonToStreamHelper, jsonLayout, out, out_append, escapeStringToStream_eq, out_char]
  | .number n, tabs => by rw [jsonToStreamHelper, jsonLayout, osPuts_eq]
  | .boolean b, tabs => by
    rw [jsonToStreamHelper, jsonLayout, osPuts_eq]
    cases b <;> rfl
  | .null, tabs => by
    rw [jsonToStreamHelper, jsonLayout, osPuts_eq]
    rfl
termination_by json => sizeOf json
decreasing_by
  · exact sizeOf_value_lt kv.2
  · exact sizeOf_element_lt ele.2

end Printer

/-- On a string stream nothing fails, and the text is written. -/
theorem Layout.out_string : ∀ (l : Layout) (builder : Bytes),
    l.out stringOutStream builder = .ok () (builder ++ l.text)
  | done, builder => by
    rw [text, List.append_nil]
    rfl
  | char c rest, builder => by
    have hput : osPutc stringOutStream c builder = .ok () (builder ++ [c]) := rfl
    rw [out, bind_of_ok hput, out_string rest, text, List.append_assoc]
    rfl
  | Layout.value inner rest, builder => by
    have hinner : ignoreState (inner.out stringOutStream) builder = .ok () (builder ++ inner.text) := by
      rw [ignoreState, out_string inner]
    rw [out, bind_of_ok hinner, out_string rest, text, List.append_assoc]

/-- `json_to_string` gives the text of the layout. -/
theorem jsonToString_eq {Num : Type} (fmt : Num → Bytes) (json : Json Num) (spaced : Bool) :
    jsonToString fmt json spaced = (jsonLayout fmt spaced json 0).text := by
  rw [jsonToString, jsonToStreamHelper_eq, out_string, List.nil_append]

/-! ## Streams that fail -/

/-- A stream that answers its calls as told, and writes what it does not refuse. The state is
the number of calls made, and the characters written. -/
def answeringStream (answer : Nat → StreamState) : OutStream (Nat × Bytes) where
  putc s c := (answer s.1, s.1 + 1, if answer s.1 = .success then s.2 ++ [c] else s.2)

namespace Layout

variable (answer : Nat → StreamState)

/-- The number of the call after those for the text, the first of which has number `i`. A text
ends at the first of its own characters that is refused. -/
def next : Layout → Nat → Nat
  | done, i => i
  | char _ rest, i => if answer i = .success then rest.next (i + 1) else i + 1
  | value inner rest, i => rest.next (inner.next i)

/-- The stream takes every character outside of nested values. -/
def TakesOwn : Layout → Nat → Prop
  | done, _ => True
  | char _ rest, i => answer i = .success ∧ rest.TakesOwn (i + 1)
  | value inner rest, i => rest.TakesOwn (inner.next answer i)

/-- The stream takes every character. -/
def Takes (l : Layout) (i : Nat) : Prop := ∀ k < l.text.length, answer (i + k) = .success

variable {answer}

theorem takes_char {c : UInt8} {rest : Layout} {i : Nat} :
    (char c rest).Takes answer i ↔ answer i = .success ∧ rest.Takes answer (i + 1) := by
  unfold Takes
  rw [text, List.length_cons, Nat.forall_lt_succ_left]
  simp only [Nat.add_zero, Nat.add_assoc, Nat.add_comm 1]

theorem takes_value {inner rest : Layout} {i : Nat} :
    (value inner rest).Takes answer i ↔
      inner.Takes answer i ∧ rest.Takes answer (i + inner.text.length) := by
  unfold Takes
  rw [text, List.length_append]
  constructor
  · intro h
    refine ⟨fun k hk => h k (by omega), fun k hk => ?_⟩
    rw [Nat.add_assoc]
    exact h _ (by omega)
  · rintro ⟨hinner, hrest⟩ k hk
    by_cases hlt : k < inner.text.length
    · exact hinner k hlt
    · have hk' := hrest (k - inner.text.length) (by omega)
      rwa [Nat.add_assoc, Nat.add_sub_cancel' (by omega)] at hk'

/-- **A stream that takes every character gets the whole text.** -/
theorem out_takes : ∀ {l : Layout} {i : Nat} (_ : l.Takes answer i) (w : Bytes),
    l.out (answeringStream answer) (i, w) = .ok () (i + l.text.length, w ++ l.text)
  | done, i, _, w => by
    rw [text, List.append_nil]
    rfl
  | char c rest, i, h, w => by
    obtain ⟨hi, hrest⟩ := takes_char.mp h
    have hput : osPutc (answeringStream answer) c (i, w) = .ok () (i + 1, w ++ [c]) := by
      simp [osPutc, answeringStream, hi]
    rw [out, bind_of_ok hput, out_takes hrest, text, List.append_assoc, List.length_cons,
      Nat.add_assoc, Nat.add_comm 1]
    rfl
  | value inner rest, i, h, w => by
    obtain ⟨hinner, hrest⟩ := takes_value.mp h
    have hignore : ignoreState (inner.out (answeringStream answer)) (i, w)
        = .ok () (i + inner.text.length, w ++ inner.text) := by
      rw [ignoreState, out_takes hinner]
    rw [out, bind_of_ok hignore, out_takes hrest, text, List.append_assoc, List.length_append,
      Nat.add_assoc]

/-- The number of calls made, whether the text was cut short or not. -/
theorem le_next : ∀ (l : Layout) (i : Nat), i ≤ l.next answer i
  | done, _ => le_rfl
  | char _ rest, i => by
    have h := le_next rest (i + 1)
    rw [next]
    split <;> omega
  | value inner rest, i => (le_next inner i).trans (le_next rest _)

theorem next_of_takes : ∀ {l : Layout} {i : Nat}, l.Takes answer i →
    l.next answer i = i + l.text.length
  | done, _, _ => rfl
  | char _ rest, i, h => by
    obtain ⟨hi, hrest⟩ := takes_char.mp h
    rw [next, if_pos hi, next_of_takes hrest, text, List.length_cons, Nat.add_assoc, Nat.add_comm 1]
  | value inner rest, i, h => by
    obtain ⟨hinner, hrest⟩ := takes_value.mp h
    rw [next, next_of_takes hinner, next_of_takes hrest, text, List.length_append, Nat.add_assoc]

/-- A text whose calls all succeed was not cut short. -/
theorem takes_of_next : ∀ {l : Layout} {i : Nat},
    (∀ j, i ≤ j → j < l.next answer i → answer j = .success) → l.Takes answer i
  | done, i, _ => fun k hk => absurd hk (Nat.not_lt_zero k)
  | char _ rest, i, h => by
    have hi : answer i = .success := by
      by_contra hne
      refine hne (h i le_rfl ?_)
      rw [next, if_neg hne]
      exact Nat.lt_succ_self i
    rw [next, if_pos hi] at h
    exact takes_char.mpr ⟨hi, takes_of_next fun j hj => h j (by omega)⟩
  | value inner rest, i, h => by
    rw [next] at h
    have hinner : inner.Takes answer i := takes_of_next fun j hj hlt =>
      h j hj (hlt.trans_le (le_next rest _))
    refine takes_value.mpr ⟨hinner, ?_⟩
    rw [← next_of_takes hinner]
    exact takes_of_next fun j hj => h j ((le_next inner i).trans hj)

variable (answer) in
/-- **What a stream that fails does to a layout**: the calls that it gets, and whether they look
like a success. -/
theorem out_answering : ∀ (l : Layout) (i : Nat) (w : Bytes), ∃ w',
    (l.out (answeringStream answer) (i, w) = .ok () (l.next answer i, w') ∧ l.TakesOwn answer i) ∨
      ∃ e, l.out (answeringStream answer) (i, w) = .error e (l.next answer i, w') ∧
        ¬l.TakesOwn answer i
  | done, i, w => ⟨w, .inl ⟨rfl, trivial⟩⟩
  | char c rest, i, w => by
    by_cases hi : answer i = .success
    · have hput : osPutc (answeringStream answer) c (i, w) = .ok () (i + 1, w ++ [c]) := by
        simp [osPutc, answeringStream, hi]
      rw [out, bind_of_ok hput, next, if_pos hi]
      obtain ⟨w', ⟨hout, hown⟩ | ⟨e, hout, hown⟩⟩ := out_answering rest (i + 1) (w ++ [c])
      · exact ⟨w', .inl ⟨hout, hi, hown⟩⟩
      · exact ⟨w', .inr ⟨e, hout, fun h => hown h.2⟩⟩
    · -- The character is refused, and the call returns.
      have hput : osPutc (answeringStream answer) c (i, w) = .error (answer i) (i + 1, w) := by
        unfold osPutc answeringStream
        cases hanswer : answer i with
        | success => exact absurd hanswer hi
        | _ => simp [hanswer]
      rw [out, bind_of_error hput, next, if_neg hi]
      exact ⟨w, .inr ⟨_, rfl, fun h => hi h.1⟩⟩
  | value inner rest, i, w => by
    -- Whatever comes of the nested value, the rest is written.
    obtain ⟨w', hignore⟩ : ∃ w', ignoreState (inner.out (answeringStream answer)) (i, w)
        = .ok () (inner.next answer i, w') := by
      obtain ⟨w', ⟨hout, -⟩ | ⟨e, hout, -⟩⟩ := out_answering inner i w
      · exact ⟨w', by rw [ignoreState, hout]⟩
      · exact ⟨w', by rw [ignoreState, hout]⟩
    rw [out, bind_of_ok hignore, next]
    exact out_answering rest _ w'

end Layout

/-! ## A reported success -/

section Success

variable {Num : Type} (fmt : Num → Bytes) (json : Json Num) (spaced : Bool)

/-- If `json_to_stream` reports success, no call failed, and the whole document was written. -/
def WritesWhole (answer : Nat → StreamState) : Prop :=
  ∀ calls written, jsonToStream fmt (answeringStream answer) json spaced (0, [])
    = .ok () (calls, written) →
    (∀ i < calls, answer i = .success) ∧ written = jsonToString fmt json spaced

/--
**When a reported success means that all was written.** Either the stream takes every character
of the document, or it refuses one outside of the member values and elements.
-/
theorem writesWhole_iff (answer : Nat → StreamState) :
    WritesWhole fmt json spaced answer ↔ ((jsonLayout fmt spaced json 0).TakesOwn answer 0 →
      ∀ i < (jsonToString fmt json spaced).length, answer i = .success) := by
  unfold WritesWhole
  rw [jsonToString_eq, jsonToStream, jsonToStreamHelper_eq]
  generalize jsonLayout fmt spaced json 0 = l
  have htakes : (∀ i < l.text.length, answer i = .success) ↔ l.Takes answer 0 := by
    simp only [Takes, Nat.zero_add]
  rw [htakes]
  constructor
  · intro h hown
    obtain ⟨w', ⟨hout, -⟩ | ⟨e, -, hnot⟩⟩ := out_answering answer l 0 []
    · exact takes_of_next fun j _ hj => (h _ _ hout).1 j hj
    · exact absurd hown hnot
  · intro h calls written hrun
    have hall : l.Takes answer 0 := by
      obtain ⟨w', ⟨-, hown⟩ | ⟨e, hout, -⟩⟩ := out_answering answer l 0 []
      · exact h hown
      · rw [hout] at hrun
        cases hrun
    rw [out_takes hall] at hrun
    cases hrun
    refine ⟨fun i hi => ?_, List.nil_append _⟩
    have hi' := hall i (by omega)
    rwa [Nat.zero_add] at hi'

/-- The second call to the stream fails. -/
def secondFails (i : Nat) : StreamState := if i = 1 then .error else .success

/-- **A failure inside of an element goes unnoticed**: the list comes out without its `null`. -/
theorem not_writesWhole_null :
    jsonToStream (fun _ : Unit => []) (answeringStream secondFails) (.list [.null]) false (0, [])
      = .ok () (3, [0x5B, 0x5D]) ∧
    ¬WritesWhole (fun _ : Unit => []) (.list [.null]) false secondFails := by
  have hrun : jsonToStream (fun _ : Unit => []) (answeringStream secondFails) (.list [.null]) false
      (0, []) = .ok () (3, [0x5B, 0x5D]) := by
    rw [jsonToStream, jsonToStreamHelper_eq, jsonLayout]
    simp only [List.attach_cons, List.attach_nil, List.map_nil, itemsLayout, jsonLayout]
    rfl
  refine ⟨hrun, fun h => ?_⟩
  have hsecond : secondFails 1 = .success := (h _ _ hrun).1 1 (by decide)
  cases hsecond

end Success

end Chlibs.Chjson

import Chlibs.Json.Json

/-!
# Printing JSON

`json_to_stream_helper` and what it calls, on any output stream. `%.15g` is the parameter `fmt`.

* `Writes` — the text that a call puts on a string stream.
-/

namespace Chlibs.Chjson

open Infra Util

section Stream

variable {σ Num α : Type} (fmt : Num → Bytes) (os : OutStream σ)

/-- The letter that stands for a control character, if it has one. -/
def controlLetter (c : UInt8) : Option UInt8 :=
  if c = 0x08 then some 0x62
  else if c = 0x0C then some 0x66
  else if c = 0x0A then some 0x6E
  else if c = 0x0D then some 0x72
  else if c = 0x09 then some 0x74
  else none

/-- One turn of the loop. Invalid control characters are dropped. -/
def escapeChar (c : UInt8) : OutM σ Unit :=
  if charVal c < 0 ∨ 0x20 ≤ charVal c then
    if c = 0x22 ∨ c = 0x5C then do
      osPutc os 0x5C
      osPutc os c
    else osPutc os c
  else
    match controlLetter c with
    | some letter => do
      osPutc os 0x5C
      osPutc os letter
    | none => pure ()

/-- The string is up to its first NUL. -/
def escapeStringToStream : Bytes → OutM σ Unit
  | [] => pure ()
  | c :: cs =>
    if c = 0 then pure ()
    else do
      escapeChar os c
      escapeStringToStream cs

/-- `TAB_OUT` -/
def tabOut : Nat → OutM σ Unit
  | 0 => pure ()
  | tabs + 1 => do
    osPuts os [0x20, 0x20]
    tabOut tabs

/-- A new line, unless everything is to be on one. -/
def lineOut (spaced : Bool) (tabs : Nat) : OutM σ Unit :=
  if spaced then do
    osPutc os 0x0A
    tabOut os tabs
  else pure ()

/-- The loop over pairs or elements: a comma before each one but the first. -/
def itemsOut (spaced : Bool) (tabs : Nat) (item : α → OutM σ Unit) : Bool → List α → OutM σ Unit
  | _, [] => pure ()
  | first, x :: xs => do
    if first then pure () else osPutc os 0x2C
    lineOut os spaced (tabs + 1)
    item x
    itemsOut spaced tabs item false xs

/-- A key is written as it is. -/
def keyOut (spaced : Bool) (key : Bytes) : OutM σ Unit := do
  osPutc os 0x22
  osPuts os key
  osPutc os 0x22
  osPutc os 0x3A
  if spaced then osPutc os 0x20 else pure ()

/-- The state of a call for a value or an element is not looked at. -/
def jsonToStreamHelper (spaced : Bool) : Json Num → Nat → OutM σ Unit
  | .object hm, tabs => do
    osPutc os 0x7B
    itemsOut os spaced tabs (fun kv => do
      keyOut os spaced kv.1.key
      ignoreState (jsonToStreamHelper spaced kv.1.value (tabs + 1))) true (hmKvps hm).attach
    lineOut os spaced tabs
    osPutc os 0x7D
  | .list l, tabs => do
    osPutc os 0x5B
    itemsOut os spaced tabs (fun ele => ignoreState (jsonToStreamHelper spaced ele.1 (tabs + 1)))
      true l.attach
    lineOut os spaced tabs
    osPutc os 0x5D
  | .string s, _ => do
    osPutc os 0x22
    escapeStringToStream os s
    osPutc os 0x22
  | .number n, _ => osPuts os ((fmt n).take (numberMaxStrWidth - 1))
  | .boolean b, _ =>
    osPuts os (if b then [0x74, 0x72, 0x75, 0x65] else [0x66, 0x61, 0x6C, 0x73, 0x65])
  | .null, _ => osPuts os [0x6E, 0x75, 0x6C, 0x6C]
termination_by json => sizeOf json
decreasing_by
  · exact sizeOf_value_lt kv.2
  · exact sizeOf_element_lt ele.2

def jsonToStream (json : Json Num) (spaced : Bool) : OutM σ Unit :=
  jsonToStreamHelper fmt os spaced json 0

end Stream

variable {Num α : Type} {fmt : Num → Bytes}

/-- The state of the call is not looked at here either. -/
def jsonToString (fmt : Num → Bytes) (json : Json Num) (spaced : Bool) : Bytes :=
  match jsonToStreamHelper fmt stringOutStream spaced json 0 [] with
  | .ok _ s => s
  | .error _ s => s

/-! ## Texts -/

/-- The call puts `text` behind what the string holds, and succeeds. -/
def Writes (p : OutM Bytes Unit) (text : Bytes) : Prop := ∀ builder, p builder = .ok () (builder ++ text)

namespace Writes

variable {p q : OutM Bytes Unit} {text text' : Bytes}

theorem skip : Writes (pure ()) [] := fun builder => by
  rw [List.append_nil]
  rfl

theorem andThen (hp : Writes p text) (hq : Writes q text') :
    Writes (do p; q) (text ++ text') := fun builder => by
  rw [bind_of_ok (hp builder), hq, List.append_assoc]

theorem ignore (hp : Writes p text) : Writes (ignoreState p) text := fun builder => by
  rw [ignoreState, hp builder]

theorem putc (c : UInt8) : Writes (osPutc stringOutStream c) [c] := fun _ => rfl

theorem puts : ∀ (s : Bytes), (0 : UInt8) ∉ s → Writes (osPuts stringOutStream s) s
  | [], _ => skip
  | c :: cs, h => by
    have hc : c ≠ 0 := fun hc => h (hc ▸ List.mem_cons_self)
    rw [osPuts, if_neg hc]
    exact (putc c).andThen (puts cs fun hmem => h (List.mem_cons_of_mem _ hmem))

theorem tab : ∀ tabs, Writes (tabOut stringOutStream tabs) (List.replicate (2 * tabs) 0x20)
  | 0 => skip
  | tabs + 1 => (puts [0x20, 0x20] (by decide)).andThen (tab tabs)

end Writes

/-- The new line and the tabs of `lineOut`. -/
def lineText (spaced : Bool) (tabs : Nat) : Bytes :=
  if spaced then 0x0A :: List.replicate (2 * tabs) 0x20 else []

theorem writes_lineOut (spaced : Bool) (tabs : Nat) :
    Writes (lineOut stringOutStream spaced tabs) (lineText spaced tabs) := by
  cases spaced with
  | false => exact Writes.skip
  | true => exact (Writes.putc 0x0A).andThen (Writes.tab tabs)

/-- The text of a key, up to its value. -/
def keyText (spaced : Bool) (key : Bytes) : Bytes :=
  0x22 :: (key ++ 0x22 :: 0x3A :: if spaced then [0x20] else [])

theorem writes_keyOut (spaced : Bool) {key : Bytes} (h : (0 : UInt8) ∉ key) :
    Writes (keyOut stringOutStream spaced key) (keyText spaced key) := by
  refine (Writes.putc 0x22).andThen ((Writes.puts key h).andThen
    ((Writes.putc 0x22).andThen ((Writes.putc 0x3A).andThen ?_)))
  cases spaced with
  | false => exact Writes.skip
  | true => exact Writes.putc 0x20

end Chlibs.Chjson

import Chlibs.Chat.Server

/-!
# The command line of the client

What `client.c` does with the characters that it reads, up to the messages that it sends.

* `CmdLine` — `cmd_buf` and `cmd_buf_i`; `cmdKey` — what the loop does with one character.
* `Typed` — the line as it is seen: what was typed, and what still stands behind it.
* `client_keys` — **the buffer is never left, and the messages are those of the lines that were
  typed.**
* `enter_again` — a line is sent once.
-/

namespace Chlibs.Chat

open Infra Serial Util Rpc

/-! ## The buffer -/

def cmdBufLen : Nat := 0x100

/-- `cmd_buf` and `cmd_buf_i` -/
structure CmdLine where
  buf : Bytes
  i : Nat

/-- `char cmd_buf[0x100] = ""` -/
def CmdLine.start : CmdLine := ⟨List.replicate cmdBufLen 0, 0⟩

def space : UInt8 := 32

def dollar : UInt8 := 36

def newline : UInt8 := 10

def deletion : UInt8 := 127

/-- `buf[i] = c`, which is undefined outside of the buffer. -/
def setChar (buf : Bytes) (i : Nat) (c : UInt8) : Option Bytes :=
  if i < buf.length then some (buf.set i c) else none

/-- The text up to the first NUL. -/
def asCString (buf : Bytes) : CString := ⟨cString buf, zero_notMem_cString buf⟩

/-- `new_string_from_cstr(buf + i)` -/
def cstrAt (buf : Bytes) (i : Nat) : Option CString :=
  if (0 : UInt8) ∈ buf.drop i then some (asCString (buf.drop i)) else none

/-- How far `iter` is moved until there is a space or the end of the string. -/
def untilSpace : Bytes → Option Nat
  | [] => none
  | c :: buf => if c ≠ space ∧ c ≠ 0 then (untilSpace buf).map (· + 1) else some 0

/-- The message that is pushed to `send_q`, and what is left in the buffer. -/
def clientProcessCmdBuffer (buf : Bytes) : Option (Option ChatroomMessage × Bytes) := do
  let first ← buf[0]?
  if first = 0 then
    return (none, buf)
  if first = dollar then
    let iter := 1 + (← untilSpace (buf.drop 1))
    if iter = 1 ∨ (← buf[iter]?) = 0 then
      return (none, buf)
    let buf ← setChar buf iter 0
    let iter := iter + 1
    if (← buf[iter]?) = 0 then
      return (none, buf)
    let receiver ← cstrAt buf 1
    let msg ← cstrAt buf iter
    return (some ⟨false, receiver, msg⟩, ← setChar buf 0 0)
  let msg ← cstrAt buf 0
  return (some ⟨true, literal "", msg⟩, ← setChar buf 0 0)

/-- What the loop does with a character. -/
def cmdKey (line : CmdLine) (c : UInt8) : Option (Option ChatroomMessage × CmdLine) := do
  if c = newline then
    let (msg, buf) ← clientProcessCmdBuffer line.buf
    return (msg, ⟨buf, 0⟩)
  else if c = deletion then
    let buf ← setChar line.buf line.i 0
    return (none, ⟨buf, if 0 < line.i then line.i - 1 else line.i⟩)
  else if line.i < cmdBufLen - 1 then
    let buf ← setChar line.buf line.i c
    let buf ← setChar buf (line.i + 1) 0
    return (none, ⟨buf, line.i + 1⟩)
  else
    return (none, line)

/-- The messages of the characters that are read, and the line after them. -/
def cmdKeys : CmdLine → Bytes → Option (List ChatroomMessage × CmdLine)
  | line, [] => some ([], line)
  | line, c :: keys => do
    let (msg, line) ← cmdKey line c
    let (msgs, line) ← cmdKeys line keys
    return (msg.toList ++ msgs, line)

/-! ## The line -/

/-- What was typed, and what stands behind it. -/
structure Typed where
  text : Bytes
  rest : Bytes

/-- The line that is shown, and sent. -/
def Typed.line (t : Typed) : Bytes := cString (t.text ++ t.rest)

def notSpace (c : UInt8) : Bool := c != space

/-- `$<receiver> <msg>` is a private message. What is left of a line cannot be sent. -/
def parseLine : Bytes → Option ChatroomMessage × Bytes
  | [] => (none, [])
  | c :: s =>
    if c = dollar then
      let receiver := s.takeWhile notSpace
      match s.dropWhile notSpace with
      | [] => (none, c :: s)
      | _ :: msg =>
        if receiver = [] then (none, c :: s)
        else if msg = [] then (none, c :: receiver)
        else (some ⟨false, asCString receiver, asCString msg⟩, [])
    else (some ⟨true, literal "", asCString (c :: s)⟩, [])

/-- A deletion moves back, but puts the NUL behind the last character: that one stands there, and in
the line that is sent, until another one is typed over it. -/
def Typed.key (t : Typed) (c : UInt8) : Option ChatroomMessage × Typed :=
  if c = newline then ((parseLine t.line).1, ⟨[], (parseLine t.line).2⟩)
  else if c = deletion then (none, ⟨t.text.dropLast, cString t.text.getLast?.toList⟩)
  else if t.text.length < cmdBufLen - 1 then (none, ⟨t.text ++ [c], []⟩)
  else (none, t)

def Typed.keys : Typed → Bytes → List ChatroomMessage × Typed
  | t, [] => ([], t)
  | t, c :: keys => ((t.key c).1.toList ++ ((t.key c).2.keys keys).1, ((t.key c).2.keys keys).2)

/-! ## Lines -/

section Lines

variable {s junk : Bytes}

/-- A NUL ends a text wherever it stands. -/
theorem exists_cString_append (s junk : Bytes) :
    ∃ junk', s ++ 0 :: junk = cString s ++ 0 :: junk' := by
  induction s with
  | nil => exact ⟨junk, rfl⟩
  | cons c s ih =>
    rw [cString_cons]
    split
    · next hc => exact ⟨s ++ 0 :: junk, by rw [hc]; rfl⟩
    · obtain ⟨junk', hjunk⟩ := ih
      exact ⟨junk', by rw [List.cons_append, hjunk, List.cons_append]⟩

theorem asCString_append (hs : (0 : UInt8) ∉ s) : asCString (s ++ 0 :: junk) = asCString s :=
  CString.ext ((cString_append_zero hs junk).trans (cString_of_notMem hs).symm)

theorem cstrAt_append (before : Bytes) (hs : (0 : UInt8) ∉ s) {i : Nat} (hi : before.length = i) :
    cstrAt (before ++ (s ++ 0 :: junk)) i = some (asCString s) := by
  have hdrop : (before ++ (s ++ 0 :: junk)).drop i = s ++ 0 :: junk := by
    rw [← hi, List.drop_left]
  have hmem : (0 : UInt8) ∈ s ++ 0 :: junk := List.mem_append_right _ List.mem_cons_self
  rw [cstrAt, hdrop, if_pos hmem, asCString_append hs]

theorem setChar_append (before : Bytes) {after : Bytes} {c d : UInt8} {i : Nat}
    (hi : before.length = i) :
    setChar (before ++ c :: after) i d = some (before ++ d :: after) := by
  have hlt : i < (before ++ c :: after).length := by
    rw [List.length_append, List.length_cons]
    omega
  rw [setChar, if_pos hlt, List.set_append_right _ _ hi.le, hi, Nat.sub_self, List.set_cons_zero]

theorem getChar_append (before : Bytes) {after : Bytes} {c : UInt8} {i : Nat}
    (hi : before.length = i) :
    (before ++ c :: after)[i]? = some c := by
  rw [List.getElem?_append_right hi.le, hi, Nat.sub_self, List.getElem?_cons_zero]

theorem untilSpace_append (hs : (0 : UInt8) ∉ s) (junk : Bytes) :
    untilSpace (s ++ 0 :: junk) = some (s.takeWhile notSpace).length := by
  induction s with
  | nil => rfl
  | cons c s ih =>
    obtain ⟨hc, hs⟩ := not_or.mp (mt List.mem_cons.mpr hs)
    by_cases hspace : c = space
    · simp [untilSpace, notSpace, hspace]
    · have hpass : notSpace c = true := by simp [notSpace, hspace]
      simp [untilSpace, hspace, Ne.symm hc, ih hs, hpass]

/-- A space splits the text behind the `$`. -/
theorem splits_at_space (s : Bytes) :
    (s.dropWhile notSpace = [] ∧ s.takeWhile notSpace = s) ∨
      ∃ receiver msg, s.takeWhile notSpace = receiver ∧ s.dropWhile notSpace = space :: msg ∧
        s = receiver ++ space :: msg := by
  have happend := List.takeWhile_append_dropWhile (p := notSpace) (l := s)
  cases hdrop : s.dropWhile notSpace with
  | nil =>
    rw [hdrop, List.append_nil] at happend
    exact .inl ⟨rfl, happend⟩
  | cons c msg =>
    have hhead := List.head?_dropWhile_not notSpace s
    rw [hdrop] at hhead
    have hc : c = space := by simpa [notSpace] using hhead
    rw [hdrop, hc] at happend
    exact .inr ⟨_, msg, rfl, by rw [hc], happend.symm⟩

/-- A private message, if there is a receiver and a text. -/
theorem parseLine_direct {receiver msg : Bytes} (hdrop : s.dropWhile notSpace = space :: msg)
    (htake : s.takeWhile notSpace = receiver) :
    parseLine (dollar :: s) =
      if receiver = [] then (none, dollar :: s)
      else if msg = [] then (none, dollar :: receiver)
      else (some ⟨false, asCString receiver, asCString msg⟩, []) := by
  simp [parseLine, hdrop, htake]

theorem clientProcessCmdBuffer_direct {receiver msg : Bytes} (hs : (0 : UInt8) ∉ s)
    (hdrop : s.dropWhile notSpace = space :: msg) (htake : s.takeWhile notSpace = receiver)
    (hsplit : s = receiver ++ space :: msg) :
    clientProcessCmdBuffer (dollar :: (s ++ 0 :: junk)) =
      if receiver = [] then some (none, dollar :: (s ++ 0 :: junk))
      else if msg = [] then some (none, dollar :: (receiver ++ 0 :: (msg ++ 0 :: junk)))
      else some (some ⟨false, asCString receiver, asCString msg⟩,
        0 :: (receiver ++ 0 :: (msg ++ 0 :: junk))) := by
  have huntil := untilSpace_append hs junk
  have hspace : (dollar :: (s ++ 0 :: junk))[1 + receiver.length]? = some space := by
    rw [hsplit, List.append_assoc]
    exact getChar_append (dollar :: receiver) (Nat.add_comm ..)
  have hcut : setChar (dollar :: (s ++ 0 :: junk)) (1 + receiver.length) 0
      = some (dollar :: (receiver ++ 0 :: (msg ++ 0 :: junk))) := by
    rw [hsplit, List.append_assoc]
    exact setChar_append (dollar :: receiver) (Nat.add_comm ..)
  rw [hsplit] at hs
  have hmem : (0 : UInt8) ∉ msg := fun hmem =>
    hs (List.mem_append_right _ (List.mem_cons_of_mem _ hmem))
  have hbehind : dollar :: (receiver ++ 0 :: (msg ++ 0 :: junk))
      = (dollar :: receiver ++ [0]) ++ (msg ++ 0 :: junk) := by simp
  have hlen : (dollar :: receiver ++ [0]).length = 1 + receiver.length + 1 := by
    simp [Nat.add_comm]
  have hnext : (dollar :: (receiver ++ 0 :: (msg ++ 0 :: junk)))[1 + receiver.length + 1]?
      = some (msg.headD 0) := by
    rw [hbehind]
    cases msg with
    | nil => exact getChar_append _ hlen
    | cons c msg => exact getChar_append _ hlen
  have hreceiver : cstrAt (dollar :: (receiver ++ 0 :: (msg ++ 0 :: junk))) 1
      = some (asCString receiver) :=
    cstrAt_append [dollar] (fun hmem => hs (List.mem_append_left _ hmem)) rfl
  have hmsg : cstrAt (dollar :: (receiver ++ 0 :: (msg ++ 0 :: junk))) (1 + receiver.length + 1)
      = some (asCString msg) := by
    rw [hbehind]
    exact cstrAt_append _ hmem hlen
  have hclear : setChar (dollar :: (receiver ++ 0 :: (msg ++ 0 :: junk))) 0 0
      = some (0 :: (receiver ++ 0 :: (msg ++ 0 :: junk))) := setChar_append [] rfl
  have hends : msg.headD 0 = 0 ↔ msg = [] := by
    cases msg with
    | nil => simp
    | cons c msg => simpa using Ne.symm (not_or.mp (mt List.mem_cons.mpr hmem)).1
  have hne : ¬dollar = 0 := by decide
  have hspace_ne : ¬space = 0 := by decide
  unfold clientProcessCmdBuffer
  simp only [List.getElem?_cons_zero, List.drop_succ_cons, List.drop_zero, Option.bind_eq_bind,
    Option.bind_some, hne, if_false, if_true, huntil, htake, hspace, hspace_ne, or_false,
    Nat.add_eq_left, List.length_eq_zero_iff, hcut, hnext, hends, hreceiver, hmsg, hclear]
  rfl

/-- **A line is processed as it is parsed.** -/
theorem clientProcessCmdBuffer_spec (hs : (0 : UInt8) ∉ s) (junk : Bytes) :
    ∃ junk', clientProcessCmdBuffer (s ++ 0 :: junk)
        = some ((parseLine s).1, (parseLine s).2 ++ 0 :: junk') ∧
      ((parseLine s).2 ++ 0 :: junk').length = (s ++ 0 :: junk).length := by
  cases s with
  | nil => exact ⟨junk, rfl, rfl⟩
  | cons c s =>
    obtain ⟨hc, hs'⟩ := not_or.mp (mt List.mem_cons.mpr hs)
    by_cases hdollar : c = dollar
    · subst hdollar
      obtain ⟨hdrop, htake⟩ | ⟨receiver, msg, htake, hdrop, hsplit⟩ := splits_at_space s
      · -- There is no space, so `iter` stands at the end.
        have huntil := untilSpace_append hs' junk
        have hend : (dollar :: (s ++ 0 :: junk))[1 + s.length]? = some 0 :=
          getChar_append (dollar :: s) (Nat.add_comm ..)
        rw [htake] at huntil
        refine ⟨junk, ?_, ?_⟩
        · simp [clientProcessCmdBuffer, parseLine, huntil, hdrop, hend]
        · simp [parseLine, hdrop]
      · rw [parseLine_direct hdrop htake, List.cons_append,
          clientProcessCmdBuffer_direct hs' hdrop htake hsplit]
        have hlen : s.length = receiver.length + (msg.length + 1) := by
          rw [hsplit, List.length_append, List.length_cons]
        split_ifs with hreceiver hmsg
        · exact ⟨junk, rfl, rfl⟩
        · exact ⟨msg ++ 0 :: junk, rfl, by simp [hlen]; omega⟩
        · exact ⟨receiver ++ 0 :: (msg ++ 0 :: junk), rfl, by simp [hlen]; omega⟩
    · have hmsg : cstrAt (c :: (s ++ 0 :: junk)) 0 = some (asCString (c :: s)) :=
        cstrAt_append [] hs rfl
      have hset : setChar (c :: (s ++ 0 :: junk)) 0 0 = some (0 :: (s ++ 0 :: junk)) :=
        setChar_append [] rfl
      refine ⟨s ++ 0 :: junk, ?_, ?_⟩
      · simp [clientProcessCmdBuffer, parseLine, Ne.symm hc, hdollar, hmsg, hset]
      · simp [parseLine, hdollar]

/-- What is left of a line is a part of it. -/
theorem parseLine_part (s : Bytes) : ∃ cut, s = (parseLine s).2 ++ cut := by
  cases s with
  | nil => exact ⟨[], rfl⟩
  | cons c s =>
    by_cases hdollar : c = dollar
    · subst hdollar
      obtain ⟨hdrop, htake⟩ | ⟨receiver, msg, htake, hdrop, hsplit⟩ := splits_at_space s
      · exact ⟨[], by simp [parseLine, hdrop]⟩
      · rw [parseLine_direct hdrop htake]
        split_ifs
        · exact ⟨[], (List.append_nil _).symm⟩
        · exact ⟨space :: msg, by rw [hsplit]; rfl⟩
        · exact ⟨dollar :: s, rfl⟩
    · exact ⟨c :: s, by simp [parseLine, hdollar]⟩

/-- What is left of a line cannot be sent. -/
theorem parseLine_left (s : Bytes) : (parseLine (parseLine s).2).1 = none := by
  cases s with
  | nil => rfl
  | cons c s =>
    by_cases hdollar : c = dollar
    · subst hdollar
      obtain ⟨hdrop, htake⟩ | ⟨receiver, msg, htake, hdrop, hsplit⟩ := splits_at_space s
      · simp [parseLine, hdrop]
      · have hparse := parseLine_direct hdrop htake
        split_ifs at hparse with hreceiver hmsg
        · rw [hparse, hparse]
        · have hnone : receiver.dropWhile notSpace = [] := by
            rw [List.dropWhile_eq_nil_iff, ← htake]
            exact fun c hc => List.mem_takeWhile_imp hc
          rw [hparse]
          simp [parseLine, hnone]
        · rw [hparse]
          rfl
    · simp [parseLine, hdollar]

/-- A message that the client sends: a text, and for a private one a receiver. -/
structure Sendable (m : ChatroomMessage) : Prop where
  text : 0 < m.msg.chars.length ∧ m.msg.chars.length < cmdBufLen
  general : m.generalMsg = true → m.user = literal "" ∧ m.msg.chars.head? ≠ some dollar
  direct : m.generalMsg = false →
    0 < m.user.chars.length ∧ m.user.chars.length < cmdBufLen ∧ space ∉ m.user.chars

theorem parseLine_sendable (hs : (0 : UInt8) ∉ s) (hlen : s.length < cmdBufLen)
    {m : ChatroomMessage} (h : (parseLine s).1 = some m) : Sendable m := by
  cases s with
  | nil => cases h
  | cons c s =>
    obtain ⟨-, hs'⟩ := not_or.mp (mt List.mem_cons.mpr hs)
    by_cases hdollar : c = dollar
    · subst hdollar
      obtain ⟨hdrop, htake⟩ | ⟨receiver, msg, htake, hdrop, hsplit⟩ := splits_at_space s
      · simp [parseLine, hdrop] at h
      · rw [parseLine_direct hdrop htake] at h
        split_ifs at h with hreceiver hmsg
        cases h
        rw [hsplit] at hs'
        have hchars : ∀ {s : Bytes}, (0 : UInt8) ∉ s → (asCString s).chars = s := cString_of_notMem
        have htext := hchars fun hmem =>
          hs' (List.mem_append_right receiver (List.mem_cons_of_mem space hmem))
        have hname := hchars fun hmem => hs' (List.mem_append_left (space :: msg) hmem)
        rw [hsplit, List.length_cons, List.length_append, List.length_cons] at hlen
        refine ⟨?_, nofun, fun _ => ⟨?_, ?_, ?_⟩⟩
        · rw [htext]
          exact ⟨List.length_pos_iff.mpr hmsg, by omega⟩
        · rw [hname]
          exact List.length_pos_iff.mpr hreceiver
        · rw [hname]
          omega
        · rw [hname, ← htake]
          intro hmem
          have := List.mem_takeWhile_imp hmem
          simp [notSpace] at this
    · simp only [parseLine, if_neg hdollar, Option.some.injEq] at h
      cases h
      have hchars : (asCString (c :: s)).chars = c :: s := cString_of_notMem hs
      refine ⟨?_, fun _ => ⟨rfl, ?_⟩, nofun⟩
      · rw [hchars]
        exact ⟨Nat.succ_pos _, hlen⟩
      · rw [hchars]
        simpa using hdollar

end Lines

/-! ## Keys -/

section Keys

variable {line : CmdLine} {t : Typed}

/-- The buffer holds the line, and `cmd_buf_i` is behind what was typed. -/
structure CmdLine.Stands (line : CmdLine) (t : Typed) : Prop where
  length : line.buf.length = cmdBufLen
  i : line.i = t.text.length
  buf : ∃ junk, line.buf = t.text ++ (t.rest ++ 0 :: junk)
  rest : (0 : UInt8) ∉ t.rest

theorem start_stands : CmdLine.start.Stands ⟨[], []⟩ where
  length := List.length_replicate
  i := rfl
  buf := ⟨List.replicate 255 0, rfl⟩
  rest := List.not_mem_nil

theorem CmdLine.Stands.i_lt (h : line.Stands t) : line.i < cmdBufLen := by
  obtain ⟨junk, hbuf⟩ := h.buf
  rw [h.i, ← h.length, hbuf, List.length_append, List.length_append, List.length_cons]
  omega

/-- The line, and where it ends. -/
theorem CmdLine.Stands.shows (h : line.Stands t) : ∃ junk, line.buf = t.line ++ 0 :: junk := by
  obtain ⟨junk, hbuf⟩ := h.buf
  rw [hbuf, ← List.append_assoc]
  exact exists_cString_append _ junk

theorem CmdLine.Stands.line_length (h : line.Stands t) : t.line.length < cmdBufLen := by
  obtain ⟨junk, hline⟩ := h.shows
  rw [← h.length, hline, List.length_append, List.length_cons]
  omega

theorem cmdKey_newline (h : line.Stands t) :
    ∃ line', cmdKey line newline = some ((t.key newline).1, line') ∧
      line'.Stands (t.key newline).2 := by
  obtain ⟨junk, hline⟩ := h.shows
  have hline0 : (0 : UInt8) ∉ t.line := zero_notMem_cString _
  obtain ⟨junk', hprocess, hlen⟩ := clientProcessCmdBuffer_spec hline0 junk
  refine ⟨⟨(parseLine t.line).2 ++ 0 :: junk', 0⟩, ?_, ?_, rfl, ⟨junk', rfl⟩, ?_⟩
  · simp [cmdKey, Typed.key, hline, hprocess]
  · exact hlen.trans (hline ▸ h.length)
  · obtain ⟨cut, hcut⟩ := parseLine_part t.line
    rw [hcut] at hline0
    exact fun hmem => hline0 (List.mem_append_left _ hmem)

/-- A store behind what was typed. -/
theorem CmdLine.Stands.setChar (h : line.Stands t) (c : UInt8) :
    ∃ junk, setChar line.buf line.i c = some (t.text ++ c :: junk) ∧
      (t.text ++ c :: junk).length = cmdBufLen := by
  obtain ⟨junk, hbuf⟩ := h.buf
  obtain ⟨d, after, hafter⟩ : ∃ d after, t.rest ++ 0 :: junk = d :: after :=
    List.exists_cons_of_ne_nil (by simp)
  refine ⟨after, ?_, ?_⟩
  · rw [hbuf, hafter]
    exact setChar_append _ h.i.symm
  · rw [← h.length, hbuf, hafter]
    simp

theorem cmdKey_deletion (h : line.Stands t) :
    ∃ line', cmdKey line deletion = some ((t.key deletion).1, line') ∧
      line'.Stands (t.key deletion).2 := by
  obtain ⟨junk, hset, hlen⟩ := h.setChar 0
  have hkey : t.key deletion = (none, ⟨t.text.dropLast, cString t.text.getLast?.toList⟩) := by
    simp [Typed.key, show deletion ≠ newline by decide]
  have hcmd : cmdKey line deletion = some (none,
      ⟨t.text ++ 0 :: junk, if 0 < line.i then line.i - 1 else line.i⟩) := by
    simp [cmdKey, show deletion ≠ newline by decide, hset]
  refine ⟨_, by rw [hcmd, hkey], ?_⟩
  rw [hkey]
  refine ⟨hlen, ?_, ?_, zero_notMem_cString _⟩
  · show (if 0 < line.i then line.i - 1 else line.i) = t.text.dropLast.length
    rw [h.i, List.length_dropLast]
    split <;> omega
  · rcases List.eq_nil_or_concat t.text with hnil | ⟨before, d, htext⟩
    · exact ⟨junk, by simp [hnil, cString]⟩
    · -- The last character stands there still, unless it is a NUL itself.
      obtain ⟨junk', hjunk⟩ := exists_cString_append [d] junk
      refine ⟨junk', ?_⟩
      simpa [htext] using hjunk

theorem cmdKey_types (h : line.Stands t) {c : UInt8} (hnewline : c ≠ newline)
    (hdeletion : c ≠ deletion) :
    ∃ line', cmdKey line c = some ((t.key c).1, line') ∧ line'.Stands (t.key c).2 := by
  simp only [cmdKey, Typed.key, if_neg hnewline, if_neg hdeletion, ← h.i]
  split_ifs with hfull
  · obtain ⟨junk, hset, hlen⟩ := h.setChar c
    -- There is room for the NUL.
    obtain ⟨d, after, rfl⟩ : ∃ d after, junk = d :: after := by
      refine List.exists_cons_of_ne_nil fun hnil => ?_
      rw [hnil, List.length_append, List.length_singleton, ← h.i] at hlen
      omega
    have hset' : Chat.setChar (t.text ++ c :: d :: after) (line.i + 1) 0
        = some (t.text ++ [c] ++ 0 :: after) := by
      rw [List.append_cons]
      exact setChar_append _ (by simp [h.i])
    refine ⟨⟨t.text ++ [c] ++ 0 :: after, line.i + 1⟩, by simp [hset, hset'], ?_, ?_, ?_, ?_⟩
    · rw [← hlen]
      simp
    · simp [h.i]
    · exact ⟨after, rfl⟩
    · exact List.not_mem_nil
  · exact ⟨line, rfl, h⟩

/-- **A key changes the buffer as it changes the line.** -/
theorem cmdKey_spec (h : line.Stands t) (c : UInt8) :
    ∃ line', cmdKey line c = some ((t.key c).1, line') ∧ line'.Stands (t.key c).2 := by
  by_cases hnewline : c = newline
  · exact hnewline ▸ cmdKey_newline h
  · by_cases hdeletion : c = deletion
    · exact hdeletion ▸ cmdKey_deletion h
    · exact cmdKey_types h hnewline hdeletion

theorem Typed.key_sendable (h : line.Stands t) {c : UInt8} {m : ChatroomMessage}
    (hm : (t.key c).1 = some m) : Sendable m := by
  unfold Typed.key at hm
  split_ifs at hm
  exact parseLine_sendable (zero_notMem_cString _) h.line_length hm

theorem cmdKeys_spec (keys : Bytes) : ∀ {line : CmdLine} {t : Typed}, line.Stands t →
    ∃ line', cmdKeys line keys = some ((t.keys keys).1, line') ∧ line'.Stands (t.keys keys).2 ∧
      ∀ m ∈ (t.keys keys).1, Sendable m := by
  induction keys with
  | nil => exact fun h => ⟨_, rfl, h, nofun⟩
  | cons c keys ih =>
    intro line t h
    obtain ⟨line₁, hkey, h₁⟩ := cmdKey_spec h c
    obtain ⟨line₂, hkeys, h₂, hsend⟩ := ih h₁
    refine ⟨line₂, by simp [cmdKeys, Typed.keys, hkey, hkeys], h₂, fun m hm => ?_⟩
    rcases List.mem_append.mp hm with hm | hm
    · exact Typed.key_sendable h (Option.mem_toList.mp hm)
    · exact hsend m hm

/-- **The buffer is never left, and the messages are those of the lines that were typed**, whatever
is typed. Each has a text that the server takes, and a private one has a receiver. -/
theorem client_keys (keys : Bytes) :
    ∃ line, cmdKeys .start keys = some (((Typed.mk [] []).keys keys).1, line) ∧
      line.i < line.buf.length ∧
      (∃ junk, line.buf = ((Typed.mk [] []).keys keys).2.line ++ 0 :: junk) ∧
      ∀ m ∈ ((Typed.mk [] []).keys keys).1, Sendable m := by
  obtain ⟨line, hkeys, h, hsend⟩ := cmdKeys_spec keys start_stands
  exact ⟨line, hkeys, h.length ▸ h.i_lt, h.shows, hsend⟩

-- "a", "b" and a deletion are sent as "ab".
example : (((Typed.mk [] []).keys [97, 98, deletion, newline]).1.map fun m => m.msg.chars)
    = [[97, 98]] := by decide

/-- Where nothing was typed, what is left of a line is not sent. -/
theorem Typed.key_again (t : Typed) : ((t.key newline).2.key newline).1 = none := by
  obtain ⟨cut, hcut⟩ := parseLine_part t.line
  have hleft : (t.key newline).2.line = (parseLine t.line).2 := by
    refine cString_of_notMem fun hmem => ?_
    have hline : (0 : UInt8) ∉ t.line := zero_notMem_cString _
    rw [hcut] at hline
    exact hline (List.mem_append_left _ hmem)
  show (parseLine (t.key newline).2.line).1 = none
  rw [hleft]
  exact parseLine_left t.line

theorem Typed.keys_again (keys : Bytes) (t : Typed) :
    (t.keys (keys ++ [newline, newline])).1 = (t.keys (keys ++ [newline])).1 := by
  induction keys generalizing t with
  | nil =>
    have hnone := t.key_again
    simp [Typed.keys, hnone]
  | cons c keys ih => simp [Typed.keys, ih]

/-- **A line is sent once**: a second newline sends nothing. -/
theorem enter_again (keys : Bytes) : ∃ msgs line line',
    cmdKeys .start (keys ++ [newline]) = some (msgs, line) ∧
      cmdKeys .start (keys ++ [newline, newline]) = some (msgs, line') := by
  obtain ⟨line, hkeys, -⟩ := cmdKeys_spec (keys ++ [newline]) start_stands
  obtain ⟨line', hkeys', -⟩ := cmdKeys_spec (keys ++ [newline, newline]) start_stands
  rw [Typed.keys_again] at hkeys'
  exact ⟨_, line, line', hkeys, hkeys'⟩

end Keys

end Chlibs.Chat

import Chlibs.Json.Grammar

/-!
# What the parser does with tokens

Two halves for every function: what it `Reads` from any input, and that it reads every token.

* `stringFromInStreamNoTrim_reads`, `stringFromInStreamNoTrim_complete` — strings.
* `jsonNumber_reads`, `jsonNumber_complete` — numbers.
-/

namespace Chlibs.Chjson

open Infra Util

variable {Num α : Type}

/-- From `s` the call ends with `P` of the result and what is left, or with a syntax error. -/
def Reads (p : ParserM α) (s : Bytes) (P : α → Bytes → Prop) : Prop :=
  Ends p s P fun e => e = .state .syntaxError

namespace Reads

variable {β : Type} {p : ParserM α} {f : α → ParserM β} {s : Bytes} {P : α → Bytes → Prop}
  {Q : β → Bytes → Prop}

theorem bind (hp : Reads p s P) (hf : ∀ a r, P a r → Reads (f a) r Q) : Reads (p >>= f) s Q :=
  Ends.bind (Ends.mono hp (fun a r h => hf a r h) fun _ h => h)

theorem pure {a : α} (h : P a s) : Reads (pure a) s P := Ends.pure h

theorem syntaxError : Reads (throwSyntax : ParserM α) s P := Ends.throw rfl

theorem mono {P' : α → Bytes → Prop} (hp : Reads p s P) (h : ∀ a r, P a r → P' a r) :
    Reads p s P' := Ends.mono hp h fun _ he => he

theorem withFuel {q : Nat → ParserM α} (h : Reads (q (s.length + 1)) s P) :
    Reads (withFuel q) s P := h

end Reads

/-! ## Characters -/

theorem nextChar_reads (s : Bytes) : Reads nextChar s fun c r => s = c :: r := by
  cases s with
  | nil => exact Ends.of_error rfl rfl
  | cons c r => exact Ends.of_ok rfl rfl

theorem peekChar_reads (s : Bytes) : Reads peekChar s fun c r => r = s ∧ ∃ s', s = c :: s' := by
  cases s with
  | nil => exact Ends.of_error rfl rfl
  | cons c r => exact Ends.of_ok rfl ⟨rfl, r, rfl⟩

theorem expectChar_reads (c : UInt8) (s : Bytes) : Reads (expectChar c) s fun _ r => s = c :: r := by
  refine Reads.bind (nextChar_reads s) ?_
  rintro actual r rfl
  by_cases h : c = actual
  · rw [if_pos h, h]
    exact Reads.pure rfl
  · rw [if_neg h]
    exact Reads.syntaxError

theorem expectChar_complete (c : UInt8) (rest : Bytes) :
    expectChar c (c :: rest) = .ok () rest := by
  show (if c = c then pure () else throwSyntax : ParserM Unit) rest = _
  rw [if_pos rfl]
  rfl

theorem expectCstr_reads : ∀ (cstr s : Bytes), Reads (expectCstr cstr) s fun _ r => s = cstr ++ r
  | [], _ => Reads.pure rfl
  | c :: cs, s => by
    refine Reads.bind (expectChar_reads c s) ?_
    rintro - r rfl
    refine (expectCstr_reads cs r).mono ?_
    rintro - r' rfl
    rfl

theorem expectCstr_complete : ∀ cstr rest : Bytes, expectCstr cstr (cstr ++ rest) = .ok () rest
  | [], _ => rfl
  | c :: cs, rest => by
    rw [expectCstr, List.cons_append, bind_of_ok (expectChar_complete c _)]
    exact expectCstr_complete cs rest

/-! ## Whitespace -/

theorem Ws.refl (s : Bytes) : Ws s s := ⟨[], by simp, rfl⟩

theorem Ws.suffix {s rest : Bytes} : Ws s rest → rest <:+ s
  | ⟨w, _, h⟩ => ⟨w, h.symm⟩

theorem trimWs_eq : ∀ s : Bytes, trimWs s = .ok () (s.dropWhile isWhitespace)
  | [] => rfl
  | c :: s => by
    by_cases hc : isWhitespace c = true
    · rw [List.dropWhile_cons_of_pos hc, ← trimWs_eq s, trimWs, if_pos hc]
    · rw [List.dropWhile_cons_of_neg hc, trimWs, if_neg hc]

theorem trimWs_reads (s : Bytes) : Reads trimWs s fun _ r => Ws s r :=
  Ends.of_ok (trimWs_eq s) ⟨s.takeWhile isWhitespace, fun _ hc => List.mem_takeWhile_imp hc,
    List.takeWhile_append_dropWhile.symm⟩

/-- All of the whitespace is taken. -/
theorem trimWs_complete {s : Bytes} {c : UInt8} {rest : Bytes} (h : Ws s (c :: rest))
    (hc : isWhitespace c = false) : trimWs s = .ok () (c :: rest) := by
  obtain ⟨w, hw, rfl⟩ := h
  rw [trimWs_eq, List.dropWhile_append_of_pos hw, List.dropWhile_cons_of_neg (by simp [hc])]

/-- All whitespace is in front of one character. -/
theorem Ws.unique {s a b : Bytes} {c d : UInt8} (ha : Ws s (c :: a)) (hb : Ws s (d :: b))
    (hc : isWhitespace c = false) (hd : isWhitespace d = false) : c = d ∧ a = b := by
  have hsame := (trimWs_complete ha hc).symm.trans (trimWs_complete hb hd)
  simp only [EStateM.Result.ok.injEq, true_and] at hsame
  exact List.cons.inj hsame

/-! ## Strings -/

theorem IsChars.suffix {str s rest : Bytes} (h : IsChars str s rest) : rest <:+ s := by
  induction h with
  | quote => exact List.suffix_cons _ _
  | plain _ _ _ _ ih => exact ih.trans (List.suffix_cons _ _)
  | escape _ _ ih => exact ih.trans ((List.suffix_cons _ _).trans (List.suffix_cons _ _))
  | unicode _ _ _ ih =>
    exact ih.trans ((List.suffix_append _ _).trans
      ((List.suffix_cons _ _).trans (List.suffix_cons _ _)))

theorem IsString.suffix {str s rest : Bytes} : IsString str s rest → rest <:+ s
  | .mk h => h.suffix.trans (List.suffix_cons _ _)

/-- Characters are signed, so that the bytes from 0x80 on are below 0. -/
theorem charVal_control (c : UInt8) : (0 ≤ charVal c ∧ charVal c < 0x20) ↔ c < 0x20 := by
  have hc : c.toNat < 256 := c.toNat_lt
  rw [UInt8.lt_iff_toNat_lt, charVal]
  show _ ↔ c.toNat < 32
  split <;> omega

theorem controlChar_eq_some {letter c : UInt8} :
    controlChar letter = some c ↔ (letter, c) ∈ escapes := by
  constructor
  · intro h
    unfold controlChar at h
    split_ifs at h <;> cases h <;> subst_vars <;> decide
  · intro h
    simp only [escapes, List.mem_cons, Prod.mk.injEq, List.not_mem_nil, or_false] at h
    rcases h with ⟨rfl, rfl⟩ | ⟨rfl, rfl⟩ | ⟨rfl, rfl⟩ | ⟨rfl, rfl⟩ | ⟨rfl, rfl⟩ | ⟨rfl, rfl⟩ |
      ⟨rfl, rfl⟩ <;> rfl

theorem hexDigits_reads : ∀ (k : Nat) (s : Bytes), Reads (hexDigits k) s fun digits r =>
    digits.length = k ∧ (∀ c ∈ digits, isHexDigit c = true) ∧ s = digits ++ r
  | 0, _ => Reads.pure ⟨rfl, by simp, rfl⟩
  | k + 1, s => by
    refine Reads.bind (nextChar_reads s) ?_
    rintro c r rfl
    by_cases hc : isHexDigit c = true
    · rw [if_pos hc]
      refine Reads.bind (hexDigits_reads k r) ?_
      rintro digits r' ⟨hlen, hhex, rfl⟩
      exact Reads.pure ⟨by rw [List.length_cons, hlen], List.forall_mem_cons.mpr ⟨hc, hhex⟩, rfl⟩
    · rw [if_neg hc]
      exact Reads.syntaxError

theorem hexDigits_complete : ∀ (digits rest : Bytes), (∀ c ∈ digits, isHexDigit c = true) →
    hexDigits digits.length (digits ++ rest) = .ok digits rest
  | [], _, _ => rfl
  | c :: digits, rest, h => by
    obtain ⟨hc, hdigits⟩ := List.forall_mem_cons.mp h
    have hnext : nextChar (c :: (digits ++ rest)) = .ok c (digits ++ rest) := rfl
    rw [List.length_cons, hexDigits, List.cons_append, bind_of_ok hnext, if_pos hc,
      bind_of_ok (hexDigits_complete digits rest hdigits)]
    rfl

/-- What is added to the builder, and the escape that is read in front of any characters. -/
theorem expectControlSuffix_reads (builder s : Bytes) :
    Reads (expectControlSuffix builder) s fun builder' r => r <:+ s ∧ ∃ add,
      builder' = builder ++ add ∧
        ∀ str rest, IsChars str r rest → IsChars (add ++ str) (0x5C :: s) rest := by
  refine Reads.bind (nextChar_reads s) ?_
  rintro c r rfl
  cases hcontrol : controlChar c with
  | some control =>
    exact Reads.pure ⟨List.suffix_cons _ _, [control], rfl,
      fun _ _ h => .escape (controlChar_eq_some.mp hcontrol) h⟩
  | none =>
    by_cases hu : c = 0x75
    · subst hu
      simp only [if_true]
      refine Reads.bind (hexDigits_reads 4 r) ?_
      rintro digits r' ⟨hlen, hhex, rfl⟩
      rw [unicodeToUtf8_string, toNat_unicodeFromCstr hlen]
      exact Reads.pure ⟨(List.suffix_append _ _).trans (List.suffix_cons _ _), _, rfl,
        fun _ _ h => .unicode hlen hhex h⟩
    · simp only [if_neg hu]
      exact Reads.syntaxError

theorem stringLoop_reads : ∀ (fuel : Nat) (builder s : Bytes), s.length < fuel →
    Reads (stringLoop fuel builder) s fun builder' r =>
      ∃ str, builder' = builder ++ str ∧ IsChars str s r
  | fuel + 1, builder, s, hfuel => by
    refine Reads.bind (nextChar_reads s) ?_
    rintro c r rfl
    rw [List.length_cons] at hfuel
    by_cases hcontrol : 0 ≤ charVal c ∧ charVal c < 0x20
    · rw [if_pos hcontrol]
      exact Reads.syntaxError
    rw [if_neg hcontrol]
    by_cases hquote : c = 0x22
    · subst hquote
      exact Reads.pure ⟨[], (List.append_nil _).symm, .quote⟩
    rw [if_neg hquote]
    by_cases hslash : c = 0x5C
    · subst hslash
      rw [if_pos rfl]
      refine Reads.bind (expectControlSuffix_reads builder r) ?_
      rintro builder' r' ⟨hsuffix, add, rfl, hadd⟩
      have hlen := hsuffix.length_le
      refine (stringLoop_reads fuel (builder ++ add) r' (by omega)).mono ?_
      rintro _ rest ⟨str, rfl, hstr⟩
      exact ⟨add ++ str, List.append_assoc .., hadd str rest hstr⟩
    · rw [if_neg hslash]
      refine (stringLoop_reads fuel (builder ++ [c]) r (by omega)).mono ?_
      rintro _ rest ⟨str, rfl, hstr⟩
      rw [charVal_control, UInt8.not_lt] at hcontrol
      exact ⟨c :: str, List.append_assoc .., .plain hcontrol hquote hslash hstr⟩

/-- **What is read as a string is one.** -/
theorem stringFromInStreamNoTrim_reads (s : Bytes) :
    Reads (stringFromInStreamNoTrim []) s fun str r => IsString str s r := by
  refine Reads.bind (expectChar_reads 0x22 s) ?_
  rintro - r rfl
  refine Reads.mono (stringLoop_reads (r.length + 1) [] r (Nat.lt_succ_self _)).withFuel ?_
  rintro _ rest ⟨str, rfl, hstr⟩
  exact .mk hstr

/-- The escape of four digits, with the builder put behind. -/
theorem expectControlSuffix_unicode {digits : Bytes} (hlen : digits.length = 4)
    (hhex : ∀ c ∈ digits, isHexDigit c = true) (builder rest : Bytes) :
    expectControlSuffix builder (0x75 :: (digits ++ rest))
      = .ok (builder ++ utf8Of (hexValue digits)) rest := by
  have hdigits := hexDigits_complete digits rest hhex
  rw [hlen] at hdigits
  have hnext : nextChar (0x75 :: (digits ++ rest)) = .ok 0x75 (digits ++ rest) := rfl
  rw [expectControlSuffix, bind_of_ok hnext]
  show (hexDigits 4 >>= _) _ = _
  rw [bind_of_ok hdigits, unicodeToUtf8_string, toNat_unicodeFromCstr hlen]
  rfl

theorem stringLoop_complete {str s rest : Bytes} (h : IsChars str s rest) :
    ∀ (fuel : Nat) (builder : Bytes), s.length < fuel →
      stringLoop fuel builder s = .ok (builder ++ str) rest := by
  have next (c : UInt8) (s : Bytes) : nextChar (c :: s) = .ok c s := rfl
  -- The induction is on the text; the fuel goes down with every character of it.
  induction h with
  | quote =>
    intro fuel builder hfuel
    obtain ⟨fuel, rfl⟩ := Nat.exists_eq_add_of_lt hfuel
    rw [stringLoop, bind_of_ok (next _ _), List.append_nil]
    rfl
  | @plain c str s rest hge hquote hslash _ ih =>
    intro fuel builder hfuel
    obtain ⟨fuel, rfl⟩ : ∃ k, fuel = k + 1 := ⟨fuel - 1, by omega⟩
    rw [List.length_cons] at hfuel
    have hcontrol : ¬(0 ≤ charVal c ∧ charVal c < 0x20) := by
      rwa [charVal_control, UInt8.not_lt]
    rw [stringLoop, bind_of_ok (next _ _), if_neg hcontrol, if_neg hquote, if_neg hslash,
      ih fuel _ (by omega), List.append_assoc]
    rfl
  | @escape letter c str s rest hescape _ ih =>
    intro fuel builder hfuel
    obtain ⟨fuel, rfl⟩ : ∃ k, fuel = k + 1 := ⟨fuel - 1, by omega⟩
    rw [List.length_cons, List.length_cons] at hfuel
    have hsuffix : expectControlSuffix builder (letter :: s) = .ok (builder ++ [c]) s := by
      rw [expectControlSuffix, bind_of_ok (next _ _), controlChar_eq_some.mpr hescape]
      rfl
    rw [stringLoop, bind_of_ok (next _ _)]
    show (expectControlSuffix builder >>= _) _ = _
    rw [bind_of_ok hsuffix, ih fuel _ (by omega), List.append_assoc]
    rfl
  | @unicode digits str s rest hlen hhex _ ih =>
    intro fuel builder hfuel
    obtain ⟨fuel, rfl⟩ : ∃ k, fuel = k + 1 := ⟨fuel - 1, by omega⟩
    rw [List.length_cons, List.length_cons, List.length_append] at hfuel
    rw [stringLoop, bind_of_ok (next _ _)]
    show (expectControlSuffix builder >>= _) _ = _
    rw [bind_of_ok (expectControlSuffix_unicode hlen hhex builder s), ih fuel _ (by omega),
      List.append_assoc]

/-- **Every string is read.** -/
theorem stringFromInStreamNoTrim_complete {str s rest : Bytes} :
    IsString str s rest → stringFromInStreamNoTrim [] s = .ok str rest
  | .mk h => by
    rw [stringFromInStreamNoTrim, bind_of_ok (expectChar_complete 0x22 _)]
    exact stringLoop_complete h _ [] (Nat.lt_succ_self _)

theorem stringFromInStreamNoTrim_eq_ok {str s rest : Bytes} :
    stringFromInStreamNoTrim [] s = .ok str rest ↔ IsString str s rest := by
  have hreads : Reads (stringFromInStreamNoTrim []) s _ := stringFromInStreamNoTrim_reads s
  exact ⟨Ends.ok_of hreads, stringFromInStreamNoTrim_complete⟩

/-! ## Numbers -/

/-- The runs of number-like characters are no longer than the buffer. -/
def NumberRuns (s : Bytes) : Prop :=
  ∀ run, run <:+: s → (∀ c ∈ run, isNumberLike c = true) → run.length ≤ numberMaxStrWidth

theorem NumberRuns.suffix {s rest : Bytes} (h : NumberRuns s) (hsuffix : rest <:+ s) :
    NumberRuns rest := fun run hrun => h run (hrun.trans hsuffix.isInfix)

variable {strtod : Bytes → Num × Nat}

/-- The buffer: the run, or as much of it as there is room for. -/
def numberBuf (s : Bytes) : Bytes := (s.takeWhile isNumberLike).take numberMaxStrWidth

/-- What is read as a number: all that is in the buffer, if `strtod` takes it. -/
structure IsBuffered (strtod : Bytes → Num × Nat) (n : Num) (s rest : Bytes) : Prop where
  nonempty : numberBuf s ≠ []
  text : s = numberBuf s ++ rest
  value : strtod (numberBuf s) = (n, (numberBuf s).length)

/-- The loop stops at the end of the run or of the buffer. -/
theorem numberLoop_eq : ∀ (k : Nat) (s : Bytes),
    ∃ rest, numberLoop k s = .ok ((s.takeWhile isNumberLike).take k) rest ∧
      s = (s.takeWhile isNumberLike).take k ++ rest
  | 0, s => ⟨s, by cases s <;> rfl, rfl⟩
  | k + 1, [] => ⟨[], rfl, rfl⟩
  | k + 1, c :: s => by
    by_cases hc : isNumberLike c = true
    · obtain ⟨rest, hrun, hs⟩ := numberLoop_eq k s
      rw [List.takeWhile_cons_of_pos hc, List.take_succ_cons, numberLoop, if_pos hc, hrun]
      exact ⟨rest, rfl, congrArg (c :: ·) hs⟩
    · rw [List.takeWhile_cons_of_neg hc, List.take_nil, numberLoop, if_neg hc]
      exact ⟨c :: s, rfl, rfl⟩

/-- **A number is what the buffer takes**, and anything else is a syntax error. -/
theorem jsonNumber_buffered (s : Bytes) : Reads (jsonNumberFromStreamNoTrim strtod) s fun json r =>
    ∃ n, json = .number n ∧ IsBuffered strtod n s r := by
  obtain ⟨rest, hrun, htext⟩ := numberLoop_eq numberMaxStrWidth s
  have hloop : Reads (numberLoop numberMaxStrWidth) s fun buf r => buf = numberBuf s ∧ r = rest :=
    Ends.of_ok hrun ⟨rfl, rfl⟩
  refine Reads.bind hloop ?_
  rintro _ _ ⟨rfl, rfl⟩
  by_cases hempty : (numberBuf s).length = 0
  · rw [if_pos hempty]
    exact Reads.syntaxError
  rw [if_neg hempty]
  by_cases hvalue : (numberBuf s).length = (strtod (numberBuf s)).2
  · rw [if_neg (not_not.mpr hvalue)]
    have hne : numberBuf s ≠ [] := fun h => hempty (by rw [h]; rfl)
    exact Reads.pure ⟨_, rfl, hne, htext, Prod.ext rfl hvalue.symm⟩
  · rw [if_pos hvalue]
    exact Reads.syntaxError

theorem jsonNumber_eq_ok {s rest : Bytes} {json : Json Num} :
    jsonNumberFromStreamNoTrim strtod s = .ok json rest ↔
      ∃ n, json = .number n ∧ IsBuffered strtod n s rest := by
  have hreads : Reads (jsonNumberFromStreamNoTrim strtod) s _ := jsonNumber_buffered s
  constructor
  · exact Ends.ok_of hreads
  · rintro ⟨n, rfl, hne, htext, hvalue⟩
    obtain ⟨rest', hrun, htext'⟩ := numberLoop_eq numberMaxStrWidth s
    have hrest : rest = rest' := List.append_cancel_left (htext.symm.trans htext')
    subst hrest
    have hpos : ¬(numberBuf s).length = 0 := fun h => hne (List.length_eq_zero_iff.mp h)
    have hloop : numberLoop numberMaxStrWidth s = .ok (numberBuf s) rest := hrun
    rw [jsonNumberFromStreamNoTrim, bind_of_ok hloop, if_neg hpos, hvalue, if_neg (not_not.mpr rfl)]
    rfl

/-- A buffer that holds the whole run has it all. -/
theorem takeWhile_run {run rest : Bytes} (hlike : ∀ c ∈ run, isNumberLike c = true)
    (hend : ∀ c ∈ rest.head?, isNumberLike c = false) : (run ++ rest).takeWhile isNumberLike = run := by
  rw [List.takeWhile_append_of_pos hlike]
  cases rest with
  | nil => rw [List.takeWhile_nil, List.append_nil]
  | cons c rest => rw [List.takeWhile_cons_of_neg (by simp [hend c rfl]), List.append_nil]

theorem IsRun.isBuffered {n : Num} {run s rest : Bytes} (h : IsRun strtod n run s rest)
    (hlen : run.length ≤ numberMaxStrWidth) : IsBuffered strtod n s rest := by
  obtain ⟨hne, hlike, rfl, hend, hvalue⟩ := h
  have hbuf : numberBuf (run ++ rest) = run := by
    rw [numberBuf, takeWhile_run hlike hend, List.take_of_length_le hlen]
  exact ⟨by rwa [hbuf], by rw [hbuf], by rw [hbuf, hvalue]⟩

theorem IsBuffered.isNumber {n : Num} {s rest : Bytes} (hs : NumberRuns s)
    (h : IsBuffered strtod n s rest) : IsNumber strtod n s rest := by
  obtain ⟨hne, htext, hvalue⟩ := h
  have hlike : ∀ c ∈ s.takeWhile isNumberLike, isNumberLike c = true := fun _ hc =>
    List.mem_takeWhile_imp hc
  have hbuf : numberBuf s = s.takeWhile isNumberLike :=
    List.take_of_length_le (hs _ (List.takeWhile_prefix _).isInfix hlike)
  rw [hbuf] at hne htext hvalue
  refine ⟨s.takeWhile isNumberLike, hne, hlike, htext, ?_, hvalue⟩
  have hdrop : s.dropWhile isNumberLike = rest :=
    List.append_cancel_left (List.takeWhile_append_dropWhile.trans htext)
  intro c hc
  rw [← hdrop] at hc
  have hnot := List.head?_dropWhile_not isNumberLike s
  rw [hc] at hnot
  exact hnot

/-- **What is read as a number is one**, where the runs are short enough. -/
theorem jsonNumber_reads {s : Bytes} (hs : NumberRuns s) :
    Reads (jsonNumberFromStreamNoTrim strtod) s fun json r =>
      ∃ n, json = .number n ∧ IsNumber strtod n s r :=
  (jsonNumber_buffered s).mono fun _ _ ⟨n, hjson, hn⟩ => ⟨n, hjson, hn.isNumber hs⟩

/-- **Every number is read** whose run fits the buffer. -/
theorem jsonNumber_complete {n : Num} {run s rest : Bytes} (h : IsRun strtod n run s rest)
    (hlen : run.length ≤ numberMaxStrWidth) :
    jsonNumberFromStreamNoTrim strtod s = .ok (.number n) rest :=
  jsonNumber_eq_ok.mpr ⟨n, rfl, h.isBuffered hlen⟩

end Chlibs.Chjson

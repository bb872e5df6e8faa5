import Chlibs.Json.Tokens

/-!
# The parser and its grammar

Everything that the parser reads has a derivation, and every derivation is read to its end.

* `itemsFromStream_reads`, `itemsFromStream_complete` — lists and objects, whatever the items.
* `jsonFromInStream_reads` — soundness: a document, or a syntax error.
* `jsonFromInStream_complete` — completeness.
-/

namespace Chlibs.Chjson

open Infra Util

variable {Num τ α : Type}

/-! ## What is left is a suffix -/

section Suffix

variable {V : τ → Bytes → Bytes → Prop} {start close : UInt8} {ts : List τ} {s rest : Bytes}

theorem ItemsTail.suffix (h : ItemsTail close V ts s rest) :
    (∀ t ∈ ts, ∀ s r, V t s r → r <:+ s) → rest <:+ s := by
  induction h with
  | done hws => exact fun _ => (List.suffix_cons _ _).trans hws.suffix
  | next hws hws' ht _ ih =>
    intro hV
    obtain ⟨hVt, hVts⟩ := List.forall_mem_cons.mp hV
    exact (ih hVts).trans ((hVt _ _ ht).trans
      (hws'.suffix.trans ((List.suffix_cons _ _).trans hws.suffix)))

theorem Items.suffix (h : Items start close V ts s rest)
    (hV : ∀ t ∈ ts, ∀ s r, V t s r → r <:+ s) : rest <:+ s := by
  cases h with
  | empty hws => exact (List.suffix_cons _ _).trans (hws.suffix.trans (List.suffix_cons _ _))
  | first hws ht htail =>
    obtain ⟨hVt, hVts⟩ := List.forall_mem_cons.mp hV
    exact (htail.suffix hVts).trans ((hVt _ _ ht).trans
      (hws.suffix.trans (List.suffix_cons _ _)))

theorem Items.exists_cons : Items start close V ts s rest → ∃ s', s = start :: s'
  | .empty _ => ⟨_, rfl⟩
  | .first _ _ _ => ⟨_, rfl⟩

theorem IsMember.suffix {V : JsonText Num → Bytes → Bytes → Prop} {m : Bytes × JsonText Num}
    (hV : ∀ s r, V m.2 s r → r <:+ s) : IsMember V m s rest → rest <:+ s
  | .mk hkey hws hws' ht =>
    (hV _ _ ht).trans (hws'.suffix.trans
      ((List.suffix_cons _ _).trans (hws.suffix.trans hkey.suffix)))

end Suffix

section Value

variable {strtod : Bytes → Num × Nat} {N : Num → Bytes → Bytes → Prop}

/-- The tokens for numbers are numbers. -/
def NumberTokens (strtod : Bytes → Num × Nat) (N : Num → Bytes → Bytes → Prop) : Prop :=
  ∀ n s r, N n s r → IsNumber strtod n s r

/-- The tokens for numbers start with a number-like character. -/
def NumberLike (N : Num → Bytes → Bytes → Prop) : Prop :=
  ∀ n s r, N n s r → r <:+ s ∧ ∃ c s', s = c :: s' ∧ isNumberLike c = true

theorem NumberTokens.numberLike (hN : NumberTokens strtod N) : NumberLike N := by
  intro n s r hn
  obtain ⟨run, hne, hlike, rfl, -, -⟩ := hN n s r hn
  obtain ⟨c, run, rfl⟩ := List.exists_cons_of_ne_nil hne
  exact ⟨List.suffix_append _ _, c, run ++ r, rfl, hlike c List.mem_cons_self⟩

theorem IsValue.suffix (hN : NumberLike N) (t : JsonText Num) :
    ∀ s rest, IsValue N t s rest → rest <:+ s := by
  induction t using JsonText.induct with
  | object members ih =>
    intro s rest h
    cases h with
    | object hitems => exact hitems.suffix fun m hm s r => IsMember.suffix (ih m hm)
  | list elements ih =>
    intro s rest h
    cases h with
    | list hitems => exact hitems.suffix ih
  | string str =>
    intro s rest h
    cases h with
    | string hstr => exact hstr.suffix
  | number n =>
    intro s rest h
    cases h with
    | number hn => exact (hN n s rest hn).1
  | boolean b =>
    intro s rest h
    cases h with
    | trueText => exact ⟨[0x74, 0x72, 0x75, 0x65], rfl⟩
    | falseText => exact ⟨[0x66, 0x61, 0x6C, 0x73, 0x65], rfl⟩
  | null =>
    intro s rest h
    cases h
    exact ⟨[0x6E, 0x75, 0x6C, 0x6C], rfl⟩

/-- An item starts neither with whitespace nor with what closes a list or an object. -/
def StartsItem (s : Bytes) : Prop :=
  ∃ c s', s = c :: s' ∧ isWhitespace c = false ∧ c ≠ 0x5D ∧ c ≠ 0x7D

/-- No number starts as any other value does. -/
theorem isNumberLike_ne {c : UInt8} (h : isNumberLike c = true) :
    isWhitespace c = false ∧ c ≠ 0x5D ∧ c ≠ 0x7D ∧ c ≠ 0x7B ∧ c ≠ 0x5B ∧ c ≠ 0x22 ∧ c ≠ 0x66 ∧
      c ≠ 0x74 ∧ c ≠ 0x6E := by
  refine ⟨?_, ?_, ?_, ?_, ?_, ?_, ?_, ?_, ?_⟩
  · by_contra hws
    rw [Bool.not_eq_false] at hws
    simp only [isWhitespace, Bool.or_eq_true, beq_iff_eq, or_assoc] at hws
    rcases hws with rfl | rfl | rfl | rfl <;> exact absurd h (by decide)
  all_goals
    rintro rfl
    exact absurd h (by decide)

theorem IsValue.starts (hN : NumberLike N) {t : JsonText Num} {s rest : Bytes}
    (h : IsValue N t s rest) : StartsItem s := by
  cases h with
  | object hitems => cases hitems <;> exact ⟨_, _, rfl, by decide, by decide, by decide⟩
  | list hitems => cases hitems <;> exact ⟨_, _, rfl, by decide, by decide, by decide⟩
  | string hstr =>
    cases hstr
    exact ⟨_, _, rfl, by decide, by decide, by decide⟩
  | number hn =>
    obtain ⟨-, c, s', rfl, hc⟩ := hN _ _ _ hn
    obtain ⟨hws, hlist, hobject, -⟩ := isNumberLike_ne hc
    exact ⟨c, s', rfl, hws, hlist, hobject⟩
  | trueText => exact ⟨_, _, rfl, by decide, by decide, by decide⟩
  | falseText => exact ⟨_, _, rfl, by decide, by decide, by decide⟩
  | nullText => exact ⟨_, _, rfl, by decide, by decide, by decide⟩

theorem IsMember.starts {V : JsonText Num → Bytes → Bytes → Prop} {m : Bytes × JsonText Num}
    {s rest : Bytes} (h : IsMember V m s rest) : StartsItem s := by
  obtain ⟨⟨_⟩, -, -, -⟩ := h
  exact ⟨_, _, rfl, by decide, by decide, by decide⟩

end Value

/-! ## Items -/

section Items

variable {V : τ → Bytes → Bytes → Prop} {start close : UInt8} {item : α → ParserM α}
  (step : α → τ → α)

theorem itemsLoop_reads {s0 : Bytes} (hsuffix : ∀ t s r, V t s r → r <:+ s)
    (hitem : ∀ acc s, s <:+ s0 → Reads (item acc) s fun acc' r => ∃ t, V t s r ∧ acc' = step acc t) :
    ∀ (fuel : Nat) (acc : α) (s : Bytes), s <:+ s0 → s.length < fuel →
      Reads (itemsLoop close item fuel acc) s fun acc' r =>
        ∃ ts, ItemsTail close V ts s r ∧ acc' = ts.foldl step acc
  | fuel + 1, acc, s, hs, hfuel => by
    refine Reads.bind (trimWs_reads s) ?_
    rintro - s' hws
    refine Reads.bind (nextChar_reads s') ?_
    rintro c s1 rfl
    by_cases hclose : c = close
    · subst hclose
      rw [if_pos rfl]
      exact Reads.pure ⟨[], .done hws, rfl⟩
    rw [if_neg hclose]
    by_cases hcomma : c = 0x2C
    · subst hcomma
      rw [if_neg (not_not.mpr rfl)]
      refine Reads.bind (trimWs_reads s1) ?_
      rintro - s2 hws'
      have hs2 : s2 <:+ s1 := hws'.suffix
      have hlen1 := hws.suffix.length_le
      have hs1 : s1 <:+ s := (List.suffix_cons _ _).trans hws.suffix
      refine Reads.bind (hitem acc s2 (hs2.trans (hs1.trans hs))) ?_
      rintro _ s3 ⟨t, ht, rfl⟩
      have hs3 : s3 <:+ s1 := (hsuffix _ _ _ ht).trans hs2
      have hlen3 := hs3.length_le
      rw [List.length_cons] at hlen1
      refine (itemsLoop_reads hsuffix hitem fuel (step acc t) s3 (hs3.trans (hs1.trans hs))
        (by omega)).mono ?_
      rintro _ rest ⟨ts, hts, rfl⟩
      exact ⟨t :: ts, .next hws hws' ht hts, rfl⟩
    · rw [if_pos hcomma]
      exact Reads.syntaxError

/-- **What is read are items**, if every item is. -/
theorem itemsFromStream_reads {s : Bytes} (hsuffix : ∀ t s r, V t s r → r <:+ s)
    (hitem : ∀ acc s1, s1 <:+ s → s1.length < s.length →
      Reads (item acc) s1 fun acc' r => ∃ t, V t s1 r ∧ acc' = step acc t) (acc : α) :
    Reads (itemsFromStream start close item acc) s fun acc' r =>
      ∃ ts, Items start close V ts s r ∧ acc' = ts.foldl step acc := by
  refine Reads.bind (expectChar_reads start s) ?_
  rintro - s0 rfl
  refine Reads.bind (trimWs_reads s0) ?_
  rintro - s1 hws
  refine Reads.bind (peekChar_reads s1) ?_
  rintro c _ ⟨rfl, s1', rfl⟩
  by_cases hclose : c = close
  · subst hclose
    rw [if_pos rfl]
    have hrun : (do consumeLah; pure acc : ParserM α) (c :: s1') = .ok acc s1' := rfl
    exact Ends.of_ok hrun ⟨[], .empty hws, rfl⟩
  rw [if_neg hclose]
  have hitem' : ∀ acc s2, s2 <:+ s0 →
      Reads (item acc) s2 fun acc' r => ∃ t, V t s2 r ∧ acc' = step acc t := by
    intro acc s2 hs2
    exact hitem acc s2 (hs2.trans (List.suffix_cons _ _)) (Nat.lt_succ_of_le hs2.length_le)
  refine Reads.bind (hitem' acc _ hws.suffix) ?_
  rintro _ s2 ⟨t, ht, rfl⟩
  have hs2 : s2 <:+ s0 := (hsuffix _ _ _ ht).trans hws.suffix
  refine Reads.withFuel ((itemsLoop_reads step hsuffix hitem' _ _ s2 hs2
    (Nat.lt_succ_self _)).mono ?_)
  rintro _ rest ⟨ts, hts, rfl⟩
  exact ⟨t :: ts, .first hws ht hts, rfl⟩

theorem itemsLoop_complete {s0 : Bytes} (hws : isWhitespace close = false)
    (hsuffix : ∀ t s r, V t s r → r <:+ s) (hstarts : ∀ t s r, V t s r → StartsItem s)
    {ts : List τ} {s rest : Bytes} (h : ItemsTail close V ts s rest) :
    (∀ t ∈ ts, ∀ acc s r, s <:+ s0 → V t s r → item acc s = .ok (step acc t) r) → s <:+ s0 →
      close ≠ 0x2C → ∀ (fuel : Nat) (acc : α), s.length < fuel →
        itemsLoop close item fuel acc s = .ok (ts.foldl step acc) rest := by
  induction h with
  | done hs =>
    intro _ _ _ fuel acc hfuel
    obtain ⟨fuel, rfl⟩ : ∃ k, fuel = k + 1 := ⟨fuel - 1, by omega⟩
    rw [itemsLoop, bind_of_ok (trimWs_complete hs hws)]
    show (if close = close then pure acc else _ : ParserM α) _ = _
    rw [if_pos rfl]
    rfl
  | @next t ts s s1 s2 s3 rest hs hs1 ht _ ih =>
    intro hitem hs0 hcomma fuel acc hfuel
    obtain ⟨fuel, rfl⟩ : ∃ k, fuel = k + 1 := ⟨fuel - 1, by omega⟩
    obtain ⟨hitemt, hitemts⟩ := List.forall_mem_cons.mp hitem
    have hsuffix1 : s1 <:+ s := (List.suffix_cons _ _).trans hs.suffix
    have hsuffix3 : s3 <:+ s1 := (hsuffix _ _ _ ht).trans hs1.suffix
    have hlen1 := hs.suffix.length_le
    have hlen3 := hsuffix3.length_le
    rw [List.length_cons] at hlen1
    obtain ⟨c, s2', rfl, hc, -, -⟩ := hstarts _ _ _ ht
    rw [itemsLoop, bind_of_ok (trimWs_complete hs (by decide))]
    show (if 0x2C = close then pure acc else _ : ParserM α) _ = _
    rw [if_neg hcomma.symm]
    show (trimWs >>= _ : ParserM α) s1 = _
    rw [bind_of_ok (trimWs_complete hs1 hc),
      bind_of_ok (hitemt acc _ _ (hs1.suffix.trans (hsuffix1.trans hs0)) ht)]
    exact ih hitemts (hsuffix3.trans (hsuffix1.trans hs0)) hcomma fuel (step acc t) (by omega)

/-- **All items are read**, if every item is. -/
theorem itemsFromStream_complete (hclose : close = 0x5D ∨ close = 0x7D)
    (hsuffix : ∀ t s r, V t s r → r <:+ s) (hstarts : ∀ t s r, V t s r → StartsItem s)
    {ts : List τ} {s rest : Bytes} (h : Items start close V ts s rest)
    (hitem : ∀ t ∈ ts, ∀ acc s1 r, s1 <:+ s → s1.length < s.length → V t s1 r →
      item acc s1 = .ok (step acc t) r) (acc : α) :
    itemsFromStream start close item acc s = .ok (ts.foldl step acc) rest := by
  have hws : isWhitespace close = false := by rcases hclose with rfl | rfl <;> rfl
  have hcomma : close ≠ 0x2C := by rcases hclose with rfl | rfl <;> decide
  cases h with
  | @empty s _ hs =>
    rw [itemsFromStream, bind_of_ok (expectChar_complete start _),
      bind_of_ok (trimWs_complete hs hws)]
    show (if close = close then _ else _ : ParserM α) _ = _
    rw [if_pos rfl]
    rfl
  | @first t ts s s1 s2 _ hs ht htail =>
    obtain ⟨c, s1', rfl, hc, hlist, hobject⟩ := hstarts _ _ _ ht
    have hne : c ≠ close := by
      rintro rfl
      exact hclose.elim hlist hobject
    have hitem' : ∀ t' ∈ t :: ts, ∀ acc s3 r, s3 <:+ s → V t' s3 r →
        item acc s3 = .ok (step acc t') r := by
      intro t' ht' acc s3 r hs3
      exact hitem t' ht' acc s3 r (hs3.trans (List.suffix_cons _ _))
        (Nat.lt_succ_of_le hs3.length_le)
    obtain ⟨hitemt, hitemts⟩ := List.forall_mem_cons.mp hitem'
    rw [itemsFromStream, bind_of_ok (expectChar_complete start _),
      bind_of_ok (trimWs_complete hs hc)]
    show (if c = close then _ else _ : ParserM α) _ = _
    rw [if_neg hne, bind_of_ok (hitemt acc _ _ hs.suffix ht)]
    exact itemsLoop_complete step hws hsuffix hstarts htail hitemts
      ((hsuffix _ _ _ ht).trans hs.suffix) hcomma _ _ (Nat.lt_succ_self _)

end Items

/-! ## Elements and members -/

section Parts

variable {value : ParserM (Json Num)} {V : JsonText Num → Bytes → Bytes → Prop} {s : Bytes}

theorem jsonElement_reads (hvalue : Reads value s fun json r => ∃ t, V t s r ∧ json = build t)
    (l : List (Json Num)) : Reads (jsonElementFromStream value l) s fun l' r =>
      ∃ t, V t s r ∧ l' = l ++ [build t] := by
  refine Reads.bind hvalue ?_
  rintro _ r ⟨t, ht, rfl⟩
  exact Reads.pure ⟨t, ht, rfl⟩

theorem jsonKvp_reads
    (hvalue : ∀ s', s' <:+ s → Reads value s' fun json r => ∃ t, V t s' r ∧ json = build t)
    (hm : HashMap Bytes (Json Num)) : Reads (jsonKvpFromStreamNoTrim value hm) s fun hm' r =>
      ∃ m, IsMember V m s r ∧ hm' = putMember hm m := by
  refine Reads.bind (stringFromInStreamNoTrim_reads s) ?_
  intro key s1 hkey
  refine Reads.bind (trimWs_reads s1) ?_
  rintro - s1' hws
  refine Reads.bind (expectChar_reads 0x3A s1') ?_
  rintro - s2 rfl
  refine Reads.bind (trimWs_reads s2) ?_
  rintro - s3 hws'
  refine Reads.bind (hvalue s3 (hws'.suffix.trans
    ((List.suffix_cons _ _).trans (hws.suffix.trans hkey.suffix)))) ?_
  rintro _ rest ⟨t, ht, rfl⟩
  exact Reads.pure ⟨(key, t), .mk hkey hws hws' ht, rfl⟩

theorem jsonKvp_complete {m : Bytes × JsonText Num} {rest : Bytes} (h : IsMember V m s rest)
    (hstarts : ∀ s r, V m.2 s r → StartsItem s)
    (hvalue : ∀ s' r, s' <:+ s → V m.2 s' r → value s' = .ok (build m.2) r)
    (hm : HashMap Bytes (Json Num)) :
    jsonKvpFromStreamNoTrim value hm s = .ok (putMember hm m) rest := by
  cases h with
  | @mk key t _ s1 s2 s3 _ hkey hws hws' ht =>
    obtain ⟨c, s3', rfl, hc, -, -⟩ := hstarts _ _ ht
    rw [jsonKvpFromStreamNoTrim, bind_of_ok (stringFromInStreamNoTrim_complete hkey),
      bind_of_ok (trimWs_complete hws (by decide)), bind_of_ok (expectChar_complete 0x3A s2),
      bind_of_ok (trimWs_complete hws' hc), bind_of_ok (hvalue _ _ (hws'.suffix.trans
        ((List.suffix_cons _ _).trans (hws.suffix.trans hkey.suffix))) ht)]
    rfl

end Parts

/-! ## Values -/

section Documents

variable {strtod : Bytes → Num × Nat} {N : Num → Bytes → Bytes → Prop}

theorem foldl_push (ts : List (JsonText Num)) (l : List (Json Num)) :
    ts.foldl (fun l t => l ++ [build t]) l = l ++ ts.map build := by
  induction ts generalizing l with
  | nil => exact (List.append_nil l).symm
  | cons t ts ih => rw [List.foldl_cons, ih, List.map_cons, List.append_assoc]; rfl

/-- What is read as a number anywhere in `is` is a token. -/
def ReadsNumbers (strtod : Bytes → Num × Nat) (N : Num → Bytes → Bytes → Prop) (is : Bytes) : Prop :=
  ∀ s, s <:+ is → Reads (jsonNumberFromStreamNoTrim strtod) s fun json r =>
    ∃ n, json = .number n ∧ N n s r

/-- **Soundness**, for a value: the induction is on the fuel. -/
theorem jsonFromInStreamNoTrim_reads {is : Bytes} (hN : NumberLike N)
    (hreads : ReadsNumbers strtod N is) : ∀ (fuel : Nat) (s : Bytes), s <:+ is →
    s.length < fuel → Reads (jsonFromInStreamNoTrim strtod fuel) s fun json r =>
      ∃ t, IsValue N t s r ∧ json = build t
  | fuel + 1, s, hs, hfuel => by
    have ih : ∀ s', s' <:+ s → s'.length < s.length → Reads (jsonFromInStreamNoTrim strtod fuel) s'
        fun json r => ∃ t, IsValue N t s' r ∧ json = build t := by
      intro s' hs' hlen
      exact jsonFromInStreamNoTrim_reads hN hreads fuel s' (hs'.trans hs) (by omega)
    -- One case for each branch of the source; the last one is the default, a number.
    refine Reads.bind (peekChar_reads s) ?_
    rintro c _ ⟨rfl, s', rfl⟩
    by_cases hobject : c = 0x7B
    · subst hobject
      rw [if_pos rfl]
      refine Reads.bind (itemsFromStream_reads putMember
        (fun m s r => IsMember.suffix (IsValue.suffix hN m.2)) ?_ newObject) ?_
      · intro hm s1 hs1 hlen
        exact jsonKvp_reads (fun s2 hs2 => ih s2 (hs2.trans hs1)
          (Nat.lt_of_le_of_lt hs2.length_le hlen)) hm
      · rintro _ rest ⟨members, hmembers, rfl⟩
        exact Reads.pure ⟨.object members, .object hmembers, (build_object members).symm⟩
    rw [if_neg hobject]
    by_cases hlist : c = 0x5B
    · subst hlist
      rw [if_pos rfl]
      refine Reads.bind (itemsFromStream_reads (fun l t => l ++ [build t])
        (fun t => IsValue.suffix hN t) ?_ []) ?_
      · intro l s1 hs1 hlen
        exact jsonElement_reads (ih s1 hs1 hlen) l
      · rintro _ rest ⟨elements, helements, rfl⟩
        refine Reads.pure ⟨.list elements, .list helements, ?_⟩
        rw [foldl_push, build_list]
        rfl
    rw [if_neg hlist]
    by_cases hstring : c = 0x22
    · subst hstring
      rw [if_pos rfl]
      refine Reads.bind (stringFromInStreamNoTrim_reads _) ?_
      intro str rest hstr
      exact Reads.pure ⟨.string str, .string hstr, by rw [build]⟩
    rw [if_neg hstring]
    by_cases hfalse : c = 0x66
    · subst hfalse
      rw [if_pos rfl]
      refine Reads.bind (expectCstr_reads _ _) ?_
      rintro - rest htext
      rw [htext]
      exact Reads.pure ⟨.boolean false, .falseText, by rw [build]⟩
    rw [if_neg hfalse]
    by_cases htrue : c = 0x74
    · subst htrue
      rw [if_pos rfl]
      refine Reads.bind (expectCstr_reads _ _) ?_
      rintro - rest htext
      rw [htext]
      exact Reads.pure ⟨.boolean true, .trueText, by rw [build]⟩
    rw [if_neg htrue]
    by_cases hnull : c = 0x6E
    · subst hnull
      rw [if_pos rfl]
      refine Reads.bind (expectCstr_reads _ _) ?_
      rintro - rest htext
      rw [htext]
      exact Reads.pure ⟨.null, .nullText, by rw [build]⟩
    · rw [if_neg hnull]
      refine (hreads _ hs).mono ?_
      rintro _ rest ⟨n, rfl, hn⟩
      exact ⟨.number n, .number hn, by rw [build]⟩

/-- **Soundness**: what is read is a document, and anything else is a syntax error. -/
theorem jsonFromInStream_reads {is : Bytes} (hN : NumberLike N) (hreads : ReadsNumbers strtod N is) :
    Reads (jsonFromInStream strtod) is fun json rest =>
      ∃ t, IsDocument N t is rest ∧ json = build t := by
  refine Reads.bind (trimWs_reads is) ?_
  rintro - s hws
  refine Reads.withFuel ((jsonFromInStreamNoTrim_reads hN hreads _ s hws.suffix
    (Nat.lt_succ_self _)).mono ?_)
  rintro _ rest ⟨t, ht, rfl⟩
  exact ⟨t, ⟨s, hws, ht⟩, rfl⟩

/-- `jsonFromInStream_reads`, where the runs are short enough. -/
theorem jsonFromInStream_reads_of_runs {is : Bytes} (his : NumberRuns is) :
    Reads (jsonFromInStream strtod) is fun json rest =>
      ∃ t, IsDocument (IsNumber strtod) t is rest ∧ json = build t := by
  have hN : NumberTokens strtod (IsNumber strtod) := fun _ _ _ h => h
  exact jsonFromInStream_reads hN.numberLike fun s hs => jsonNumber_reads (his.suffix hs)

/-- Every token for a number in `is` is read. -/
def TakesNumbers (strtod : Bytes → Num × Nat) (N : Num → Bytes → Bytes → Prop) (is : Bytes) : Prop :=
  ∀ n s r, s <:+ is → N n s r → jsonNumberFromStreamNoTrim strtod s = .ok (.number n) r

/-- **Completeness**, for a value: the induction is on what the text says. -/
theorem jsonFromInStreamNoTrim_complete {is : Bytes} (hN : NumberLike N)
    (htakes : TakesNumbers strtod N is) (t : JsonText Num) :
    ∀ (fuel : Nat) (s rest : Bytes), s <:+ is → s.length < fuel → IsValue N t s rest →
      jsonFromInStreamNoTrim strtod fuel s = .ok (build t) rest := by
  have peek (c : UInt8) (s : Bytes) : peekChar (c :: s) = .ok c (c :: s) := rfl
  -- The first character of the text decides which branch of the source is taken.
  induction t using JsonText.induct with
  | object members ih =>
    rintro (_ | fuel) s rest hs hfuel h
    · omega
    have hitems : Items 0x7B 0x7D (IsMember (IsValue N)) members s rest := by
      cases h with
      | object hitems => exact hitems
    have hrun : itemsFromStream 0x7B 0x7D (jsonKvpFromStreamNoTrim (jsonFromInStreamNoTrim strtod
        fuel)) newObject s = .ok (members.foldl putMember newObject) rest := by
      refine itemsFromStream_complete putMember (.inr rfl)
        (fun m s r => IsMember.suffix (IsValue.suffix hN m.2)) (fun m s r => IsMember.starts)
        hitems ?_ _
      intro m hm acc s1 r hs1 hlen hmember
      refine jsonKvp_complete hmember (fun s r => IsValue.starts hN) ?_ acc
      intro s2 r hs2
      have hlen2 := hs2.length_le
      exact ih m hm fuel s2 r (hs2.trans (hs1.trans hs)) (by omega)
    obtain ⟨s', rfl⟩ := hitems.exists_cons
    rw [jsonFromInStreamNoTrim, bind_of_ok (peek _ _), if_pos rfl, jsonObjectFromStreamNoTrim,
      bind_of_ok hrun, build_object]
    rfl
  | list elements ih =>
    rintro (_ | fuel) s rest hs hfuel h
    · omega
    have hitems : Items 0x5B 0x5D (IsValue N) elements s rest := by
      cases h with
      | list hitems => exact hitems
    have hrun : itemsFromStream 0x5B 0x5D (jsonElementFromStream (jsonFromInStreamNoTrim strtod
        fuel)) [] s = .ok (elements.foldl (fun l t => l ++ [build t]) []) rest := by
      refine itemsFromStream_complete (fun l t => l ++ [build t]) (.inl rfl)
        (fun t => IsValue.suffix hN t) (fun t s r => IsValue.starts hN) hitems ?_ _
      intro t ht acc s1 r hs1 hlen hvalue
      rw [jsonElementFromStream, bind_of_ok (ih t ht fuel s1 r (hs1.trans hs) (by omega) hvalue)]
      rfl
    obtain ⟨s', rfl⟩ := hitems.exists_cons
    rw [jsonFromInStreamNoTrim, bind_of_ok (peek _ _), if_neg (by decide), if_pos rfl,
      jsonListFromStreamNoTrim, bind_of_ok hrun, foldl_push, build_list]
    rfl
  | string str =>
    rintro (_ | fuel) s rest hs hfuel h
    · omega
    cases h with
    | string hstr =>
      have hrun := stringFromInStreamNoTrim_complete hstr
      cases hstr
      rw [jsonFromInStreamNoTrim, bind_of_ok (peek _ _), if_neg (by decide), if_neg (by decide),
        if_pos rfl, jsonStringFromInStreamNoTrim, bind_of_ok hrun, build]
      rfl
  | number n =>
    rintro (_ | fuel) s rest hs hfuel h
    · omega
    cases h with
    | number hn =>
      have hread := htakes n s rest hs hn
      obtain ⟨-, c, s', rfl, hc⟩ := hN n s rest hn
      -- A number begins with a character that no other value begins with.
      obtain ⟨-, -, -, hobject, hlist, hstring, hfalse, htrue, hnull⟩ := isNumberLike_ne hc
      rw [jsonFromInStreamNoTrim, bind_of_ok (peek _ _), if_neg hobject, if_neg hlist,
        if_neg hstring, if_neg hfalse, if_neg htrue, if_neg hnull, hread, build]
  | boolean b =>
    rintro (_ | fuel) s rest hs hfuel h
    · omega
    cases h with
    | trueText =>
      have hrun := expectCstr_complete [0x74, 0x72, 0x75, 0x65] rest
      rw [jsonFromInStreamNoTrim, bind_of_ok (peek _ _), if_neg (by decide), if_neg (by decide),
        if_neg (by decide), if_neg (by decide), if_pos rfl]
      show (expectCstr _ >>= _ : ParserM (Json Num)) ([0x74, 0x72, 0x75, 0x65] ++ rest) = _
      rw [bind_of_ok hrun, build]
      rfl
    | falseText =>
      have hrun := expectCstr_complete [0x66, 0x61, 0x6C, 0x73, 0x65] rest
      rw [jsonFromInStreamNoTrim, bind_of_ok (peek _ _), if_neg (by decide), if_neg (by decide),
        if_neg (by decide), if_pos rfl]
      show (expectCstr _ >>= _ : ParserM (Json Num)) ([0x66, 0x61, 0x6C, 0x73, 0x65] ++ rest) = _
      rw [bind_of_ok hrun, build]
      rfl
  | null =>
    rintro (_ | fuel) s rest hs hfuel h
    · omega
    cases h
    have hrun := expectCstr_complete [0x6E, 0x75, 0x6C, 0x6C] rest
    rw [jsonFromInStreamNoTrim, bind_of_ok (peek _ _), if_neg (by decide), if_neg (by decide),
      if_neg (by decide), if_neg (by decide), if_neg (by decide), if_pos rfl]
    show (expectCstr _ >>= _ : ParserM (Json Num)) ([0x6E, 0x75, 0x6C, 0x6C] ++ rest) = _
    rw [bind_of_ok hrun, build]
    rfl

theorem jsonFromInStream_complete {is rest : Bytes} (hN : NumberLike N)
    (htakes : TakesNumbers strtod N is) {t : JsonText Num} (h : IsDocument N t is rest) :
    jsonFromInStream strtod is = .ok (build t) rest := by
  obtain ⟨s, hws, ht⟩ := h
  obtain ⟨c, s', rfl, hc, -, -⟩ := ht.starts hN
  rw [jsonFromInStream, bind_of_ok (trimWs_complete hws hc)]
  exact jsonFromInStreamNoTrim_complete hN htakes t _ _ rest hws.suffix (Nat.lt_succ_self _) ht

/-! ## What is read, exactly -/

theorem numberBuf_numberLike : NumberLike (IsBuffered strtod) := by
  rintro n s r ⟨hne, htext, -⟩
  refine ⟨⟨_, htext.symm⟩, ?_⟩
  cases s with
  | nil => exact absurd rfl hne
  | cons c s =>
    refine ⟨c, s, rfl, ?_⟩
    by_contra hc
    exact hne (by rw [numberBuf, List.takeWhile_cons_of_neg hc, List.take_nil])

/-- **The parser reads the documents whose numbers fit its buffer or are cut off there.** -/
theorem jsonFromInStream_eq_ok {is rest : Bytes} {json : Json Num} :
    jsonFromInStream strtod is = .ok json rest ↔
      ∃ t, IsDocument (IsBuffered strtod) t is rest ∧ json = build t := by
  have hreads : Reads (jsonFromInStream strtod) is _ :=
    jsonFromInStream_reads numberBuf_numberLike fun s _ => jsonNumber_buffered s
  constructor
  · exact Ends.ok_of hreads
  · rintro ⟨t, ht, rfl⟩
    exact jsonFromInStream_complete numberBuf_numberLike
      (fun _ _ _ _ hn => jsonNumber_eq_ok.mpr ⟨_, rfl, hn⟩) ht

end Documents

end Chlibs.Chjson

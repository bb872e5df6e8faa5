import Chlibs.Json.Denotation

/-!
# Runs longer than the buffer

A number is read through a buffer of 26 characters. A run of number-like characters that is longer
is cut off there, and the rest of it stays in the stream.

* `jsonNumber_run` — what is read of any run.
* `readsRun_iff` — when a run is read whole or rejected.
-/

namespace Chlibs.Chjson

open Infra Util

variable {Num : Type}

/-- All of the number-like characters in front of `rest`, at least one. -/
structure IsMaximalRun (w rest : Bytes) : Prop where
  nonempty : w ≠ []
  like : ∀ c ∈ w, isNumberLike c = true
  maximal : ∀ c ∈ rest.head?, isNumberLike c = false

/-- The run `w` at the front of `is` is read whole, if `strtod` takes all of it, or rejected. -/
def ReadsRun (strtod : Bytes → Num × Nat) (p : ParserM (Json Num)) (is w rest : Bytes) : Prop :=
  ((strtod w).2 = w.length → p is = .ok (.number (strtod w).1) rest) ∧
    ((strtod w).2 ≠ w.length → ∃ left, p is = .error (.state .syntaxError) left)

theorem IsMaximalRun.numberBuf_eq {w rest : Bytes} (h : IsMaximalRun w rest) :
    numberBuf (w ++ rest) = w.take numberMaxStrWidth := by
  rw [numberBuf, takeWhile_run h.like h.maximal]

theorem IsMaximalRun.take_ne_nil {w rest : Bytes} (h : IsMaximalRun w rest) :
    w.take numberMaxStrWidth ≠ [] := by
  obtain ⟨c, w', rfl⟩ := List.exists_cons_of_ne_nil h.nonempty
  exact List.cons_ne_nil _ _

/-- **As much of a run as the buffer holds is read**, if `strtod` takes all of that. -/
theorem jsonNumber_run (strtod : Bytes → Num × Nat) {w rest : Bytes} (h : IsMaximalRun w rest) :
    ((strtod (w.take numberMaxStrWidth)).2 = (w.take numberMaxStrWidth).length →
      jsonNumberFromStreamNoTrim strtod (w ++ rest)
        = .ok (.number (strtod (w.take numberMaxStrWidth)).1) (w.drop numberMaxStrWidth ++ rest)) ∧
    ((strtod (w.take numberMaxStrWidth)).2 ≠ (w.take numberMaxStrWidth).length →
      ∃ left, jsonNumberFromStreamNoTrim strtod (w ++ rest)
        = .error (.state .syntaxError) left) := by
  constructor
  · intro hall
    refine jsonNumber_eq_ok.mpr ⟨_, rfl, ?_, ?_, ?_⟩
    · rw [h.numberBuf_eq]
      exact h.take_ne_nil
    · rw [h.numberBuf_eq, ← List.append_assoc, List.take_append_drop]
    · rw [h.numberBuf_eq]
      exact Prod.ext rfl hall
  · intro hpart
    have hreads : Reads (jsonNumberFromStreamNoTrim strtod) (w ++ rest) _ := jsonNumber_buffered _
    cases hrun : jsonNumberFromStreamNoTrim strtod (w ++ rest) with
    | ok json left =>
      obtain ⟨n, -, -, -, hvalue⟩ := Ends.ok_of hreads hrun
      rw [h.numberBuf_eq] at hvalue
      exact absurd (congrArg Prod.snd hvalue) hpart
    | error e left =>
      rw [Ends.err_of hreads hrun]
      exact ⟨left, rfl⟩

/-- When a run is read whole or rejected by what reads numbers. -/
theorem jsonNumber_readsRun_iff {strtod : Bytes → Num × Nat} {w rest : Bytes} (h : IsMaximalRun w rest) :
    ReadsRun strtod (jsonNumberFromStreamNoTrim strtod) (w ++ rest) w rest ↔
      w.length ≤ numberMaxStrWidth ∨
        (strtod w).2 ≠ w.length ∧ (strtod (w.take numberMaxStrWidth)).2 ≠ numberMaxStrWidth := by
  obtain ⟨hread, hreject⟩ := jsonNumber_run strtod h
  by_cases hshort : w.length ≤ numberMaxStrWidth
  · rw [List.take_of_length_le hshort, List.drop_eq_nil_of_le hshort, List.nil_append] at hread
    rw [List.take_of_length_le hshort] at hreject
    exact iff_of_true ⟨hread, hreject⟩ (.inl hshort)
  · have hlen : (w.take numberMaxStrWidth).length = numberMaxStrWidth :=
      List.length_take_of_le (by omega)
    rw [hlen] at hread hreject
    rw [or_iff_right hshort]
    constructor
    · rintro ⟨hwhole, hrejects⟩
      -- Where part of the run is read, it is neither read whole nor rejected.
      have hnot : (strtod (w.take numberMaxStrWidth)).2 ≠ numberMaxStrWidth := by
        intro hall
        by_cases hw : (strtod w).2 = w.length
        · have hsame := (hread hall).symm.trans (hwhole hw)
          simp only [EStateM.Result.ok.injEq] at hsame
          have hleft := congrArg List.length hsame.2
          rw [List.length_append, List.length_drop] at hleft
          omega
        · obtain ⟨left, herror⟩ := hrejects hw
          rw [hread hall] at herror
          cases herror
      refine ⟨?_, hnot⟩
      intro hw
      obtain ⟨left, herror⟩ := hreject hnot
      rw [hwhole hw] at herror
      cases herror
    · rintro ⟨hw, hnot⟩
      exact ⟨fun hall => absurd hall hw, fun _ => hreject hnot⟩

/-! ## In a document -/

/-- A value that starts as a number is read as one. -/
theorem jsonFromInStreamNoTrim_run (strtod : Bytes → Num × Nat) {w rest : Bytes}
    (h : IsMaximalRun w rest) (fuel : Nat) :
    jsonFromInStreamNoTrim strtod (fuel + 1) (w ++ rest)
      = jsonNumberFromStreamNoTrim strtod (w ++ rest) := by
  obtain ⟨c, w', rfl⟩ := List.exists_cons_of_ne_nil h.nonempty
  have hpeek : peekChar (c :: (w' ++ rest)) = .ok c (c :: (w' ++ rest)) := rfl
  obtain ⟨-, -, -, hobject, hlist, hstring, hfalse, htrue, hnull⟩ :=
    isNumberLike_ne (h.like c List.mem_cons_self)
  rw [List.cons_append, jsonFromInStreamNoTrim, bind_of_ok hpeek, if_neg hobject, if_neg hlist,
    if_neg hstring, if_neg hfalse, if_neg htrue, if_neg hnull]

theorem jsonFromInStream_run {strtod : Bytes → Num × Nat} {ws w rest : Bytes}
    (hws : ∀ c ∈ ws, isWhitespace c = true) (h : IsMaximalRun w rest) :
    jsonFromInStream strtod (ws ++ (w ++ rest)) = jsonNumberFromStreamNoTrim strtod (w ++ rest) := by
  have hrun := jsonFromInStreamNoTrim_run strtod h
  obtain ⟨c, w', rfl⟩ := List.exists_cons_of_ne_nil h.nonempty
  have htrim : trimWs (ws ++ (c :: w' ++ rest)) = .ok () (c :: w' ++ rest) :=
    trimWs_complete ⟨ws, hws, rfl⟩ (isNumberLike_ne (h.like c List.mem_cons_self)).1
  rw [jsonFromInStream, bind_of_ok htrim]
  exact hrun _

/--
**A run is read whole or rejected if and only if it fits the buffer, or `strtod` takes neither all
of it nor all of what the buffer holds.** This goes for a whole document and for a value anywhere
inside one, at any depth.
-/
theorem readsRun_iff (strtod : Bytes → Num × Nat) {ws w rest : Bytes}
    (hws : ∀ c ∈ ws, isWhitespace c = true) (h : IsMaximalRun w rest) (fuel : Nat) :
    (ReadsRun strtod (jsonFromInStream strtod) (ws ++ (w ++ rest)) w rest ↔
      w.length ≤ numberMaxStrWidth ∨
        (strtod w).2 ≠ w.length ∧ (strtod (w.take numberMaxStrWidth)).2 ≠ numberMaxStrWidth) ∧
    (ReadsRun strtod (jsonFromInStreamNoTrim strtod (fuel + 1)) (w ++ rest) w rest ↔
      w.length ≤ numberMaxStrWidth ∨
        (strtod w).2 ≠ w.length ∧ (strtod (w.take numberMaxStrWidth)).2 ≠ numberMaxStrWidth) := by
  constructor
  · rw [← jsonNumber_readsRun_iff h, ReadsRun, jsonFromInStream_run hws h, ReadsRun]
  · rw [← jsonNumber_readsRun_iff h, ReadsRun, jsonFromInStreamNoTrim_run strtod h, ReadsRun]

/-! ### A long run -/

theorem readsRun_iff_seven :
    ReadsRun strtodDigits (jsonFromInStream strtodDigits) ([0x20] ++ ([0x37] ++ [0x2C])) [0x37]
      [0x2C] :=
  (readsRun_iff strtodDigits (by decide +kernel)
    ⟨by decide, by decide +kernel, by decide +kernel⟩ 0).1.mpr (.inl (by decide))

/-- Of 27 digits the first 26 are read as the number. -/
theorem not_readsRun_longRun :
    jsonFromInStream strtodDigits (List.replicate 27 0x31)
        = .ok (.number 11111111111111111111111111) [0x31] ∧
      ¬ReadsRun strtodDigits (jsonFromInStream strtodDigits) (List.replicate 27 0x31)
        (List.replicate 27 0x31) [] := by
  have hrun : jsonFromInStream strtodDigits (List.replicate 27 0x31)
      = .ok (.number 11111111111111111111111111) [0x31] := by rfl
  refine ⟨hrun, ?_⟩
  rintro ⟨hwhole, -⟩
  have hsame := hrun.symm.trans (hwhole (by decide +kernel))
  simp only [EStateM.Result.ok.injEq] at hsame
  exact absurd hsame.2 (by decide)

end Chlibs.Chjson

import Thegn.Lib.Utf8
import Thegn.Lib.Words
import Thegn.Lib.Occur

set_option autoImplicit false

/-! # Sanitizing recovery data

The text functions of `thegn-core/src/pipeline_resume.rs`. Recovery data comes from a previous
worker and is hostile: `sanitize` removes escape sequences, controls and format characters,
`boundedSanitize` also bounds bytes and lines, and `neutralizePromptMarkers` breaks every text that
could pass for one of the markers of the prompt. What leaves `sanitize` is clean (`clean_sanitize`)
and a clean text is kept as it is (`sanitize_of_clean`); a neutralized text has no marker in any
case of letters (`occurrences_neutralizePromptMarkers`).
-/

namespace Thegn.Resume

open Text Occur List

/-! ## Escape sequences, controls, format characters -/

/-- `pipeline_report::is_format_control`. -/
def isFormatControl (c : Char) : Bool :=
  let n := c.toNat
  n == 0x00ad || (0x0600 ≤ n && n ≤ 0x0605) || n == 0x061c || n == 0x06dd || n == 0x070f
    || (0x0890 ≤ n && n ≤ 0x0891) || n == 0x08e2 || n == 0x180e || (0x200b ≤ n && n ≤ 0x200f)
    || (0x2028 ≤ n && n ≤ 0x202e) || (0x2060 ≤ n && n ≤ 0x2064) || (0x2066 ≤ n && n ≤ 0x206f)
    || n == 0xfeff || (0xfff9 ≤ n && n ≤ 0xfffb) || n == 0x110bd || n == 0x110cd
    || (0x13430 ≤ n && n ≤ 0x1343f) || (0x1bca0 ≤ n && n ≤ 0x1bca3)
    || (0x1d173 ≤ n && n ≤ 0x1d17a) || n == 0xe0001 || (0xe0020 ≤ n && n ≤ 0xe007f)

/-- What follows a control sequence: its last byte is one of `@` to `~`. -/
def consumeControlSequence : Text → Text
  | [] => []
  | n :: rest =>
    if 0x40 ≤ n.toNat ∧ n.toNat ≤ 0x7e then rest else consumeControlSequence rest

/-- What follows a string control: BEL, ST as one character or as `ESC \` ends it. -/
def consumeStringControl : Text → Text
  | [] => []
  | c :: rest =>
    if c = '\x07' ∨ c = '\u009c' then rest
    else if c = '\x1b' ∧ rest.head? = some '\\' then rest.tail
    else consumeStringControl rest

theorem consumeControlSequence_length_le (s : Text) :
    (consumeControlSequence s).length ≤ s.length := by
  induction s with
  | nil => exact le_rfl
  | cons c s ih =>
    rw [consumeControlSequence, length_cons]
    split_ifs
    · omega
    · omega

theorem consumeStringControl_length_le (s : Text) : (consumeStringControl s).length ≤ s.length := by
  induction s with
  | nil => exact le_rfl
  | cons c s ih =>
    rw [consumeStringControl, length_cons]
    split_ifs
    · omega
    · rw [length_tail]
      omega
    · omega

/-- One round of the loop of `sanitize`: the character it keeps, if any, and what is left. -/
def sanitizeRound (c : Char) (rest : Text) : Option Char × Text :=
  if c = '\x1b' then
    match rest with
    | [] => (none, [])
    | n :: rest =>
      if n = '[' then (none, consumeControlSequence rest)
      else if n = ']' then (none, consumeStringControl rest)
      else if n ∈ ['P', 'X', '^', '_'] then (none, consumeStringControl rest)
      -- any other escape has two characters
      else (none, rest)
  else if c.toNat ∈ [0x90, 0x98, 0x9d, 0x9e, 0x9f] then (none, consumeStringControl rest)
  else if c.toNat = 0x9b then (none, consumeControlSequence rest)
  else if isControl c ∧ c ≠ '\n' ∧ c ≠ '\t' then (none, rest)
  else if isFormatControl c then (none, rest)
  else (some c, rest)

theorem sanitizeRound_length_le (c : Char) (rest : Text) :
    (sanitizeRound c rest).2.length ≤ rest.length := by
  have hseq := consumeControlSequence_length_le
  have hstr := consumeStringControl_length_le
  unfold sanitizeRound
  split
  · cases rest with
    | nil => exact le_rfl
    | cons n rest =>
      have hseq := consumeControlSequence_length_le rest
      have hstr := consumeStringControl_length_le rest
      rw [length_cons]
      dsimp only
      split_ifs
      all_goals (dsimp only; omega)
  · split_ifs
    · exact hstr rest
    · exact hseq rest
    all_goals exact le_rfl

def sanitize : Text → Text
  | [] => []
  | c :: rest => (sanitizeRound c rest).1.toList ++ sanitize (sanitizeRound c rest).2
termination_by s => s.length
decreasing_by
  rw [length_cons]
  exact Nat.lt_succ_of_le (sanitizeRound_length_le c rest)

/-- A character that `sanitize` keeps. -/
def Clean (c : Char) : Prop :=
  (isControl c = false ∨ c = '\n' ∨ c = '\t') ∧ isFormatControl c = false

instance : DecidablePred Clean := fun c =>
  inferInstanceAs (Decidable ((isControl c = false ∨ c = '\n' ∨ c = '\t') ∧
    isFormatControl c = false))

/-- A round keeps no character but the one it starts with, and that only if it is clean. -/
theorem clean_of_sanitizeRound {c d : Char} {rest : Text}
    (h : (sanitizeRound c rest).1 = some d) : Clean d := by
  unfold sanitizeRound at h
  split at h
  · cases rest with
    | nil => cases h
    | cons n rest =>
      dsimp only at h
      split_ifs at h
  · split_ifs at h with _ _ hcontrol hformat
    cases h
    refine ⟨?_, Bool.eq_false_iff.mpr hformat⟩
    by_cases hc : isControl c = true
    · by_cases hnl : c = '\n'
      · exact .inr (.inl hnl)
      · refine .inr (.inr (Classical.not_not.mp fun htab => hcontrol ⟨hc, hnl, htab⟩))
    · exact .inl (Bool.eq_false_iff.mpr hc)

theorem sanitizeRound_of_clean {c : Char} (h : Clean c) (rest : Text) :
    sanitizeRound c rest = (some c, rest) := by
  obtain ⟨hcontrol, hformat⟩ := h
  have hsmall : isControl c = false → c.toNat < 0x80 ∨ 0xa0 ≤ c.toNat := by
    intro hc
    simp only [isControl, Bool.or_eq_false_iff, Bool.and_eq_false_iff,
      decide_eq_false_iff_not] at hc
    omega
  have hc1 : c.toNat < 0x80 ∨ 0xa0 ≤ c.toNat := by
    rcases hcontrol with hc | rfl | rfl
    · exact hsmall hc
    · decide
    · decide
  have hesc : c ≠ '\x1b' := by
    rintro rfl
    revert hcontrol
    decide
  unfold sanitizeRound
  rw [if_neg hesc, if_neg, if_neg (by omega), if_neg,
    if_neg (by rw [hformat]; exact Bool.false_ne_true)]
  · rintro ⟨hc, hnl, htab⟩
    rcases hcontrol with hno | hno | hno
    · rw [hno] at hc
      cases hc
    · exact hnl hno
    · exact htab hno
  · intro hmem
    simp only [mem_cons, not_mem_nil, or_false] at hmem
    omega

/-- **Only clean characters are left.** -/
theorem clean_sanitize (s : Text) : ∀ c ∈ sanitize s, Clean c := by
  fun_induction sanitize s with
  | case1 => exact fun c hc => absurd hc not_mem_nil
  | case2 c rest ih =>
    intro d hd
    rcases mem_append.mp hd with hd | hd
    · exact clean_of_sanitizeRound (Option.mem_toList.mp hd)
    · exact ih d hd

/-- **A clean text is kept as it is.** -/
theorem sanitize_of_clean {s : Text} (h : ∀ c ∈ s, Clean c) : sanitize s = s := by
  induction s with
  | nil => rw [sanitize]
  | cons c s ih =>
    rw [sanitize, sanitizeRound_of_clean (h c mem_cons_self)]
    dsimp only
    rw [ih fun d hd => h d (mem_cons_of_mem _ hd)]
    rfl

/-! ## Bounds on bytes and lines -/

/-- Push the characters of a line while they fit; `true` if one did not. -/
def pushChars (maxBytes : Nat) (out : Text) : Text → Text × Bool
  | [] => (out, false)
  | c :: line =>
    if byteLen out + charLen c > maxBytes then (out, true)
    else pushChars maxBytes (out ++ [c]) line

/-- The lines from number `lineNo` on. -/
def pushLines (maxBytes maxLines : Nat) : Nat → Text → List Text → Text
  | _, out, [] => out
  | lineNo, out, line :: rest =>
    if lineNo ≥ maxLines then out
    else if lineNo > 0 ∧ byteLen out = maxBytes then out
    else
      match pushChars maxBytes (if lineNo > 0 then out ++ ['\n'] else out) line with
      | (out, true) => out
      | (out, false) => pushLines maxBytes maxLines (lineNo + 1) out rest

def boundedSanitize (s : Text) (maxBytes maxLines : Nat) : Text :=
  pushLines maxBytes maxLines 0 [] (lines (sanitize s))

theorem mem_pushChars {maxBytes : Nat} {out line : Text} {c : Char}
    (h : c ∈ (pushChars maxBytes out line).1) : c ∈ out ∨ c ∈ line := by
  induction line generalizing out with
  | nil => exact .inl h
  | cons d line ih =>
    rw [pushChars] at h
    split at h
    · exact .inl h
    · rcases ih h with h | h
      · rcases mem_append.mp h with h | h
        · exact .inl h
        · rw [mem_singleton.mp h]
          exact .inr (.head _)
      · exact .inr (.tail _ h)

theorem mem_pushLines {maxBytes maxLines lineNo : Nat} {out : Text} {ls : List Text} {c : Char}
    (h : c ∈ pushLines maxBytes maxLines lineNo out ls) : c ∈ out ∨ c = '\n' ∨ ∃ l ∈ ls, c ∈ l := by
  induction ls generalizing lineNo out with
  | nil => exact .inl h
  | cons line rest ih =>
    have hstart : ∀ c, c ∈ (if lineNo > 0 then out ++ ['\n'] else out) → c ∈ out ∨ c = '\n' := by
      intro c hc
      split_ifs at hc
      · simpa using hc
      · exact .inl hc
    have hpush : c ∈ (pushChars maxBytes (if lineNo > 0 then out ++ ['\n'] else out) line).1 →
        c ∈ out ∨ c = '\n' ∨ ∃ l ∈ line :: rest, c ∈ l := by
      intro hc
      rcases mem_pushChars hc with hc | hc
      · rcases hstart c hc with hc | hc
        · exact .inl hc
        · exact .inr (.inl hc)
      · exact .inr (.inr ⟨line, .head _, hc⟩)
    rw [pushLines] at h
    split at h
    · exact .inl h
    · split at h
      · exact .inl h
      · split at h
        · rename_i out' heq
          rw [heq] at hpush
          exact hpush h
        · rename_i out' heq
          rw [heq] at hpush
          rcases ih h with h | h | ⟨l, hl, h⟩
          · exact hpush h
          · exact .inr (.inl h)
          · exact .inr (.inr ⟨l, .tail _ hl, h⟩)

theorem clean_boundedSanitize (s : Text) (maxBytes maxLines : Nat) :
    ∀ c ∈ boundedSanitize s maxBytes maxLines, Clean c := by
  intro c hc
  rcases mem_pushLines hc with hc | rfl | ⟨l, hl, hc⟩
  · exact absurd hc not_mem_nil
  · decide
  · exact clean_sanitize s c (mem_of_mem_lines hl hc)

/-! ## Markers -/

def completionContractOpenPrefix : Text := "--- thegn completion contract v".toList

def completionContractClosePrefix : Text := "--- end thegn completion contract v".toList

def recoveryOpen : Text := "<UNTRUSTED-RECOVERY-JSON".toList

def recoveryClose : Text := "</UNTRUSTED-RECOVERY-JSON".toList

def markers : List Text :=
  [recoveryOpen, recoveryClose, completionContractOpenPrefix, completionContractClosePrefix]

/-- The marker the text starts with, in any case of letters. A marker is ASCII, so its bytes are its
characters. -/
def markerAt (s : Text) : Option Text :=
  markers.find? fun marker => eqIgnoreAsciiCase (s.take marker.length) marker

def neutralizePromptMarkers : Text → Text
  | [] => []
  | c :: rest =>
    match markerAt (c :: rest) with
    | some marker =>
      '‹' :: rest.take (marker.length - 1) ++ neutralizePromptMarkers
        (rest.drop (marker.length - 1))
    | none => c :: neutralizePromptMarkers rest
termination_by s => s.length
decreasing_by
  · rw [length_drop, length_cons]
    omega
  · rw [length_cons]
    omega

theorem eqIgnoreAsciiCase_take (marker s : Text) :
    eqIgnoreAsciiCase (s.take marker.length) marker = starts Char.toLower marker s := by
  rw [Bool.eq_iff_iff, starts_iff_take, eqIgnoreAsciiCase, beq_iff_eq]

/-- What is put in the place of the first letter of a marker is in no marker. -/
theorem foreign_mask : ∀ marker ∈ markers, Foreign Char.toLower '‹' marker := by decide

/-- Two markers do not overlap. -/
theorem markers_apart :
    ∀ m ∈ markers, ∀ m' ∈ markers, apart Char.toLower m' (m.drop 1) = true := by decide

/-- A neutralized text is the text with some letters masked. -/
theorem masked_neutralizePromptMarkers {m : Text} (hm : m ∈ markers) (s : Text) :
    Masked Char.toLower m (neutralizePromptMarkers s) s := by
  fun_induction neutralizePromptMarkers s with
  | case1 => exact .nil
  | case2 c rest marker _ ih =>
    refine .cons (.inr (foreign_mask m hm)) ?_
    have hkept : Masked Char.toLower m (rest.take (marker.length - 1))
      (rest.take (marker.length - 1)) := forall₂_same.mpr fun d _ => .inl rfl
    have hall := rel_append hkept ih
    dsimp only at hall
    rwa [take_append_drop] at hall
  | case3 c rest _ ih => exact .cons (.inl rfl) ih

theorem markerAt_eq_some {s marker : Text} (h : markerAt s = some marker) :
    marker ∈ markers ∧ starts Char.toLower marker s = true := by
  have hstarts := List.find?_some h
  rw [eqIgnoreAsciiCase_take] at hstarts
  exact ⟨mem_of_find?_eq_some h, hstarts⟩

theorem markerAt_eq_none {s m : Text} (h : markerAt s = none) (hm : m ∈ markers) :
    starts Char.toLower m s ≠ true := by
  have hno := List.find?_eq_none.mp h m hm
  rwa [eqIgnoreAsciiCase_take] at hno

/-- **A neutralized text has no marker**, in any case of letters. -/
theorem occurrences_neutralizePromptMarkers {m : Text} (hm : m ∈ markers) (s : Text) :
    occurrences Char.toLower m (neutralizePromptMarkers s) = 0 := by
  have hne : ∀ m ∈ markers, m ≠ [] := by decide
  fun_induction neutralizePromptMarkers s with
  | case1 => rfl
  | case2 c rest marker hat ih =>
    -- an occurrence would start inside the marker that was masked, and markers do not overlap
    obtain ⟨hmarker, hstarts⟩ := markerAt_eq_some hat
    have hinside : (rest.take (marker.length - 1)).map Char.toLower =
      (marker.drop 1).map Char.toLower := by
      rw [starts_iff_take] at hstarts
      cases marker with
      | nil => exact absurd rfl (hne [] hmarker)
      | cons d marker =>
        rw [length_cons, take_succ_cons] at hstarts
        exact (List.cons.inj hstarts).2
    have hapart : apart Char.toLower m (rest.take (marker.length - 1)) = true := by
      rw [apart_congr hinside]
      exact markers_apart marker hmarker m hm
    have hsplit := occurrences_append_cons (foreign_mask m hm) (hne m hm) []
      (rest.take (marker.length - 1) ++ neutralizePromptMarkers (rest.drop (marker.length - 1)))
    rw [nil_append] at hsplit
    rw [cons_append, hsplit, occurrences_append_of_apart hapart, ih]
    rfl
  | case3 c rest hat ih =>
    have hno : starts Char.toLower m (c :: neutralizePromptMarkers rest) ≠ true := by
      intro hstarts
      have hmasked : Masked Char.toLower m (c :: neutralizePromptMarkers rest) (c :: rest) :=
        .cons (.inl rfl) (masked_neutralizePromptMarkers hm rest)
      exact markerAt_eq_none hat hm (hmasked.starts hstarts)
    rw [occurrences_cons, if_neg hno, ih]

theorem mem_neutralizePromptMarkers {s : Text} {c : Char} (h : c ∈ neutralizePromptMarkers s) :
    c ∈ s ∨ c = '‹' := by
  fun_induction neutralizePromptMarkers s with
  | case1 => exact absurd h not_mem_nil
  | case2 d rest marker _ ih =>
    rw [cons_append, mem_cons, mem_append] at h
    rcases h with rfl | h | h
    · exact .inr rfl
    · exact .inl (.tail _ (mem_of_mem_take h))
    · rcases ih h with h | h
      · exact .inl (.tail _ (mem_of_mem_drop h))
      · exact .inr h
  | case3 d rest _ ih =>
    rcases mem_cons.mp h with rfl | h
    · exact .inl (.head _)
    · rcases ih h with h | h
      · exact .inl (.tail _ h)
      · exact .inr h

end Thegn.Resume

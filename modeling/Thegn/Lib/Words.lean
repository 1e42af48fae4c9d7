import Thegn.Lib.Text

set_option autoImplicit false

/-! # Words of a trimmed line

A line that was trimmed has no white space at its ends (`Trimmed`). `splitWord` cuts its first word
off; written with a single space in between, the two parts are read back (`splitWord_space`).
`lines` reads the lines of a text as `str::lines` does.
-/

namespace Thegn.Text

open List

/-! ## Trimmed texts -/

/-- The last character, if any, is not white space. -/
def TrimmedEnd (s : Text) : Prop := ∀ c ∈ s.getLast?, isWhitespace c = false

/-- Neither the first nor the last character is white space. -/
def Trimmed (s : Text) : Prop := (∀ c ∈ s.head?, isWhitespace c = false) ∧ TrimmedEnd s

theorem trimmed_nil : Trimmed [] := ⟨by simp, by simp [TrimmedEnd]⟩

theorem trimmed_of_forall {w : Text} (h : ∀ c ∈ w, isWhitespace c = false) : Trimmed w :=
  ⟨fun c hc => h c (mem_of_mem_head? hc), fun c hc => h c (mem_of_mem_getLast? hc)⟩

theorem TrimmedEnd.of_suffix {s t : Text} (h : TrimmedEnd t) (hs : s <:+ t) : TrimmedEnd s := by
  intro c hc
  obtain ⟨r, rfl⟩ := hs
  apply h
  rw [List.getLast?_append, Option.mem_def.mp hc]
  rfl

theorem trimStart_suffix (s : Text) : trimStart s <:+ s := dropWhile_suffix _

theorem TrimmedEnd.trimStart {s : Text} (h : TrimmedEnd s) : Trimmed (trimStart s) := by
  refine ⟨?_, h.of_suffix (trimStart_suffix s)⟩
  intro c hc
  have hhead := List.head?_dropWhile_not isWhitespace s
  rw [show s.dropWhile isWhitespace = Text.trimStart s from rfl, Option.mem_def.mp hc] at hhead
  simpa using hhead

theorem trimmedEnd_trimEnd (s : Text) : TrimmedEnd (trimEnd s) := by
  intro c hc
  have hhead := List.head?_dropWhile_not isWhitespace s.reverse
  rw [trimEnd, trimEndMatches, List.getLast?_reverse] at hc
  rw [Option.mem_def.mp hc] at hhead
  simpa using hhead

theorem trimEndMatches_isPrefix (f : Char → Bool) (s : Text) : trimEndMatches f s <+: s := by
  have hsuffix := dropWhile_suffix (l := s.reverse) f
  simpa [trimEndMatches] using reverse_prefix.mpr hsuffix

theorem trimmed_trim (s : Text) : Trimmed (trim s) := by
  refine ⟨?_, trimmedEnd_trimEnd _⟩
  intro c hc
  have hstart := List.head?_dropWhile_not isWhitespace s
  obtain ⟨r, hr⟩ := trimEndMatches_isPrefix isWhitespace (trimStart s)
  rw [show s.dropWhile isWhitespace = trimStart s from rfl, ← hr, List.head?_append,
    show trimEndMatches isWhitespace (trimStart s) = trim s from rfl,
      Option.mem_def.mp hc] at hstart
  simpa using hstart

theorem trimStart_eq_self {s : Text} (h : ∀ c ∈ s.head?, isWhitespace c = false) :
    trimStart s = s := by
  cases s with
  | nil => rfl
  | cons c s => exact dropWhile_cons_of_neg (by simp [h c rfl])

theorem trimEndMatches_eq_self {f : Char → Bool} {s : Text} (h : ∀ c ∈ s.getLast?, f c = false) :
    trimEndMatches f s = s := by
  unfold trimEndMatches
  cases hs : s.reverse with
  | nil => rw [reverse_eq_nil_iff.mp hs]; rfl
  | cons c r =>
    have hlast : s.getLast? = some c := by rw [← List.head?_reverse, hs]; rfl
    rw [dropWhile_cons_of_neg (by simp [h c hlast]), ← hs, reverse_reverse]

theorem Trimmed.trim_eq {s : Text} (h : Trimmed s) : trim s = s := by
  rw [trim, trimStart_eq_self h.1]
  exact trimEndMatches_eq_self h.2

theorem trimEndMatches_append {f : Char → Bool} (s : Text) {w : Text} (h : ∀ c ∈ w, f c = true) :
    trimEndMatches f (s ++ w) = trimEndMatches f s := by
  unfold trimEndMatches
  rw [reverse_append, dropWhile_append_of_pos (by simpa using h)]

/-- White space at the end does not matter to `trim`. -/
theorem trim_append (s : Text) {w : Text} (h : ∀ c ∈ w, isWhitespace c = true) :
    trim (s ++ w) = trim s := by
  unfold trim trimStart
  rw [dropWhile_append]
  split_ifs with hs
  · rw [List.isEmpty_iff.mp hs, dropWhile_eq_nil_iff.mpr h]
  · exact trimEndMatches_append _ h

/-- What `trim_end_matches` removes. -/
theorem trimEndMatches_spec (f : Char → Bool) (s : Text) :
    ∃ w, s = trimEndMatches f s ++ w ∧ ∀ c ∈ w, f c = true := by
  refine ⟨(s.reverse.takeWhile f).reverse, ?_, ?_⟩
  · rw [trimEndMatches, ← reverse_append, takeWhile_append_dropWhile, reverse_reverse]
  · intro c hc
    exact mem_takeWhile_imp (mem_reverse.mp hc)

/-- A character that is not trimmed stays. -/
theorem mem_trimEndMatches {f : Char → Bool} {s : Text} {ch : Char} (hch : f ch = false) :
    ch ∈ trimEndMatches f s ↔ ch ∈ s := by
  constructor
  · exact fun h => (trimEndMatches_isPrefix f s).subset h
  · intro h
    rw [trimEndMatches, mem_reverse]
    have hmem : ch ∈ s.reverse := mem_reverse.mpr h
    rw [← takeWhile_append_dropWhile (p := f) (l := s.reverse), mem_append] at hmem
    rcases hmem with hmem | hmem
    · have htrue := mem_takeWhile_imp hmem
      rw [hch] at htrue
      cases htrue
    · exact hmem

theorem mem_trim {s : Text} {ch : Char} (hch : isWhitespace ch = false) : ch ∈ trim s ↔ ch ∈ s := by
  rw [trim, trimEnd, mem_trimEndMatches hch, trimStart]
  constructor
  · exact fun h => (dropWhile_suffix isWhitespace).subset h
  · intro h
    rw [← takeWhile_append_dropWhile (p := isWhitespace) (l := s), mem_append] at h
    rcases h with h | h
    · have htrue := mem_takeWhile_imp h
      rw [hch] at htrue
      cases htrue
    · exact h

theorem trim_trimEndMatches {f : Char → Bool} (h : ∀ c, f c = true → isWhitespace c = true)
    (s : Text) : trim (trimEndMatches f s) = trim s := by
  obtain ⟨w, hw, hall⟩ := trimEndMatches_spec f s
  conv_rhs => rw [hw]
  exact (trim_append _ (fun c hc => h c (hall c hc))).symm

/-! ## The first word -/

/-- The first word of a line and what follows it, without the white space in between. -/
def splitWord (line : Text) : Text × Text :=
  match splitOnceP isWhitespace line with
  | some (word, rest) => (word, trimStart rest)
  | none => (line, [])

theorem splitWord_word {w : Text} (hw : ∀ c ∈ w, isWhitespace c = false) :
    splitWord w = (w, []) := by
  rw [splitWord, splitOnceP_eq_none hw]

theorem splitWord_append {w : Text} {c : Char} {gap r : Text}
    (hw : ∀ x ∈ w, isWhitespace x = false) (hc : isWhitespace c = true)
    (hgap : ∀ x ∈ gap, isWhitespace x = true) (hr : ∀ x ∈ r.head?, isWhitespace x = false) :
    splitWord (w ++ c :: (gap ++ r)) = (w, r) := by
  rw [splitWord, splitOnceP_append hw hc]
  show (w, trimStart (gap ++ r)) = (w, r)
  rw [trimStart, dropWhile_append_of_pos hgap]
  exact congrArg (Prod.mk w) (trimStart_eq_self hr)

/-- **Reading back a word and the rest.** -/
theorem splitWord_space {w r : Text} (hw : ∀ x ∈ w, isWhitespace x = false)
    (hr : ∀ x ∈ r.head?, isWhitespace x = false) : splitWord (w ++ ' ' :: r) = (w, r) := by
  have hempty : ∀ x ∈ ([] : Text), isWhitespace x = true := by simp
  exact splitWord_append hw rfl hempty hr

/-- What the split of a trimmed line says about it. -/
theorem splitWord_spec {t w r : Text} (ht : Trimmed t) (h : splitWord t = (w, r)) :
    (∀ c ∈ w, isWhitespace c = false) ∧ Trimmed r ∧ (t ≠ [] → w ≠ [])
      ∧ ((r = [] ∧ t = w) ∨ ∃ c gap, isWhitespace c = true ∧ (∀ x ∈ gap, isWhitespace x = true)
          ∧ t = w ++ c :: (gap ++ r) ∧ r ≠ []) := by
  unfold splitWord at h
  cases hs : splitOnceP isWhitespace t with
  | none =>
    rw [hs] at h
    cases h
    exact ⟨forall_of_splitOnceP_eq_none hs, trimmed_nil, id, .inl ⟨rfl, rfl⟩⟩
  | some p =>
    obtain ⟨w', rest⟩ := p
    rw [hs] at h
    cases h
    obtain ⟨c, rfl, hc, hw⟩ := splitOnceP_eq_some hs
    have hend : TrimmedEnd (c :: rest) := ht.2.of_suffix (suffix_append _ _)
    have hrest : TrimmedEnd rest := hend.of_suffix (suffix_cons _ _)
    refine ⟨hw, hrest.trimStart, ?_, .inr ⟨c, rest.takeWhile isWhitespace, hc, ?_, ?_, ?_⟩⟩
    · -- a line that starts with white space is not trimmed
      rintro - rfl
      have := ht.1 c rfl
      rw [hc] at this
      cases this
    · intro x hx
      exact mem_takeWhile_imp hx
    · rw [trimStart, takeWhile_append_dropWhile]
    · intro hnil
      have hall : ∀ x ∈ c :: rest, isWhitespace x = true := by
        intro x hx
        rcases mem_cons.mp hx with rfl | hx
        · exact hc
        · exact dropWhile_eq_nil_iff.mp hnil x hx
      have hlast := List.getLast?_eq_some_getLast (cons_ne_nil c rest)
      have := hend _ hlast
      rw [hall _ (getLast_mem _)] at this
      cases this

theorem splitWord_suffix (t : Text) : (splitWord t).2 <:+ t := by
  unfold splitWord
  cases hs : splitOnceP isWhitespace t with
  | none => exact nil_suffix
  | some p =>
    obtain ⟨c, ht, -, -⟩ := splitOnceP_eq_some (w := p.1) (r := p.2) hs
    rw [ht]
    exact (trimStart_suffix p.2).trans ((suffix_cons c p.2).trans (suffix_append _ _))

theorem trimmed_space {w r : Text} (hw : ∀ x ∈ w, isWhitespace x = false) (hne : w ≠ [])
    (hr : Trimmed r) (hrne : r ≠ []) : Trimmed (w ++ ' ' :: r) := by
  constructor
  · intro c hc
    rw [List.head?_append_of_ne_nil _ hne] at hc
    exact hw c (mem_of_mem_head? hc)
  · intro c hc
    have hlast : (w ++ ' ' :: r).getLast? = r.getLast? := by
      rw [show w ++ ' ' :: r = (w ++ [' ']) ++ r by simp, List.getLast?_append_of_ne_nil _ hrne]
    rw [hlast] at hc
    exact hr.2 c hc

/-! ## Lines -/

/-- `str::lines`: the end of a line is `\n` or `\r\n`; a last line without its end is kept as it
is. -/
def lines (s : Text) : List Text :=
  let pieces := s.splitOn '\n'
  let ended := pieces.dropLast.map (fun l => (stripSuffix ['\r'] l).getD l)
  match pieces.getLast? with
  | some [] => ended
  | some l => ended ++ [l]
  | none => ended

theorem isPrefix_of_stripSuffix {p s r : Text} (h : stripSuffix p s = some r) : r <+: s := by
  unfold stripSuffix at h
  rw [List.dropSuffix?_eq_some_iff] at h
  obtain ⟨q, rfl, -⟩ := h
  exact prefix_append _ _

/-- A line is a piece between newlines, perhaps without its last character. -/
theorem exists_of_mem_lines {s l : Text} (h : l ∈ lines s) : ∃ m ∈ s.splitOn '\n', l <+: m := by
  have hended : ∀ l ∈ ((s.splitOn '\n').dropLast.map (fun l => (stripSuffix ['\r'] l).getD l)),
      ∃ m ∈ s.splitOn '\n', l <+: m := by
    intro l hl
    obtain ⟨m, hm, rfl⟩ := mem_map.mp hl
    refine ⟨m, mem_of_mem_dropLast hm, ?_⟩
    cases hs : stripSuffix ['\r'] m with
    | none => exact prefix_refl m
    | some r => exact isPrefix_of_stripSuffix hs
  unfold lines at h
  dsimp only at h
  split at h
  · exact hended l h
  · rename_i m hm hlast
    rcases mem_append.mp h with h | h
    · exact hended l h
    · rw [mem_singleton.mp h]
      exact ⟨m, mem_of_mem_getLast? hlast, prefix_refl m⟩
  · exact hended l h

theorem not_mem_of_mem_lines {s l : Text} (h : l ∈ lines s) : '\n' ∉ l := by
  obtain ⟨m, hm, hp⟩ := exists_of_mem_lines h
  exact fun hl => Split.not_mem_of_mem_splitOn hm (hp.subset hl)

theorem mem_of_mem_lines {s l : Text} {c : Char} (h : l ∈ lines s) (hc : c ∈ l) : c ∈ s := by
  obtain ⟨m, hm, hp⟩ := exists_of_mem_lines h
  exact Split.mem_of_mem_splitOn hm (hp.subset hc)

/-- **Written lines are read back**, when none of them ends in `\r`. -/
theorem lines_unlines {ls : List Text} (h : ∀ l ∈ ls, '\n' ∉ l)
    (hcr : ∀ l ∈ ls, stripSuffix ['\r'] l = none) : lines (unlines ls) = ls := by
  unfold lines
  dsimp only
  rw [splitOn_unlines h, List.getLast?_append, dropLast_concat]
  show ls.map _ = ls
  conv_rhs => rw [← map_id ls]
  apply map_congr_left
  intro l hl
  rw [hcr l hl]
  rfl

end Thegn.Text

/-! ## Signed decimals

`str::parse` into a signed integer and the text that `format!` writes for one.
-/

namespace Thegn.Text

/-- `format!("{n}")` for a signed integer. -/
def ofInt : Int → Text
  | .ofNat n => ofNat n
  | .negSucc n => '-' :: ofNat (n + 1)

/-- `str::parse` into a signed integer from `-bound` to below `bound`: an optional sign, then
decimal digits. -/
def parseSigned (bound : Nat) : Text → Option Int
  | '-' :: digits =>
    if digits ≠ [] ∧ digits.all Char.isDigit ∧ Nat.ofDigitChars 10 digits 0 ≤ bound then
      some (-(Nat.ofDigitChars 10 digits 0 : Int))
    else none
  | s => (parseUnsigned bound s).map Int.ofNat

/-- **Reading back a written number.** -/
theorem parseSigned_ofInt {bound : Nat} {n : Int} (hlo : -(bound : Int) ≤ n) (hhi : n < bound) :
    parseSigned bound (ofInt n) = some n := by
  cases n with
  | ofNat n =>
    have hread : parseUnsigned bound (ofNat n) = some n := parseUnsigned_ofNat (Int.ofNat_lt.mp hhi)
    rw [ofInt]
    unfold parseSigned
    split
    · rename_i digits heq
      exact absurd (heq ▸ (.head _) : '-' ∈ ofNat n) (not_mem_ofNat (by decide))
    · rw [hread]
      rfl
  | negSucc n =>
    have hval : Nat.ofDigitChars 10 (ofNat (n + 1)) 0 = n + 1 :=
      Nat.ofDigitChars_toDigits (by decide) (by decide)
    have hall : (ofNat (n + 1)).all Char.isDigit = true :=
      List.all_eq_true.mpr fun c hc => isDigit_of_mem_ofNat hc
    rw [ofInt, parseSigned, hval, if_pos ⟨ofNat_ne_nil _, hall, by omega⟩]
    rfl

theorem parseSigned_range {bound : Nat} {s : Text} {n : Int} (h : parseSigned bound s = some n) :
    -(bound : Int) ≤ n ∧ n < bound ∨ n = 0 := by
  unfold parseSigned at h
  split at h
  · split_ifs at h with hdigits
    obtain rfl := Option.some.inj h
    omega
  · obtain ⟨m, hm, rfl⟩ := Option.map_eq_some_iff.mp h
    have hlt := parseUnsigned_lt hm
    exact .inl
      ⟨by simp only [Int.ofNat_eq_natCast]; omega, by simp only [Int.ofNat_eq_natCast]; omega⟩

/-- The characters of a written number. -/
theorem mem_ofInt {n : Int} {c : Char} (h : c ∈ ofInt n) : c.isDigit = true ∨ c = '-' := by
  cases n with
  | ofNat n => exact .inl (isDigit_of_mem_ofNat h)
  | negSucc n =>
    rcases List.mem_cons.mp h with rfl | h
    · exact .inr rfl
    · exact .inl (isDigit_of_mem_ofNat h)

end Thegn.Text

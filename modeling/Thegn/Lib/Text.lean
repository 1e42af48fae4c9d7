import Thegn.Lib.Split

set_option autoImplicit false

/-! # Text as a list of characters

A string of the program is the list of its Unicode scalar values. This file has the string
operations the modelled functions use, each with the behaviour documented for the standard
library function of the same name: stripping a known beginning or end, splitting once at a
pattern, trimming Unicode white space, reading and writing unsigned decimals.

`unlines` writes a list of lines with a newline after each, `segments` reads it back
(`segments_unlines`); the latter also accepts a last line without its newline, and never
leaves a newline inside a line (`not_mem_of_mem_segments`).
-/

namespace Thegn

open List

/-- A string: its Unicode scalar values in order. -/
abbrev Text := List Char

instance : LawfulBEq Text := inferInstance

namespace Text

/-- A literal, spelled out: the kernel checks a list of characters much faster than a literal. -/
theorem toList_literal {s : String} {l : Text} (h : s = String.ofList l) : s.toList = l :=
  h ▸ String.toList_ofList

/-! ## Beginnings and ends -/

/-- `strip_prefix`: what follows `p` in `s`, if `s` starts with `p`. -/
def stripPrefix (p s : Text) : Option Text := s.dropPrefix? p

/-- `strip_suffix`: what precedes `p` in `s`, if `s` ends with `p`. -/
def stripSuffix (p s : Text) : Option Text := s.dropSuffix? p

/-- `starts_with`. -/
def startsWith (s p : Text) : Bool := p.isPrefixOf s

theorem stripPrefix_eq_some {p s r : Text} : stripPrefix p s = some r ↔ s = p ++ r := by
  unfold stripPrefix
  rw [List.dropPrefix?_eq_some_iff]
  simp

@[simp] theorem stripPrefix_append (p r : Text) : stripPrefix p (p ++ r) = some r :=
  stripPrefix_eq_some.mpr rfl

theorem startsWith_iff {s p : Text} : startsWith s p = true ↔ ∃ r, s = p ++ r := by
  unfold startsWith
  rw [List.isPrefixOf_iff_prefix]
  exact ⟨fun ⟨r, h⟩ => ⟨r, h.symm⟩, fun ⟨r, h⟩ => ⟨r, h.symm⟩⟩

theorem not_mem_of_stripPrefix {p s r : Text} {c : Char} (h : stripPrefix p s = some r)
    (hc : c ∉ s) : c ∉ r := by
  rw [stripPrefix_eq_some.mp h] at hc
  exact fun hr => hc (mem_append_right _ hr)

theorem stripPrefix_eq_none {p s : Text} : stripPrefix p s = none ↔ startsWith s p = false := by
  rw [← Bool.not_eq_true, startsWith_iff, Option.eq_none_iff_forall_ne_some]
  constructor
  · rintro h ⟨r, hr⟩
    exact h r (stripPrefix_eq_some.mpr hr)
  · intro h r hr
    exact h ⟨r, stripPrefix_eq_some.mp hr⟩

/-! ## Splitting once -/

/-- `split_once` at the first occurrence of the pattern `p`. -/
def splitOnce (p : Text) : Text → Option (Text × Text)
  | [] => if p = [] then some ([], []) else none
  | c :: s =>
    match stripPrefix p (c :: s) with
    | some r => some ([], r)
    | none => (splitOnce p s).map (fun lr => (c :: lr.1, lr.2))

/-- `str::contains`. -/
def contains (s p : Text) : Bool := (splitOnce p s).isSome

/-- `split_once` at the first character satisfying `f`, which is dropped. -/
def splitOnceP (f : Char → Bool) : Text → Option (Text × Text)
  | [] => none
  | c :: s => if f c then some ([], s) else (splitOnceP f s).map (fun lr => (c :: lr.1, lr.2))

theorem splitOnceP_cons (f : Char → Bool) (c : Char) (s : Text) :
    splitOnceP f (c :: s)
      = if f c then some ([], s) else (splitOnceP f s).map (fun lr => (c :: lr.1, lr.2)) := rfl

theorem splitOnceP_append {f : Char → Bool} {w : Text} {c : Char} {r : Text}
    (hw : ∀ x ∈ w, f x = false) (hc : f c = true) : splitOnceP f (w ++ c :: r) = some (w, r) := by
  induction w with
  | nil => simp [splitOnceP_cons, hc]
  | cons x w ih =>
    have hx : f x = false := hw x (by simp)
    rw [cons_append, splitOnceP_cons, hx, ih (fun y hy => hw y (by simp [hy]))]
    rfl

theorem splitOnceP_eq_none {f : Char → Bool} {w : Text} (hw : ∀ x ∈ w, f x = false) :
    splitOnceP f w = none := by
  induction w with
  | nil => rfl
  | cons x w ih =>
    rw [splitOnceP_cons, hw x (by simp), ih (fun y hy => hw y (by simp [hy]))]
    rfl

/-- What a successful split at a character says about its input. -/
theorem splitOnceP_eq_some {f : Char → Bool} {s w r : Text} (h : splitOnceP f s = some (w, r)) :
    ∃ c, s = w ++ c :: r ∧ f c = true ∧ ∀ x ∈ w, f x = false := by
  induction s generalizing w r with
  | nil => cases h
  | cons a s ih =>
    rw [splitOnceP_cons] at h
    by_cases ha : f a = true
    · rw [if_pos ha] at h
      simp only [Option.some.injEq, Prod.mk.injEq] at h
      obtain ⟨rfl, rfl⟩ := h
      exact ⟨a, rfl, ha, by simp⟩
    · rw [if_neg ha] at h
      obtain ⟨⟨w', r'⟩, hs, he⟩ := Option.map_eq_some_iff.mp h
      simp only [Prod.mk.injEq] at he
      obtain ⟨rfl, rfl⟩ := he
      obtain ⟨c, rfl, hc, hw⟩ := ih hs
      refine ⟨c, rfl, hc, ?_⟩
      intro x hx
      rcases mem_cons.mp hx with rfl | hx
      · simpa using ha
      · exact hw x hx

theorem forall_of_splitOnceP_eq_none {f : Char → Bool} {s : Text} (h : splitOnceP f s = none) :
    ∀ x ∈ s, f x = false := by
  induction s with
  | nil => simp
  | cons a s ih =>
    rw [splitOnceP_cons] at h
    by_cases ha : f a = true
    · rw [if_pos ha] at h
      cases h
    · rw [if_neg ha, Option.map_eq_none_iff] at h
      intro x hx
      rcases mem_cons.mp hx with rfl | hx
      · simpa using ha
      · exact ih h x hx

theorem splitOnce_nil (p : Text) : splitOnce p [] = if p = [] then some ([], []) else none := rfl

theorem splitOnce_cons (p : Text) (c : Char) (s : Text) :
    splitOnce p (c :: s) =
      match stripPrefix p (c :: s) with
      | some r => some ([], r)
      | none => (splitOnce p s).map (fun lr => (c :: lr.1, lr.2)) := rfl

/-- A part without the pattern's first letter is copied to the left of the split. -/
theorem splitOnce_skip {a : Char} {p w : Text} (s : Text) (hw : a ∉ w) :
    splitOnce (a :: p) (w ++ s) = (splitOnce (a :: p) s).map (fun lr => (w ++ lr.1, lr.2)) := by
  induction w with
  | nil => simp
  | cons x w ih =>
    have hx : a ≠ x := fun h => hw (by simp [h])
    have hnone : stripPrefix (a :: p) (x :: (w ++ s)) = none := by
      simp [stripPrefix_eq_none, startsWith, List.isPrefixOf, hx]
    rw [cons_append, splitOnce_cons, hnone, ih (fun h => hw (by simp [h])), Option.map_map]
    rfl

theorem splitOnce_self {a : Char} (p r : Text) :
    splitOnce (a :: p) ((a :: p) ++ r) = some ([], r) := by
  rw [cons_append, splitOnce_cons, ← cons_append, stripPrefix_append]

/-- What a successful split says about its input. -/
theorem splitOnce_eq_some {p s l r : Text} (h : splitOnce p s = some (l, r)) : s = l ++ p ++ r := by
  induction s generalizing l r with
  | nil =>
    rw [splitOnce_nil] at h
    split at h
    · rename_i hp
      cases h
      simp [hp]
    · cases h
  | cons c s ih =>
    rw [splitOnce_cons] at h
    split at h
    · rename_i r' hr
      cases h
      exact stripPrefix_eq_some.mp hr
    · obtain ⟨⟨l', r'⟩, hs, he⟩ := Option.map_eq_some_iff.mp h
      cases he
      rw [ih hs]
      rfl

theorem contains_append_left {p t : Text} (h : contains t p = true) (l : Text) :
    contains (l ++ t) p = true := by
  induction l with
  | nil => exact h
  | cons c l ih =>
    rw [contains, cons_append, splitOnce_cons]
    split
    · rfl
    · rw [Option.isSome_map]
      exact ih

/-! ## White space -/

/-- `char::is_whitespace`: the Unicode property `White_Space`. -/
def isWhitespace (c : Char) : Bool :=
  (0x09 ≤ c.toNat && c.toNat ≤ 0x0d) || c.toNat == 0x20 || c.toNat == 0x85 || c.toNat == 0xa0
    || c.toNat == 0x1680 || (0x2000 ≤ c.toNat && c.toNat ≤ 0x200a) || c.toNat == 0x2028
    || c.toNat == 0x2029 || c.toNat == 0x202f || c.toNat == 0x205f || c.toNat == 0x3000

def trimStart (s : Text) : Text := s.dropWhile isWhitespace

/-- `trim_end_matches` for a set of characters. -/
def trimEndMatches (f : Char → Bool) (s : Text) : Text := (s.reverse.dropWhile f).reverse

def trimEnd (s : Text) : Text := trimEndMatches isWhitespace s

def trim (s : Text) : Text := trimEnd (trimStart s)

/-- `split_whitespace`. -/
def splitWhitespace (s : Text) : List Text := (s.splitOnP isWhitespace).filter (· ≠ [])

/-- `eq_ignore_ascii_case`. -/
def eqIgnoreAsciiCase (a b : Text) : Bool := a.map Char.toLower == b.map Char.toLower

/-- `char::is_control`. -/
def isControl (c : Char) : Bool :=
  decide (c.toNat < 32) || (decide (127 ≤ c.toNat) && decide (c.toNat < 160))

/-! ## Unsigned decimals -/

/-- `format!("{n}")` for an unsigned integer. -/
def ofNat (n : Nat) : Text := Nat.toDigits 10 n

/-- `str::parse` into an unsigned integer below `bound`: an optional `+`, then decimal digits. -/
def parseUnsigned (bound : Nat) (s : Text) : Option Nat :=
  let digits := (stripPrefix ['+'] s).getD s
  if digits ≠ [] ∧ digits.all Char.isDigit ∧ Nat.ofDigitChars 10 digits 0 < bound then
    some (Nat.ofDigitChars 10 digits 0)
  else none

theorem isDigit_of_mem_ofNat {n : Nat} {c : Char} (h : c ∈ ofNat n) : c.isDigit = true :=
  Nat.isDigit_of_mem_toDigits (by decide) (by decide) h

theorem not_mem_ofNat {n : Nat} {c : Char} (h : c.isDigit = false) : c ∉ ofNat n := by
  intro hc
  rw [isDigit_of_mem_ofNat hc] at h
  cases h

theorem ofNat_ne_nil (n : Nat) : ofNat n ≠ [] := Nat.toDigits_ne_nil

/-- **Reading back a written number.** -/
theorem parseUnsigned_ofNat {bound n : Nat} (h : n < bound) :
    parseUnsigned bound (ofNat n) = some n := by
  have hplus : stripPrefix ['+'] (ofNat n) = none := by
    rw [stripPrefix_eq_none]
    by_contra hc
    obtain ⟨r, hr⟩ := startsWith_iff.mp (by simpa using hc)
    exact not_mem_ofNat (c := '+') (by decide) (hr ▸ (.head _) : '+' ∈ ofNat n)
  have hval : Nat.ofDigitChars 10 (ofNat n) 0 = n :=
    Nat.ofDigitChars_toDigits (by decide) (by decide)
  have hall : (ofNat n).all Char.isDigit = true := by
    rw [all_eq_true]
    exact fun c hc => isDigit_of_mem_ofNat hc
  simp only [parseUnsigned, hplus, Option.getD_none]
  rw [if_pos ⟨ofNat_ne_nil n, hall, by rw [hval]; exact h⟩, hval]

theorem parseUnsigned_lt {bound n : Nat} {s : Text} (h : parseUnsigned bound s = some n) :
    n < bound := by
  simp only [parseUnsigned] at h
  split at h
  · rename_i hc
    cases h
    exact hc.2.2
  · cases h

/-! ## Lines -/

/-- Write lines, each with a newline after it. -/
def unlines (ls : List Text) : Text := ls.flatMap (· ++ ['\n'])

/-- `split('\n')`, without the empty piece after a final newline. -/
def segments (s : Text) : List Text :=
  let pieces := s.splitOn '\n'
  if pieces.getLast? = some [] then pieces.dropLast else pieces

/-- `join` with a separator. -/
def join (sep : Text) (ls : List Text) : Text := sep.intercalate ls

@[simp] theorem unlines_nil : unlines [] = [] := rfl

@[simp] theorem unlines_cons (l : Text) (ls : List Text) :
    unlines (l :: ls) = l ++ '\n' :: unlines ls := by
  simp [unlines]

@[simp] theorem unlines_append (ls ms : List Text) :
    unlines (ls ++ ms) = unlines ls ++ unlines ms := by
  simp [unlines]

theorem splitOn_unlines {ls : List Text} (h : ∀ l ∈ ls, '\n' ∉ l) :
    (unlines ls).splitOn '\n' = ls ++ [[]] := by
  induction ls with
  | nil => rfl
  | cons l ls ih =>
    rw [unlines_cons, splitOn_append_cons_self_of_not_mem (h l (by simp)),
      ih (fun m hm => h m (by simp [hm]))]
    rfl

/-- **Written lines are read back.** -/
theorem segments_unlines {ls : List Text} (h : ∀ l ∈ ls, '\n' ∉ l) :
    segments (unlines ls) = ls := by
  simp [segments, splitOn_unlines h]

theorem not_mem_of_mem_segments {s l : Text} (h : l ∈ segments s) : '\n' ∉ l := by
  simp only [segments] at h
  split at h
  · exact Split.not_mem_of_mem_splitOn (mem_of_mem_dropLast h)
  · exact Split.not_mem_of_mem_splitOn h

end Text

end Thegn

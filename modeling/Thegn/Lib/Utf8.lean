import Thegn.Lib.Text

set_option autoImplicit false

/-! # Texts addressed by byte offsets

The program addresses the characters of a string by the offset of their first byte in UTF-8. `cut`
splits a text at such an offset, and fails where a character would be broken (`cut_append`,
`cut_eq_some`); slicing and replacing are built on it.
-/

namespace Thegn.Text

open List

/-- `as_bytes`. -/
def utf8 (t : Text) : List UInt8 := t.flatMap String.utf8EncodeChar

/-- `len`: the number of bytes. -/
def byteLen (t : Text) : Nat := (utf8 t).length

@[simp] theorem utf8_nil : utf8 [] = [] := rfl

@[simp] theorem utf8_append (a b : Text) : utf8 (a ++ b) = utf8 a ++ utf8 b := flatMap_append

@[simp] theorem byteLen_nil : byteLen [] = 0 := rfl

@[simp] theorem byteLen_append (a b : Text) : byteLen (a ++ b) = byteLen a + byteLen b := by
  simp [byteLen]

/-- `str::from_utf8`. -/
def fromUtf8 (bytes : List UInt8) : Option Text := bytes.toByteArray.utf8Decode?.map Array.toList

/-- **What was written as UTF-8 is read back.** -/
@[simp] theorem fromUtf8_utf8 (t : Text) : fromUtf8 (utf8 t) = some t := by
  have henc : (utf8 t).toByteArray = t.utf8Encode := rfl
  rw [fromUtf8, henc, List.utf8Decode?_utf8Encode]
  rfl

/-- The number of bytes of a character. -/
def charLen (c : Char) : Nat := (String.utf8EncodeChar c).length

theorem charLen_pos (c : Char) : 0 < charLen c := by
  unfold charLen
  rw [String.length_utf8EncodeChar]
  exact Char.utf8Size_pos c

theorem byteLen_cons (c : Char) (t : Text) : byteLen (c :: t) = charLen c + byteLen t := by
  simp [byteLen, charLen, utf8]

theorem eq_nil_of_byteLen {t : Text} (h : byteLen t = 0) : t = [] := by
  cases t with
  | nil => rfl
  | cons c t =>
    have hpos := charLen_pos c
    rw [byteLen_cons] at h
    omega

theorem charLen_of_lt {c : Char} (h : c.toNat < 128) : charLen c = 1 := by
  unfold charLen
  rw [String.length_utf8EncodeChar, Char.utf8Size]
  rw [if_pos]
  rw [UInt32.le_iff_toNat_le]
  exact Nat.le_of_lt_succ h

theorem byteLen_eq_length {s : Text} (h : ∀ c ∈ s, charLen c = 1) : byteLen s = s.length := by
  induction s with
  | nil => rfl
  | cons c s ih =>
    rw [byteLen_cons, h c mem_cons_self, ih fun d hd => h d (mem_cons_of_mem _ hd),
      length_cons, Nat.add_comm]

/-! ## Cutting at an offset -/

/-- The parts before and after byte `n`, if no character is broken. -/
def cut : Text → Nat → Option (Text × Text)
  | [], n => if n = 0 then some ([], []) else none
  | c :: t, n =>
    if n = 0 then some ([], c :: t)
    else if charLen c ≤ n then (cut t (n - charLen c)).map (fun p => (c :: p.1, p.2))
    else none

theorem cut_zero (t : Text) : cut t 0 = some ([], t) := by
  cases t with
  | nil => rfl
  | cons c t => rfl

theorem cut_append (a b : Text) : cut (a ++ b) (byteLen a) = some (a, b) := by
  induction a with
  | nil => exact cut_zero b
  | cons c a ih =>
    have hpos := charLen_pos c
    rw [cons_append, cut, byteLen_cons, if_neg (by omega), if_pos (by omega),
      Nat.add_sub_cancel_left, ih]
    rfl

theorem cut_eq_some {t a b : Text} {n : Nat} (h : cut t n = some (a, b)) :
    t = a ++ b ∧ byteLen a = n := by
  induction t generalizing n a b with
  | nil =>
    unfold cut at h
    split_ifs at h with hn
    cases h
    exact ⟨rfl, hn.symm⟩
  | cons c t ih =>
    unfold cut at h
    split_ifs at h with hn hc
    · cases h
      exact ⟨rfl, hn.symm⟩
    · obtain ⟨⟨a', b'⟩, hcut, heq⟩ := Option.map_eq_some_iff.mp h
      cases heq
      obtain ⟨rfl, hlen⟩ := ih hcut
      refine ⟨rfl, ?_⟩
      show byteLen (c :: a') = n
      rw [byteLen_cons, hlen]
      omega

/-- `is_char_boundary`. -/
def isCharBoundary (t : Text) (n : Nat) : Bool := (cut t n).isSome

theorem isCharBoundary_append (a b : Text) : isCharBoundary (a ++ b) (byteLen a) = true := by
  rw [isCharBoundary, cut_append]
  rfl

theorem isCharBoundary_iff {t : Text} {n : Nat} :
    isCharBoundary t n = true ↔ ∃ a b, t = a ++ b ∧ byteLen a = n := by
  constructor
  · intro h
    obtain ⟨⟨a, b⟩, hcut⟩ := Option.isSome_iff_exists.mp h
    exact ⟨a, b, cut_eq_some hcut⟩
  · rintro ⟨a, b, rfl, rfl⟩
    exact isCharBoundary_append a b

/-- A boundary behind a known part of the text is a boundary of the rest. -/
theorem exists_cut_of_boundary {p t : Text} {n : Nat} (h : isCharBoundary (p ++ t) n = true)
    (hn : byteLen p ≤ n) : ∃ g b, t = g ++ b ∧ byteLen p + byteLen g = n := by
  obtain ⟨a, b, heq, hlen⟩ := isCharBoundary_iff.mp h
  rcases append_eq_append_iff.mp heq with ⟨g, hg, hb⟩ | ⟨g, hg, hb⟩
  · refine ⟨g, b, hb, ?_⟩
    rw [hg, byteLen_append] at hlen
    exact hlen
  · -- the boundary is not before the end of the known part, so it is its end
    rw [hg, byteLen_append] at hn
    have hnil : g = [] := eq_nil_of_byteLen (by omega)
    rw [hnil, append_nil] at hg
    refine ⟨[], t, rfl, ?_⟩
    rw [byteLen_nil, hg, hlen, Nat.add_zero]

/-! ## Slices -/

/-- The bytes from `start` to `stop`. -/
def byteSlice (bytes : List UInt8) (start stop : Nat) : List UInt8 :=
  (bytes.drop start).take (stop - start)

/-- `&t[start..stop]`; `none` where the program would panic. -/
def slice (t : Text) (start stop : Nat) : Option Text :=
  if start ≤ stop then do
    let (_, rest) ← cut t start
    let (mid, _) ← cut rest (stop - start)
    return mid
  else none

/-- `replace_range(start..stop, r)`; `none` where the program would panic. -/
def replaceRange (t : Text) (start stop : Nat) (r : Text) : Option Text :=
  if start ≤ stop then do
    let (before, rest) ← cut t start
    let (_, after) ← cut rest (stop - start)
    return before ++ r ++ after
  else none

theorem replaceRange_append (a m b r : Text) :
    replaceRange (a ++ (m ++ b)) (byteLen a) (byteLen a + byteLen m) r = some (a ++ (r ++ b)) := by
  unfold replaceRange
  rw [if_pos (by omega), cut_append]
  show (do
    let (_, after) ← cut (m ++ b) (byteLen a + byteLen m - byteLen a)
    return a ++ r ++ after) = _
  rw [Nat.add_sub_cancel_left, cut_append]
  simp

theorem byteSlice_append (a m b : List UInt8) :
    byteSlice (a ++ (m ++ b)) a.length (a.length + m.length) = m := by
  unfold byteSlice
  rw [drop_left, Nat.add_sub_cancel_left, take_left]

end Thegn.Text

/-! # Reading bytes as text, with replacements

`String::from_utf8_lossy`: each maximal beginning of a character that is not continued to one
becomes the replacement character, and so does every byte that begins none.
-/

namespace Thegn.Text

open List

/-- How many bytes that begin no character are replaced at once. -/
def invalidLen : List UInt8 → Nat
  | b0 :: b1 :: rest =>
    if (b0 == 0xe0 && 0xa0 ≤ b1 && b1 ≤ 0xbf) || (0xe1 ≤ b0 && b0 ≤ 0xec && 0x80 ≤ b1 && b1 ≤ 0xbf)
        || (b0 == 0xed && 0x80 ≤ b1 && b1 ≤ 0x9f)
        || (0xee ≤ b0 && b0 ≤ 0xef && 0x80 ≤ b1 && b1 ≤ 0xbf) then 2
    else if (b0 == 0xf0 && 0x90 ≤ b1 && b1 ≤ 0xbf)
        || (0xf1 ≤ b0 && b0 ≤ 0xf3 && 0x80 ≤ b1 && b1 ≤ 0xbf)
        || (b0 == 0xf4 && 0x80 ≤ b1 && b1 ≤ 0x8f) then
      if rest.head?.any (fun b2 => 0x80 ≤ b2 && b2 ≤ 0xbf) then 3 else 2
    else 1
  | _ => 1

theorem invalidLen_pos (bytes : List UInt8) : 0 < invalidLen bytes := by
  unfold invalidLen
  repeat' split
  all_goals decide

/-- `String::from_utf8_lossy`. -/
def fromUtf8Lossy : List UInt8 → Text
  | [] => []
  | b :: bytes =>
    match (b :: bytes).toByteArray.utf8DecodeChar? 0 with
    | some c => c :: fromUtf8Lossy ((b :: bytes).drop c.utf8Size)
    | none => '\uFFFD' :: fromUtf8Lossy ((b :: bytes).drop (invalidLen (b :: bytes)))
termination_by bytes => bytes.length
decreasing_by
  · have hpos := c.utf8Size_pos
    rw [length_drop, length_cons]
    omega
  · have hpos := invalidLen_pos (b :: bytes)
    rw [length_drop, length_cons]
    omega

/-- Text written as UTF-8 is read without replacements. -/
theorem fromUtf8Lossy_utf8 (t : Text) : fromUtf8Lossy (utf8 t) = t := by
  induction t with
  | nil => rw [utf8_nil, fromUtf8Lossy]
  | cons c t ih =>
    have hbytes : utf8 (c :: t) = String.utf8EncodeChar c ++ utf8 t := List.flatMap_cons
    have hdecode : (utf8 (c :: t)).toByteArray.utf8DecodeChar? 0 = some c := by
      rw [hbytes, toByteArray_append]
      exact ByteArray.utf8DecodeChar?_utf8EncodeChar_append
    have hdrop : (utf8 (c :: t)).drop c.utf8Size = utf8 t := by
      rw [hbytes]
      exact drop_left' (String.length_utf8EncodeChar c)
    obtain ⟨b, bytes, hcons⟩ : ∃ b bytes, utf8 (c :: t) = b :: bytes := by
      have hpos := charLen_pos c
      refine exists_cons_of_length_pos ?_
      rw [hbytes, length_append]
      exact Nat.lt_of_lt_of_le hpos (Nat.le_add_right _ _)
    rw [hcons] at hdecode hdrop ⊢
    rw [fromUtf8Lossy, hdecode]
    simp only [hdrop, ih]

end Thegn.Text

import Thegn.Lsp.Framing
import Thegn.Lib.Incremental

set_option autoImplicit false

/-! # The stream read from the left

What the framing means, without a buffer: the header ends at the first empty line, which must end
within `maxHeaderBytes`, and the body is as long as the header says. `next` finds a message at the
left of a stream, and what it says of a beginning of a stream stays true of the stream
(`next_stable`), so a beginning of an encoded message is never taken for something else
(`next_prefix_encode`).
-/

namespace Thegn.Lsp

open Text Incremental List

/-! ## The end of the header -/

/-- How many bytes stand before the first empty line. -/
def headerEnd : Bytes → Option Nat
  | [] => none
  | b :: s => if headerBreak <+: b :: s then some 0 else (headerEnd s).map (· + 1)

theorem headerEnd_eq_some {v : Bytes} {n : Nat} :
    headerEnd v = some n ↔ headerBreak <+: v.drop n ∧ ∀ m < n, ¬ headerBreak <+: v.drop m := by
  induction v generalizing n with
  | nil =>
    simp [headerEnd, headerBreak]
  | cons b s ih =>
    unfold headerEnd
    by_cases hb : headerBreak <+: b :: s
    · rw [if_pos hb]
      constructor
      · intro h
        cases h
        exact ⟨hb, by simp⟩
      · rintro ⟨-, hno⟩
        cases n with
        | zero => rfl
        | succ n => exact absurd hb (hno 0 (by omega))
    · rw [if_neg hb, Option.map_eq_some_iff]
      constructor
      · rintro ⟨n, hn, rfl⟩
        obtain ⟨hat, hno⟩ := ih.mp hn
        refine ⟨hat, ?_⟩
        intro m hm
        cases m with
        | zero => exact hb
        | succ m => exact hno m (by omega)
      · rintro ⟨hat, hno⟩
        cases n with
        | zero => exact absurd hat hb
        | succ n => exact ⟨n, ih.mpr ⟨hat, fun m hm => hno (m + 1) (by omega)⟩, rfl⟩

theorem headerEnd_eq_none {v : Bytes} : headerEnd v = none ↔ ∀ m, ¬ headerBreak <+: v.drop m := by
  induction v with
  | nil => simp [headerEnd, headerBreak]
  | cons b s ih =>
    unfold headerEnd
    by_cases hb : headerBreak <+: b :: s
    · rw [if_pos hb]
      constructor
      · intro h
        cases h
      · intro h
        exact absurd hb (h 0)
    · rw [if_neg hb, Option.map_eq_none_iff, ih]
      constructor
      · intro h m
        cases m with
        | zero => exact hb
        | succ m => exact h m
      · exact fun h m => h (m + 1)

/-- An empty line that starts at `m` is there in the first `k` bytes already, if it ends there. -/
theorem prefix_drop_take {v : Bytes} {m k : Nat} (hk : m + 4 ≤ k) :
    headerBreak <+: (v.take k).drop m ↔ headerBreak <+: v.drop m := by
  rw [drop_take, prefix_take_iff]
  have hlen : headerBreak.length = 4 := rfl
  constructor
  · exact fun h => h.1
  · exact fun h => ⟨h, by omega⟩

theorem length_of_prefix_drop {v : Bytes} {m : Nat} (h : headerBreak <+: v.drop m) :
    m + 4 ≤ v.length := by
  have hlen := h.length_le
  rw [length_drop] at hlen
  have : headerBreak.length = 4 := rfl
  omega

theorem headerEnd_length {v : Bytes} {n : Nat} (h : headerEnd v = some n) : n + 4 ≤ v.length := by
  rw [headerEnd_eq_some] at h
  exact length_of_prefix_drop h.1

/-- An empty line is there whatever follows, if it ends before. -/
theorem prefix_drop_append {v : Bytes} {m : Nat} (hm : m + 4 ≤ v.length) (w : Bytes) :
    headerBreak <+: (v ++ w).drop m ↔ headerBreak <+: v.drop m := by
  have h := prefix_drop_take (v := v ++ w) hm
  rw [take_left] at h
  exact h.symm

/-- The end of the header does not move by what arrives later. -/
theorem headerEnd_append {v : Bytes} {n : Nat} (h : headerEnd v = some n) (w : Bytes) :
    headerEnd (v ++ w) = some n := by
  have hlen := headerEnd_length h
  rw [headerEnd_eq_some] at h ⊢
  obtain ⟨hat, hno⟩ := h
  rw [prefix_drop_append hlen w]
  refine ⟨hat, ?_⟩
  intro m hm
  rw [prefix_drop_append (by omega) w]
  exact hno m hm

theorem headerEnd_take_append {u : Bytes} {n k : Nat} (h : headerEnd (u.take k) = some n)
    (w : Bytes) : headerEnd ((u ++ w).take k) = some n := by
  rw [take_append]
  exact headerEnd_append h _

/-- A header without a carriage return ends at the empty line behind it. -/
theorem headerEnd_of_not_mem {header : Bytes} (h : 13 ∉ header) (w : Bytes) :
    headerEnd (header ++ headerBreak ++ w) = some header.length := by
  rw [headerEnd_eq_some]
  refine ⟨by simp [append_assoc], ?_⟩
  intro m hm hp
  obtain ⟨b, s, hs⟩ : ∃ b s, header.drop m = b :: s :=
    exists_cons_of_length_pos (by rw [length_drop]; omega)
  have hb : b ∈ header := mem_of_mem_drop (hs ▸ mem_cons_self)
  rw [append_assoc, drop_append_of_le_length (by omega), hs, cons_append] at hp
  have : (13 : UInt8) = b := (cons_prefix_cons.mp hp).1
  exact h (this ▸ hb)

/-! ## Messages -/

/-- What stands at the left of a stream. -/
def next (limit : Nat) (u : Bytes) : Next UInt8 Text ProtocolError :=
  match headerEnd (u.take maxHeaderBytes) with
  | none => if maxHeaderBytes ≤ u.length then .fail .headerTooLong else .more
  | some n =>
    match parseContentLength (u.take n) limit with
    | .error e => .fail e
    | .ok len =>
      if (u.drop (n + 4)).length < len then .more
      else
        match fromUtf8 ((u.drop (n + 4)).take len) with
        | none => .fail .invalidUtf8
        | some body => .item body (u.drop (n + 4 + len))

/-- The first `n` results of reading a whole stream: its messages, and then its end or its error. -/
def readAll (limit : Nat) : Nat → Bytes → List (Except ReadError (Option Text))
  | 0, _ => []
  | n + 1, u =>
    match next limit u with
    | .item body rest => .ok (some body) :: readAll limit n rest
    | .fail e => List.replicate (n + 1) (.error (.protocol e))
    | .more =>
      if u = [] then List.replicate (n + 1) (.ok none)
      else List.replicate (n + 1) (.error (.protocol .truncatedFrame))

section Stable

variable {limit : Nat} {u : Bytes} {n : Nat}

theorem headerEnd_take_length (h : headerEnd (u.take maxHeaderBytes) = some n) :
    n + 4 ≤ maxHeaderBytes ∧ n + 4 ≤ u.length := by
  have hlen := headerEnd_length h
  rw [length_take] at hlen
  omega

/-- `next` once the header is found. -/
theorem next_of_header {len : Nat} (h : headerEnd (u.take maxHeaderBytes) = some n)
    (hp : parseContentLength (u.take n) limit = .ok len) :
    next limit u =
      if (u.drop (n + 4)).length < len then .more
      else
        match fromUtf8 ((u.drop (n + 4)).take len) with
        | none => .fail .invalidUtf8
        | some body => .item body (u.drop (n + 4 + len)) := by
  unfold next
  rw [h]
  simp only [hp]

theorem next_of_bad_header {e : ProtocolError} (h : headerEnd (u.take maxHeaderBytes) = some n)
    (hp : parseContentLength (u.take n) limit = .error e) : next limit u = .fail e := by
  unfold next
  rw [h]
  simp only [hp]

theorem next_of_no_header (h : headerEnd (u.take maxHeaderBytes) = none) :
    next limit u = if maxHeaderBytes ≤ u.length then .fail .headerTooLong else .more := by
  unfold next
  rw [h]

/-- The same body is there, whatever follows. -/
theorem next_append_of_header {len : Nat} (h : headerEnd (u.take maxHeaderBytes) = some n)
    (hp : parseContentLength (u.take n) limit = .ok len) (hfull : len ≤ (u.drop (n + 4)).length)
    (w : Bytes) :
    next limit (u ++ w) =
      match fromUtf8 ((u.drop (n + 4)).take len) with
      | none => .fail .invalidUtf8
      | some body => .item body (u.drop (n + 4 + len) ++ w) := by
  have hlen := headerEnd_take_length h
  have hu : n + 4 + len ≤ u.length := by
    rw [length_drop] at hfull
    omega
  have hheader : parseContentLength ((u ++ w).take n) limit = .ok len := by
    rw [take_append_of_le_length (by omega)]
    exact hp
  rw [next_of_header (headerEnd_take_append h w) hheader, if_neg (by simp; omega),
    drop_append_of_le_length (by omega), take_append_of_le_length hfull,
    drop_append_of_le_length hu]

/-- **What is said of the left of a stream does not change by what follows.** -/
theorem next_stable (limit : Nat) : Stable (next limit) where
  item := by
    intro u x rest h w
    cases hh : headerEnd (u.take maxHeaderBytes) with
    | none =>
      rw [next_of_no_header hh] at h
      split at h <;> cases h
    | some n =>
      cases hp : parseContentLength (u.take n) limit with
      | error e =>
        rw [next_of_bad_header hh hp] at h
        cases h
      | ok len =>
        rw [next_of_header hh hp] at h
        split at h
        · cases h
        · rename_i hfull
          rw [next_append_of_header hh hp (by omega) w]
          cases hbody : fromUtf8 ((u.drop (n + 4)).take len) with
          | none =>
            rw [hbody] at h
            cases h
          | some body =>
            rw [hbody] at h
            cases h
            rfl
  fail := by
    intro u e h w
    cases hh : headerEnd (u.take maxHeaderBytes) with
    | none =>
      rw [next_of_no_header hh] at h
      split at h
      · rename_i hlong
        have htake : (u ++ w).take maxHeaderBytes = u.take maxHeaderBytes :=
          take_append_of_le_length hlong
        rw [next_of_no_header (htake ▸ hh), if_pos (by simp; omega)]
        exact h
      · cases h
    | some n =>
      have hlen := headerEnd_take_length hh
      cases hp : parseContentLength (u.take n) limit with
      | error e' =>
        rw [next_of_bad_header hh hp] at h
        have hheader : parseContentLength ((u ++ w).take n) limit = .error e' := by
          rw [take_append_of_le_length (by omega)]
          exact hp
        rw [next_of_bad_header (headerEnd_take_append hh w) hheader]
        exact h
      | ok len =>
        rw [next_of_header hh hp] at h
        split at h
        · cases h
        · rename_i hfull
          rw [next_append_of_header hh hp (by omega) w]
          cases hbody : fromUtf8 ((u.drop (n + 4)).take len) with
          | none =>
            rw [hbody] at h
            exact h
          | some body =>
            rw [hbody] at h
            cases h

end Stable

/-! ## The length of a header's body -/

theorem parseLength_le {value : Text} {length : Option Nat} {limit len : Nat}
    (h : parseLength value length limit = .ok len) : len ≤ limit := by
  simp only [parseLength] at h
  split at h
  · cases h
  · split at h
    · cases h
    · split at h
      · cases h
      · cases h
        omega

theorem parseLines_le {limit : Nat} {lines : List Text} {length : Option Nat} {len : Nat}
    (hlength : ∀ l, length = some l → l ≤ limit)
    (h : parseLines limit lines length = .ok (some len)) : len ≤ limit := by
  induction lines generalizing length with
  | nil =>
    simp only [parseLines, Except.ok.injEq] at h
    exact hlength len h
  | cons line lines ih =>
    unfold parseLines at h
    cases hline : splitOnceP (· == ':') line with
    | none =>
      rw [hline] at h
      cases h
    | some kv =>
      simp only [hline] at h
      split at h
      · cases h
      · split at h
        · cases hl : parseLength kv.2 length limit with
          | error e =>
            rw [hl] at h
            cases h
          | ok l =>
            rw [hl] at h
            refine ih ?_ h
            intro l' hl'
            cases hl'
            exact parseLength_le hl
        · exact ih hlength h

theorem parseContentLength_le {header : Bytes} {limit len : Nat}
    (h : parseContentLength header limit = .ok len) : len ≤ limit := by
  unfold parseContentLength at h
  cases hu : fromUtf8 header with
  | none =>
    rw [hu] at h
    cases h
  | some text =>
    simp only [hu] at h
    split at h
    · cases h
    · cases h
    · rename_i l hl
      cases h
      exact parseLines_le (fun _ hn => by cases hn) hl

/-- A stream without a whole message at its left is short. -/
theorem length_of_next_more {limit : Nat} {u : Bytes} (h : next limit u = .more) :
    u.length < limit + maxHeaderBytes := by
  cases hh : headerEnd (u.take maxHeaderBytes) with
  | none =>
    rw [next_of_no_header hh] at h
    split at h
    · cases h
    · omega
  | some n =>
    have hlen := headerEnd_take_length hh
    cases hp : parseContentLength (u.take n) limit with
    | error e =>
      rw [next_of_bad_header hh hp] at h
      cases h
    | ok len =>
      have hle := parseContentLength_le hp
      rw [next_of_header hh hp] at h
      split at h
      · rename_i hshort
        rw [length_drop] at hshort
        omega
      · cases hbody : fromUtf8 ((u.drop (n + 4)).take len) with
        | none =>
          rw [hbody] at h
          cases h
        | some body =>
          rw [hbody] at h
          cases h

/-- A header that cannot be read is no question of room. -/
theorem parseLines_ne_bufferTooLong {limit : Nat} {lines : List Text} {length : Option Nat} :
    parseLines limit lines length ≠ .error .bufferTooLong := by
  induction lines generalizing length with
  | nil => simp [parseLines]
  | cons line lines ih =>
    unfold parseLines
    cases splitOnceP (· == ':') line with
    | none => simp
    | some kv =>
      simp only
      split
      · simp
      · split
        · have hlength : parseLength kv.2 length limit ≠ .error .bufferTooLong := by
            simp only [parseLength]
            repeat' split
            all_goals simp
          cases hl : parseLength kv.2 length limit with
          | error e =>
            simp only
            rw [hl] at hlength
            simpa using hlength
          | ok len => exact ih
        · exact ih

theorem next_ne_bufferTooLong {limit : Nat} {u : Bytes} : next limit u ≠ .fail .bufferTooLong := by
  have hparse : ∀ {header : Bytes}, parseContentLength header limit ≠ .error .bufferTooLong := by
    intro header
    unfold parseContentLength
    cases fromUtf8 header with
    | none => simp
    | some text =>
      have hlines := @parseLines_ne_bufferTooLong limit (splitCrlf text) none
      simp only
      split
      · rename_i e he
        rw [he] at hlines
        simpa using hlines
      · simp
      · simp
  cases hh : headerEnd (u.take maxHeaderBytes) with
  | none =>
    rw [next_of_no_header hh]
    split <;> simp
  | some n =>
    cases hp : parseContentLength (u.take n) limit with
    | error e =>
      rw [next_of_bad_header hh hp]
      intro h
      cases h
      exact hparse hp
    | ok len =>
      rw [next_of_header hh hp]
      split
      · simp
      · cases fromUtf8 ((u.drop (n + 4)).take len) <;> simp

/-! ## Encoded messages -/

/-- The header of a body of `n` bytes. -/
def header (n : Nat) : Text := "Content-Length: ".toList ++ ofNat n

theorem encode_eq (body : Text) : encode body = utf8 (header (byteLen body)) ++ headerBreak ++
    utf8 body :=
  rfl

/-- Neither a colon nor a line break stands in the number. -/
theorem not_mem_header {n : Nat} {c : Char} (hc : c.isDigit = false)
    (hkey : c ∉ "Content-Length: ".toList) : c ∉ header n := by
  intro h
  rcases mem_append.mp h with h | h
  · exact hkey h
  · exact not_mem_ofNat hc h

theorem digit_toNat {n : Nat} {c : Char} (h : c ∈ ofNat n) : 48 ≤ c.toNat ∧ c.toNat ≤ 57 :=
  Char.isDigit_iff_toNat.mp (isDigit_of_mem_ofNat h)

theorem splitCrlf_of_not_mem {s : Text} (h : '\r' ∉ s) : splitCrlf s = [s] := by
  induction s with
  | nil => rfl
  | cons c s ih =>
    have hc : c ≠ '\r' := fun hc => h (by simp [hc])
    rw [splitCrlf, ih (fun hs => h (mem_cons_of_mem _ hs))]
    intro _ hcr
    exact absurd hcr hc

theorem trimBlanks_ofNat (n : Nat) : trimBlanks (' ' :: ofNat n) = ofNat n := by
  have hblank : ∀ c ∈ ofNat n, (c == ' ' || c == '\t') = false := by
    intro c hc
    have hd := isDigit_of_mem_ofNat hc
    by_contra hne
    simp only [Bool.not_eq_false, Bool.or_eq_true, beq_iff_eq] at hne
    rcases hne with rfl | rfl <;> exact absurd hd (by decide)
  have hdrop : ∀ l : Text, (∀ c ∈ l, (c == ' ' || c == '\t') = false) →
      l.dropWhile (fun c => c == ' ' || c == '\t') = l := by
    intro l hl
    cases l with
    | nil => rfl
    | cons c l => rw [dropWhile_cons_of_neg (by rw [hl c (by simp)]; decide)]
  unfold trimBlanks trimEndMatches
  rw [dropWhile_cons_of_pos (by decide), hdrop _ hblank,
    hdrop _ (fun c hc => hblank c (mem_reverse.mp hc)), reverse_reverse]

/-- **The header of an encoded body is read back.** -/
theorem parseContentLength_header {n limit : Nat} (hn : n ≤ limit) (hlimit : limit ≤ maxFrameLen) :
    parseContentLength (utf8 (header n)) limit = .ok n := by
  have hword : n < 2 ^ 64 := by
    have : maxFrameLen < 2 ^ 64 := by decide
    omega
  have hsplit : splitCrlf (header n) = [header n] :=
    splitCrlf_of_not_mem (not_mem_header (by decide) (by decide))
  have hkv : splitOnceP (· == ':') (header n) = some ("Content-Length".toList, ' ' :: ofNat n) := by
    have hkey : ∀ c ∈ "Content-Length".toList, (c == ':') = false := by simp
    have hlit : "Content-Length: ".toList = "Content-Length".toList ++ [':', ' '] := by simp
    have hheader : header n = "Content-Length".toList ++ ':' :: ' ' :: ofNat n :=
      (congrArg (· ++ ofNat n) hlit).trans (append_assoc _ _ _)
    rw [hheader]
    exact splitOnceP_append hkey rfl
  have hvalue : (' ' :: ofNat n).any (fun c => isAsciiControl c && c != '\t') = false := by
    rw [any_eq_false]
    intro c hc
    rcases mem_cons.mp hc with rfl | hc
    · decide
    · have hd := digit_toNat hc
      simp only [isAsciiControl, Bool.and_eq_true, Bool.or_eq_true, decide_eq_true_eq, beq_iff_eq]
      omega
  have hdigits : (ofNat n).all Char.isDigit = true :=
    all_eq_true.mpr (fun c hc => isDigit_of_mem_ofNat hc)
  have hnonempty : (ofNat n).isEmpty = false := by
    simpa using ofNat_ne_nil n
  have hlength : parseLength (' ' :: ofNat n) none limit = .ok n := by
    simp only [parseLength, trimBlanks_ofNat, parseUnsigned_ofNat hword, hdigits, hnonempty]
    simp only [Option.isSome_none, Bool.not_true, Bool.or_self, Bool.false_eq_true, if_false]
    rw [if_neg (by omega)]
  have hlines : parseLines limit [header n] none = .ok (some n) := by
    simp only [parseLines, hkv, hvalue, hlength]
    rfl
  unfold parseContentLength
  rw [fromUtf8_utf8]
  simp only [hsplit, hlines]

/-- The characters of a header, other than a line break. -/
def HeaderChar (c : Char) : Prop := c.toNat < 128 ∧ c.toNat ≠ 13

theorem headerChar_of_mem {n : Nat} {c : Char} (h : c ∈ header n) : HeaderChar c := by
  rcases mem_append.mp h with h | h
  · have hkey : ∀ c ∈ "Content-Length: ".toList, HeaderChar c := by
      simp [HeaderChar]
    exact hkey c h
  · have hd := digit_toNat h
    unfold HeaderChar
    omega

theorem utf8EncodeChar_headerChar {c : Char} (h : HeaderChar c) :
    String.utf8EncodeChar c = [c.val.toUInt8] := by
  apply String.utf8EncodeChar_eq_singleton
  rw [← String.length_utf8EncodeChar]
  exact charLen_of_lt h.1

theorem utf8_header (n : Nat) : utf8 (header n) = (header n).map (fun c => c.val.toUInt8) := by
  have hall : ∀ t : Text, (∀ c ∈ t, HeaderChar c) → utf8 t = t.map (fun c => c.val.toUInt8) := by
    intro t ht
    induction t with
    | nil => rfl
    | cons c t ih =>
      rw [utf8, List.flatMap_cons, utf8EncodeChar_headerChar (ht c (by simp))]
      change [c.val.toUInt8] ++ utf8 t = _
      rw [ih (fun c hc => ht c (by simp [hc]))]
      rfl
  exact hall _ (fun c hc => headerChar_of_mem hc)

theorem cr_not_mem_header (n : Nat) : 13 ∉ utf8 (header n) := by
  rw [utf8_header]
  intro h
  obtain ⟨c, hc, hcr⟩ := mem_map.mp h
  obtain ⟨hlt, hne⟩ := headerChar_of_mem hc
  have hval : c.toNat % 256 = 13 := congrArg UInt8.toNat hcr
  omega

/-- A header is short: the length of a body has at most eight digits. -/
theorem length_header {n : Nat} (hn : n ≤ maxFrameLen) : (utf8 (header n)).length ≤ 24 := by
  have hlt : n < 10 ^ 8 := Nat.lt_of_le_of_lt hn (by decide)
  have hdigits : (ofNat n).length ≤ 8 := by
    rw [ofNat, Nat.length_toDigits_le_iff (by decide) (by decide)]
    exact hlt
  rw [utf8_header, length_map]
  change ("Content-Length: ".toList ++ ofNat n).length ≤ 24
  rw [length_append]
  exact Nat.add_le_add_left hdigits 16

section Encoded

variable {limit : Nat} {body : Text}

/-- **An encoded message is read back**, whatever follows. -/
theorem next_encode (hlimit : limit ≤ maxFrameLen) (hbody : byteLen body ≤ limit) (w : Bytes) :
    next limit (encode body ++ w) = .item body w := by
  have hshort := length_header (Nat.le_trans hbody hlimit)
  set head := utf8 (header (byteLen body)) with hhead
  have hu : encode body ++ w = head ++ headerBreak ++ (utf8 body ++ w) := by
    rw [encode_eq, append_assoc]
  have hbreak : headerBreak.length = 4 := rfl
  have hend : headerEnd ((encode body ++ w).take maxHeaderBytes) = some head.length := by
    have hle : (head ++ headerBreak).length ≤ maxHeaderBytes := by
      rw [length_append, maxHeaderBytes]
      omega
    rw [hu, take_append, take_of_length_le hle]
    exact headerEnd_of_not_mem (cr_not_mem_header _) _
  have hparse : parseContentLength ((encode body ++ w).take head.length) limit =
    .ok (byteLen body) := by
    rw [hu, append_assoc, take_left]
    exact parseContentLength_header hbody hlimit
  have hdrop : (encode body ++ w).drop (head.length + 4) = utf8 body ++ w := by
    rw [hu]
    exact drop_left' (by rw [length_append, hbreak])
  have hrest : (encode body ++ w).drop (head.length + 4 + byteLen body) = w := by
    rw [← drop_drop, hdrop]
    exact drop_left' rfl
  have htake : (utf8 body ++ w).take (byteLen body) = utf8 body := take_left' rfl
  rw [next_of_header hend hparse, hdrop, hrest, htake, fromUtf8_utf8,
    if_neg (by rw [length_append, byteLen]; omega)]

/-- **A beginning of an encoded message is no message yet.** -/
theorem next_prefix_encode (hlimit : limit ≤ maxFrameLen) (hbody : byteLen body ≤ limit)
    {p q : Bytes} (h : encode body = p ++ q) (hq : q ≠ []) : next limit p = .more := by
  have hwhole := next_encode hlimit hbody []
  rw [append_nil, h] at hwhole
  cases hp : next limit p with
  | more => rfl
  | item x rest =>
    rw [(next_stable limit).item hp q, Next.item.injEq] at hwhole
    exact absurd (append_eq_nil_iff.mp hwhole.2).2 hq
  | fail e =>
    rw [(next_stable limit).fail hp q] at hwhole
    cases hwhole

/-- Reading a list of encoded messages: the messages, and then the end. -/
theorem readAll_encode (hlimit : limit ≤ maxFrameLen) {bodies : List Text}
    (hbodies : ∀ b ∈ bodies, byteLen b ≤ limit) (n : Nat) :
    readAll limit n (bodies.flatMap encode) =
      (bodies.map (fun b => Except.ok (some b)) ++ List.replicate n (Except.ok none)).take n := by
  induction bodies generalizing n with
  | nil =>
    cases n with
    | zero => rfl
    | succ n =>
      have hnil : next limit [] = .more := rfl
      rw [flatMap_nil, readAll, hnil]
      simp
  | cons b bodies ih =>
    cases n with
    | zero => rfl
    | succ n =>
      rw [List.flatMap_cons, readAll, next_encode hlimit (hbodies b (by simp))]
      simp only [map_cons, cons_append, take_succ_cons, List.cons.injEq, true_and]
      rw [ih (fun b hb => hbodies b (by simp [hb])) n, replicate_succ', ← append_assoc]
      exact (take_append_of_le_length (by simp)).symm

end Encoded

end Thegn.Lsp

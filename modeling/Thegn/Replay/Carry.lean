import Thegn.Lib.Boundary

set_option autoImplicit false

/-! # Decoding terminal output in chunks

`Utf8Carry` (`thegn-core/src/asciicast.rs`) decodes a byte stream that arrives in chunks of any
size. A chunk can end inside a character, so what may still become one is held back and put in
front of the next chunk. The chunks read one after the other give what the whole stream gives
(`decodeChunks_eq`): the decoder is never cut where a byte to come could change what it has read.
-/

namespace Thegn.Replay

open Text List

/-! ## The carry -/

structure Utf8Carry where
  buf : List UInt8
  deriving DecidableEq, Repr

/-- How many bytes the lead byte `b` asks for. -/
def expected (b : UInt8) : Nat := if 0xF0 ≤ b then 4 else if 0xE0 ≤ b then 3 else 2

/-- The loop over the trailing bytes, from the last one back: `back` bytes from the end stands the
first byte of the list. -/
def scanBack : Nat → List UInt8 → Nat
  | _, [] => 0
  | back, b :: rest =>
    if b < 0x80 then 0
    else if 0xC0 ≤ b then if back < expected b then back else 0
    else scanBack (back + 1) rest

/-- How many trailing bytes are the start of a sequence that is not complete yet. -/
def incompleteTailLen (buf : List UInt8) : Nat := scanBack 1 (buf.reverse.take (min 3 buf.length))

/-- Append a chunk; the decodable prefix comes out and the rest is held back. -/
def Utf8Carry.push (c : Utf8Carry) (bytes : List UInt8) : Text × Utf8Carry :=
  let buf := c.buf ++ bytes
  let split := buf.length - incompleteTailLen buf
  (if (buf.take split).isEmpty then [] else fromUtf8Lossy (buf.take split),
    { buf := buf.drop split })

/-- What is left at the end. -/
def Utf8Carry.flush (c : Utf8Carry) : Text × Utf8Carry :=
  if c.buf.isEmpty then ([], c) else (fromUtf8Lossy c.buf, { buf := [] })

/-- The chunks pushed one after the other: what came out, and the carry at the end. -/
def Utf8Carry.pushAll (c : Utf8Carry) : List (List UInt8) → Text × Utf8Carry
  | [] => ([], c)
  | chunk :: chunks =>
    let first := c.push chunk
    let rest := first.2.pushAll chunks
    (first.1 ++ rest.1, rest.2)

/-- A stream in chunks, decoded to the end. -/
def decodeChunks (chunks : List (List UInt8)) : Text :=
  let run := Utf8Carry.pushAll { buf := [] } chunks
  run.1 ++ run.2.flush.1

/-! ## What is held back -/

theorem expected_eq {b : UInt8} (h : 0xC0 ≤ b) : leadLen b = expected b := by
  have hb : 192 ≤ b.toNat := UInt8.le_iff_toNat_le.mp h
  simp only [leadLen, expected, UInt8.le_iff_toNat_le]
  split_ifs <;> simp_all <;> omega

theorem leadLen_of_lt {b : UInt8} (h : b.toNat < 192) : leadLen b = 1 := by
  rw [leadLen, if_pos h]

theorem leadLen_le (b : UInt8) : leadLen b ≤ 4 := by
  unfold leadLen
  split_ifs <;> omega

/-- A run of continuations at the end goes back at most to the last byte that is none. -/
theorem suffix_of_continuations {pre cs bs : List UInt8} {b b' : UInt8} (hb : ¬ Continuation b)
    (hbs : ∀ x ∈ bs, Continuation x) (h : b' :: bs <:+ pre ++ b :: cs) : b' :: bs <:+ b :: cs := by
  rcases suffix_or_suffix_of_suffix h (suffix_append pre (b :: cs)) with hle | hle
  · exact hle
  · obtain ⟨t, ht⟩ := hle
    cases t with
    | nil => rw [← ht, nil_append]
    | cons c t =>
      rw [cons_append] at ht
      have hmem : b ∈ bs := by
        rw [← (List.cons.inj ht).2]
        simp
      exact absurd (hbs b hmem) hb

/-- The scan stops where no character can go on, or before a lead byte that waits for more. The
continuations `cs` behind `pre` have been scanned already. -/
theorem scanBack_spec (m : Nat) :
    ∀ pre cs : List UInt8, (∀ x ∈ cs, Continuation x) →
      m + cs.length = min 3 (pre.length + cs.length) →
      (scanBack (cs.length + 1) (pre.reverse.take m) = 0 ∧ ∀ rest, Cuts (pre ++ cs) rest)
        ∨ ∃ head b bs, pre ++ cs = head ++ b :: bs ∧ ¬ Continuation b
          ∧ scanBack (cs.length + 1) (pre.reverse.take m) = bs.length + 1 ∧ bs.length + 1 ≤ 3 := by
  induction m with
  | zero =>
    intro pre cs hcs hm
    left
    refine ⟨rfl, fun rest b bs hsuffix hbs => ?_⟩
    left
    have hle := leadLen_le b
    by_cases hlong : 3 ≤ bs.length
    · omega
    · -- a short suffix lies among the scanned continuations
      have hin : b :: bs <:+ cs := by
        refine suffix_of_suffix_length_le hsuffix (suffix_append pre cs) ?_
        have hlen := hsuffix.length_le
        simp only [length_cons, length_append] at hlen ⊢
        omega
      have hb := hcs b (hin.subset (.head _))
      rw [leadLen_of_lt hb.2]
      omega
  | succ m ih =>
    intro pre cs hcs hm
    have hne : pre ≠ [] := by
      rintro rfl
      rw [length_nil] at hm
      omega
    obtain ⟨pre, b, rfl⟩ : ∃ p b, pre = p ++ [b] := ⟨_, _, (dropLast_append_getLast hne).symm⟩
    rw [reverse_append, reverse_cons, reverse_nil, nil_append,
      singleton_append, take_succ_cons, scanBack, append_assoc, singleton_append]
    -- after a byte that is no continuation, only that byte and the scanned ones matter
    have hcuts : ¬ Continuation b → leadLen b ≤ cs.length + 1 →
      ∀ rest, Cuts (pre ++ b :: cs) rest := by
      intro hb hlen rest b' bs hsuffix hbs
      left
      rcases suffix_cons_iff.mp (suffix_of_continuations hb hbs hsuffix) with heq | hin
      · obtain ⟨rfl, rfl⟩ := List.cons.inj heq
        exact hlen
      · have hb' := hcs b' (hin.subset (.head _))
        rw [leadLen_of_lt hb'.2]
        omega
    by_cases hascii : b < 0x80
    · rw [if_pos hascii]
      have hb : b.toNat < 128 := UInt8.lt_iff_toNat_lt.mp hascii
      left
      refine ⟨rfl, hcuts (fun h => ?_) ?_⟩
      · have := h.1
        omega
      · rw [leadLen_of_lt (by omega)]
        omega
    · rw [if_neg hascii]
      by_cases hlead : 0xC0 ≤ b
      · rw [if_pos hlead]
        have hb : ¬ Continuation b := by
          intro h
          have := h.2
          have hle : 192 ≤ b.toNat := UInt8.le_iff_toNat_le.mp hlead
          omega
        by_cases hwait : cs.length + 1 < expected b
        · rw [if_pos hwait]
          right
          refine ⟨pre, b, cs, rfl, hb, rfl, ?_⟩
          simp only [length_append, length_cons] at hm
          omega
        · rw [if_neg hwait]
          left
          exact ⟨rfl, hcuts hb (by rw [expected_eq hlead]; omega)⟩
      · rw [if_neg hlead]
        have hb : Continuation b := by
          have h1 : ¬ b.toNat < 128 := fun h => hascii (UInt8.lt_iff_toNat_lt.mpr h)
          have h2 : ¬ 192 ≤ b.toNat := fun h => hlead (UInt8.le_iff_toNat_le.mpr h)
          unfold Continuation
          omega
        refine ih pre (b :: cs) ?_ ?_
        · intro x hx
          rcases mem_cons.mp hx with rfl | hx
          · exact hb
          · exact hcs x hx
        · simp only [length_append, length_cons, length_nil] at hm ⊢
          omega

/-- What `push` decodes and what it holds back: at most three bytes, and the decoder reads the
two parts as it reads them together, whatever comes after. -/
theorem push_spec (c : Utf8Carry) (bytes : List UInt8) :
    (c.push bytes).2.buf.length ≤ 3
      ∧ ∀ rest, (c.push bytes).1 ++ fromUtf8Lossy ((c.push bytes).2.buf ++ rest)
        = fromUtf8Lossy (c.buf ++ bytes ++ rest) := by
  set buf := c.buf ++ bytes with hbuf
  have hpush : c.push bytes = (fromUtf8Lossy (buf.take (buf.length - incompleteTailLen buf)),
      { buf := buf.drop (buf.length - incompleteTailLen buf) }) := by
    unfold Utf8Carry.push
    dsimp only
    rw [← hbuf]
    congr 1
    split_ifs with hempty
    · rw [List.isEmpty_iff.mp hempty, fromUtf8Lossy]
    · rfl
  rw [hpush]
  dsimp only
  have hspec := scanBack_spec (min 3 buf.length) buf [] (by simp) (by simp)
  rw [append_nil] at hspec
  rcases hspec with ⟨hzero, hcuts⟩ | ⟨head, b, bs, hsplit, hb, hlen, hthree⟩
  · have hkeep : incompleteTailLen buf = 0 := hzero
    rw [hkeep, Nat.sub_zero, take_length, drop_length]
    refine ⟨by simp, fun rest => ?_⟩
    rw [nil_append, fromUtf8Lossy_append (hcuts rest)]
  · have hkeep : incompleteTailLen buf = bs.length + 1 := hlen
    have hcut : buf.length - (bs.length + 1) = head.length := by
      rw [hsplit, length_append, length_cons]
      omega
    rw [hkeep, hcut, hsplit, take_left, drop_left]
    refine ⟨hthree, fun rest => ?_⟩
    rw [append_assoc]
    refine (fromUtf8Lossy_append ?_).symm
    intro b' bs' _ _
    right
    intro r hr
    rw [cons_append, List.head?_cons, Option.some.injEq] at hr
    rwa [← hr]

/-! ## The whole stream -/

theorem pushAll_spec (chunks : List (List UInt8)) : ∀ c : Utf8Carry,
    (c.pushAll chunks).1 ++ fromUtf8Lossy (c.pushAll chunks).2.buf
      = fromUtf8Lossy (c.buf ++ chunks.flatten) := by
  induction chunks with
  | nil =>
    intro c
    rw [flatten_nil, append_nil]
    rfl
  | cons chunk chunks ih =>
    intro c
    rw [Utf8Carry.pushAll, flatten_cons]
    dsimp only
    rw [append_assoc, ih, (push_spec c chunk).2, append_assoc]

theorem pushAll_held (chunks : List (List UInt8)) : ∀ {c : Utf8Carry}, c.buf.length ≤ 3 →
    (c.pushAll chunks).2.buf.length ≤ 3 := by
  induction chunks with
  | nil => exact fun h => h
  | cons chunk chunks ih => exact fun _ => ih (push_spec _ chunk).1

theorem flush_eq (c : Utf8Carry) : c.flush.1 = fromUtf8Lossy c.buf := by
  unfold Utf8Carry.flush
  split_ifs with h
  · rw [List.isEmpty_iff.mp h, fromUtf8Lossy]
  · rfl

/-- **However a stream is cut into chunks, it is decoded as it is in one piece**, and after every
chunk at most three bytes are held back. -/
theorem decodeChunks_eq (chunks : List (List UInt8)) :
    decodeChunks chunks = fromUtf8Lossy chunks.flatten
      ∧ ∀ n, (Utf8Carry.pushAll { buf := [] } (chunks.take n)).2.buf.length ≤ 3 := by
  constructor
  · unfold decodeChunks
    dsimp only
    rw [flush_eq, pushAll_spec, nil_append]
  · intro n
    exact pushAll_held _ (by simp)

end Thegn.Replay

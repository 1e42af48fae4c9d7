import Thegn.Lsp.Spec

set_option autoImplicit false

/-! # The decoder and the stream

`Holds limit d u` says that the decoder `d` holds the bytes `u` not yet consumed, and that what it
remembers of an earlier search is true of them. A decoder that holds `u` answers what `next` says of
`u` (`nextMessage_answers`). It takes one more piece exactly when it is not `Tight` for it: it then
holds the piece behind `u` (`push_of_not_tight`), and otherwise it fails (`push_of_tight`).
-/

namespace Thegn.Lsp

open Incremental Text FrameDecoder List

structure Holds (limit : Nat) (d : FrameDecoder) (u : Bytes) : Prop where
  limit_eq : d.maxFrameLen = limit
  healthy : d.error = none
  head_le : d.head ≤ d.buf.length
  unread_eq : d.buf.drop d.head = u
  head_le_scan : d.head ≤ d.scan
  searched : ∀ m, d.head + m < d.scan → m + 4 ≤ u.length ∧ ¬ headerBreak <+: u.drop m
  body_known : ∀ start len, d.body = some (start, len) →
    ∃ n, start = d.head + n + 4 ∧ headerEnd (u.take maxHeaderBytes) = some n
      ∧ parseContentLength (u.take n) limit = .ok len
  fits : d.buf.length ≤ d.maxBufferBytes

section Holds

variable {limit : Nat} {d : FrameDecoder} {u : Bytes}

theorem holds_withLimit (h : limit ≤ maxFrameLen) :
    Holds limit (FrameDecoder.withLimit limit) [] where
  limit_eq := Nat.min_eq_left h
  healthy := rfl
  head_le := Nat.le_refl 0
  unread_eq := rfl
  head_le_scan := Nat.le_refl 0
  searched := fun m hm => absurd hm (Nat.not_lt_zero _)
  body_known := fun _ _ hb => by cases hb
  fits := Nat.zero_le _

theorem Holds.length_eq (h : Holds limit d u) : d.buf.length = d.head + u.length := by
  have hle := h.head_le
  rw [← h.unread_eq, length_drop]
  omega

theorem Holds.unread (h : Holds limit d u) : d.unread = u.length := by
  rw [FrameDecoder.unread, h.length_eq]
  omega

/-- Moving the unread bytes to the front of the buffer loses nothing. -/
theorem Holds.compact (h : Holds limit d u) : Holds limit d.compact u := by
  unfold FrameDecoder.compact
  by_cases hhead : d.head = 0
  · rw [if_pos hhead]
    exact h
  · rw [if_neg hhead]
    refine ⟨h.limit_eq, h.healthy, Nat.zero_le _, h.unread_eq, Nat.zero_le _, ?_, ?_, ?_⟩
    · intro m hm
      exact h.searched m (by simp only at hm; omega)
    · intro start len hbody
      obtain ⟨⟨start', len'⟩, hb, heq⟩ := Option.map_eq_some_iff.mp hbody
      simp only [Prod.mk.injEq] at heq
      obtain ⟨n, hn, hend, hparse⟩ := h.body_known start' len' hb
      exact ⟨n, by simp only; omega, hend, heq.2 ▸ hparse⟩
    · exact Nat.le_trans (by simp) h.fits

theorem compact_head (d : FrameDecoder) : d.compact.head = 0 := by
  unfold FrameDecoder.compact
  split
  · assumption
  · rfl

/-- What is left of the buffer behind a message. -/
theorem Holds.consume (h : Holds limit d u) {stop : Nat} (hstop : stop ≤ d.buf.length) :
    Holds limit (d.consume stop) (d.buf.drop stop) := by
  have hbase : Holds limit { d with
    head := stop, scan := stop, body := none } (d.buf.drop stop) := by
    refine ⟨h.limit_eq, h.healthy, hstop, rfl, le_rfl, ?_, ?_, h.fits⟩
    · intro m hm
      simp only at hm
      omega
    · intro start len hb
      cases hb
  simp only [FrameDecoder.consume]
  split
  · rename_i hall
    refine ⟨h.limit_eq, h.healthy, Nat.le_refl 0, ?_, Nat.le_refl 0, ?_, ?_, Nat.zero_le _⟩
    · rw [hall, drop_length]
      rfl
    · intro m hm
      simp only at hm
      omega
    · intro start len hb
      cases hb
  · split
    · exact hbase.compact
    · exact hbase

end Holds

/-! ## The next message -/

/-- What a decoder that holds `u` answers, where `next` says `found` of `u`. -/
def Answers (limit : Nat) (d : FrameDecoder) (u : Bytes)
    (answer : FrameDecoder × Except ProtocolError (Option Text)) :
    Next UInt8 Text ProtocolError → Prop
  | .more => ∃ d', answer = (d', .ok none) ∧ Holds limit d' u ∧ d'.buf = d.buf ∧ d'.head = d.head
  | .item body rest => ∃ d', answer = (d', .ok (some body)) ∧ Holds limit d' rest
      ∧ ∃ d0 : FrameDecoder, d' = d0.consume (d.buf.length - rest.length) ∧ d0.buf = d.buf
  | .fail e => ∃ d', answer = (d', .error e) ∧ d'.error = some e

section Next

variable {limit : Nat} {d : FrameDecoder} {u : Bytes}

theorem takeBody_answers (h : Holds limit d u) {start len : Nat} (hb : d.body = some (start, len)) :
    Answers limit d u (d.takeBody start len) (next limit u) := by
  obtain ⟨n, hstart, hend, hparse⟩ := h.body_known start len hb
  have hlen := (headerEnd_take_length hend).2
  have hbuf := h.length_eq
  have hdrop : d.buf.drop start = u.drop (n + 4) := by
    rw [← h.unread_eq, drop_drop, hstart, Nat.add_assoc]
  rw [next_of_header hend hparse]
  unfold takeBody
  by_cases hshort : d.buf.length - start < len
  · rw [if_pos hshort, if_pos (by rw [length_drop]; omega)]
    exact ⟨d, rfl, h, rfl, rfl⟩
  · rw [if_neg hshort, if_neg (by rw [length_drop]; omega), hdrop]
    cases hbody : fromUtf8 ((u.drop (n + 4)).take len) with
    | none => exact ⟨_, rfl, rfl⟩
    | some body =>
      have hrest : d.buf.drop (start + len) = u.drop (n + 4 + len) := by
        rw [← drop_drop, hdrop, drop_drop]
      refine ⟨_, rfl, ?_, d, ?_, rfl⟩
      · rw [← hrest]
        exact h.consume (by omega)
      · rw [length_drop]
        congr 1
        omega

/-- An empty line at `scan` is one of the unread bytes. -/
theorem Holds.break_at_iff (h : Holds limit d u) {m : Nat} (hm : d.head + m = d.scan) :
    headerBreak <+: u.drop m ↔ (d.buf.drop d.scan).take 4 = headerBreak := by
  rw [← h.unread_eq, drop_drop, hm, prefix_iff_eq_take]
  exact eq_comm

/-- The first empty line is the one the search stops at. -/
theorem Holds.headerEnd_at_scan (h : Holds limit d u)
    (hlong : ¬ maxHeaderBytes < d.scan + 4 - d.head)
    (hat : (d.buf.drop d.scan).take 4 = headerBreak) :
    headerEnd (u.take maxHeaderBytes) = some (d.scan - d.head) := by
  have hscan := h.head_le_scan
  rw [headerEnd_eq_some, prefix_drop_take (by omega), h.break_at_iff (by omega)]
  refine ⟨hat, ?_⟩
  intro m hm
  rw [prefix_drop_take (by omega)]
  exact (h.searched m (by omega)).2

/-- What the search for the end of the header finds. -/
theorem scanHeader_answers (h : Holds limit d u) (hb : d.body = none) :
    (∃ e, d.scanHeader = .error e ∧ next limit u = .fail e) ∨
    (∃ d', d.scanHeader = .ok d' ∧ Holds limit d' u ∧ d'.buf = d.buf ∧ d'.head = d.head
      ∧ (d'.body = none → headerEnd (u.take maxHeaderBytes) = none)) := by
  -- along the loop: a place without an empty line stays searched
  fun_induction FrameDecoder.scanHeader d with
  | case1 d hroom hlong =>
    refine .inl ⟨_, rfl, ?_⟩
    have hnone : headerEnd (u.take maxHeaderBytes) = none := by
      rw [headerEnd_eq_none]
      intro m hp
      have hm := length_of_prefix_drop hp
      rw [length_take] at hm
      exact (h.searched m (by omega)).2 ((prefix_drop_take (by omega)).mp hp)
    rw [next_of_no_header hnone, if_pos (by have := h.length_eq; omega)]
  | case2 d hroom hlong hat e hparse =>
    refine .inl ⟨_, rfl, ?_⟩
    rw [h.unread_eq, h.limit_eq] at hparse
    exact next_of_bad_header (h.headerEnd_at_scan hlong hat) hparse
  | case3 d hroom hlong hat len hparse =>
    refine .inr ⟨_, rfl, ?_, rfl, rfl, ?_⟩
    · rw [h.unread_eq, h.limit_eq] at hparse
      refine ⟨h.limit_eq, h.healthy, h.head_le, h.unread_eq, h.head_le_scan, h.searched, ?_, h.fits⟩
      intro start len' hbody
      cases hbody
      have hscan := h.head_le_scan
      exact ⟨d.scan - d.head, by simp only; omega, h.headerEnd_at_scan hlong hat, hparse⟩
    · intro hbody
      cases hbody
  | case4 d hroom hlong hat ih =>
    refine ih ⟨h.limit_eq, h.healthy, h.head_le, h.unread_eq, ?_, ?_, h.body_known, h.fits⟩ hb
    · exact Nat.le_succ_of_le h.head_le_scan
    · intro m hm
      by_cases hlt : d.head + m < d.scan
      · exact h.searched m hlt
      · have hscan : d.head + m = d.scan := by
          simp only at hm
          omega
        have hlen := h.length_eq
        refine ⟨by omega, ?_⟩
        rw [h.break_at_iff hscan]
        exact hat
  | case5 d hroom =>
    refine .inr ⟨d, rfl, h, rfl, rfl, ?_⟩
    intro _
    rw [headerEnd_eq_none]
    intro m hp
    have hm := length_of_prefix_drop hp
    rw [length_take] at hm
    have hlen := h.length_eq
    exact (h.searched m (by omega)).2 ((prefix_drop_take (by omega)).mp hp)

/-- **The decoder answers what stands at the left of the bytes it holds.** -/
theorem nextMessage_answers (h : Holds limit d u) :
    Answers limit d u d.nextMessage (next limit u) := by
  unfold nextMessage
  simp only [h.healthy]
  cases hb : d.body with
  | some known => exact takeBody_answers h hb
  | none =>
    rcases scanHeader_answers h hb with ⟨e, hscan, hnext⟩ | ⟨d', hscan, h', hbuf, hhead, hnone⟩
    · simp only [hscan, hnext]
      exact ⟨_, rfl, rfl⟩
    · simp only [hscan]
      cases hb' : d'.body with
      | some known =>
        have hanswers := takeBody_answers h' hb'
        unfold Answers at hanswers ⊢
        rw [hbuf, hhead] at hanswers
        exact hanswers
      | none =>
        rw [next_of_no_header (hnone hb')]
        simp only [h'.unread]
        split
        · exact ⟨_, rfl, rfl⟩
        · exact ⟨d', rfl, h', hbuf, hhead⟩

theorem length_consume_le (d : FrameDecoder) (stop : Nat) :
    (d.consume stop).buf.length ≤ d.buf.length := by
  unfold consume
  dsimp only
  split
  · exact Nat.zero_le _
  · split
    · unfold compact
      split <;> simp
    · exact le_rfl

/-- A message consumed, or nothing found, leaves the decoder with what is left and no longer
buffer. -/
theorem nextMessage_ok {d' : FrameDecoder} {answer : Option Text} (h : Holds limit d u)
    (hnext : d.nextMessage = (d', .ok answer)) :
    ∃ rest, Holds limit d' rest ∧ (answer = none → next limit u = .more ∧ rest = u) ∧
      d'.buf.length ≤ d.buf.length := by
  have hanswers := nextMessage_answers h
  rw [hnext] at hanswers
  cases hu : next limit u with
  | more =>
    rw [hu] at hanswers
    obtain ⟨_, heq, h', hbuf, -⟩ := hanswers
    cases heq
    exact ⟨u, h', fun _ => ⟨rfl, rfl⟩, Nat.le_of_eq (congrArg List.length hbuf)⟩
  | item body rest =>
    rw [hu] at hanswers
    obtain ⟨_, heq, h', d0, rfl, hbuf⟩ := hanswers
    cases heq
    exact ⟨rest, h', nofun, hbuf ▸ length_consume_le d0 _⟩
  | fail e =>
    rw [hu] at hanswers
    obtain ⟨_, heq, -⟩ := hanswers
    cases heq

theorem holds_of_none {d' : FrameDecoder} (h : Holds limit d u)
    (hnext : d.nextMessage = (d', .ok none)) : next limit u = .more ∧ Holds limit d' u := by
  obtain ⟨_, h', hmore, -⟩ := nextMessage_ok h hnext
  obtain ⟨hmore, rfl⟩ := hmore rfl
  exact ⟨hmore, h'⟩

end Next

/-! ## One more piece -/

/-- The buffer has no room for the piece behind its last byte, and fewer bytes were consumed than
are unread, so that they are not dropped. -/
def Tight (d : FrameDecoder) (chunk : Bytes) : Prop :=
  d.head < d.unread ∧ d.maxBufferBytes < d.buf.length + chunk.length

instance (d : FrameDecoder) (chunk : Bytes) : Decidable (Tight d chunk) :=
  inferInstanceAs (Decidable (_ ∧ _))

section Push

variable {limit : Nat} {d : FrameDecoder} {u chunk : Bytes}

/-- What is remembered of an earlier search stays true when a piece arrives. -/
theorem Holds.append (h : Holds limit d u)
    (hroom : d.buf.length + chunk.length ≤ d.maxBufferBytes) :
    Holds limit { d with buf := d.buf ++ chunk } (u ++ chunk) := by
  have hlen := h.length_eq
  refine ⟨h.limit_eq, h.healthy, ?_, ?_, h.head_le_scan, ?_, ?_, ?_⟩
  · simp only [length_append]
    omega
  · simp only
    rw [drop_append_of_le_length h.head_le, h.unread_eq]
  · intro m hm
    obtain ⟨hle, hno⟩ := h.searched m hm
    refine ⟨by rw [length_append]; omega, ?_⟩
    rw [prefix_drop_append hle]
    exact hno
  · intro start len hb
    obtain ⟨n, hstart, hend, hparse⟩ := h.body_known start len hb
    have hn := (headerEnd_take_length hend).2
    refine ⟨n, hstart, headerEnd_take_append hend chunk, ?_⟩
    rw [take_append_of_le_length (by omega)]
    exact hparse
  · rw [length_append]
    exact hroom

/-- The unread bytes leave room for a piece, as no whole message is among them. -/
theorem Holds.room (h : Holds limit d u) (hmore : next limit u = .more)
    (hchunk : chunk.length ≤ readBytes) : d.unread + chunk.length ≤ d.maxBufferBytes := by
  have hlt := length_of_next_more hmore
  rw [h.unread, maxBufferBytes, h.limit_eq]
  omega

/-- A decoder that is tight for a piece fails on it. -/
theorem push_of_tight (h : Holds limit d u) (ht : Tight d chunk) :
    d.push chunk = (d.failed .bufferTooLong, .error .bufferTooLong) := by
  unfold push
  simp only [h.healthy]
  split
  · rfl
  · rw [if_pos (by have := ht.2; have := h.fits; omega), if_pos ht.1]
    rfl

/-- A decoder that is not tight for a piece holds it behind the bytes it held. -/
theorem push_of_not_tight (h : Holds limit d u) (hmore : next limit u = .more)
    (hchunk : chunk.length ≤ readBytes) (ht : ¬ Tight d chunk) :
    ∃ d', d.push chunk = (d', .ok ()) ∧ Holds limit d' (u ++ chunk)
      ∧ (d.buf.length + chunk.length ≤ d.maxBufferBytes →
          d'.buf = d.buf ++ chunk ∧ d'.head = d.head ∧ d'.maxFrameLen = d.maxFrameLen) := by
  have hroom := h.room hmore hchunk
  have hfits := h.fits
  unfold push
  simp only [h.healthy]
  rw [if_neg (by omega)]
  split
  · rename_i hfull
    have hhead : ¬ d.head < d.unread := fun hlt => ht ⟨hlt, by omega⟩
    have hlen : d.compact.buf.length = d.unread := by
      rw [h.compact.length_eq, compact_head, h.unread, Nat.zero_add]
    have hcap : d.compact.maxBufferBytes = d.maxBufferBytes := by
      rw [maxBufferBytes, maxBufferBytes, h.compact.limit_eq, h.limit_eq]
    rw [if_neg hhead]
    exact ⟨_, rfl, h.compact.append (by rw [hlen, hcap]; exact hroom), fun hle => by omega⟩
  · rename_i hroom'
    have happend := h.append (show d.buf.length + chunk.length ≤ d.maxBufferBytes by omega)
    simp only [h.healthy] at happend
    exact ⟨_, rfl, happend, fun _ => ⟨rfl, rfl, rfl⟩⟩

end Push

end Thegn.Lsp

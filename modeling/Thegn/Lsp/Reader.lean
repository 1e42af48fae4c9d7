import Thegn.Lsp.Decoder

set_option autoImplicit false

/-! # Reading messages from a stream in pieces

The calls of `read_message` return what reading the whole stream from the left gives, as long as no
piece is read into a decoder that is `Tight` for it (`calls_eq_readAll`); after such a piece a call
returns `bufferTooLong`, which the stream itself never calls for (`readAll_ne_bufferTooLong`).
-/

namespace Thegn.Lsp

open Incremental Text FrameDecoder FramedReader List

/-! ## The pieces of a stream -/

/-- The bytes a reader returns. -/
def stream (events : List ReadEvent) : Bytes :=
  events.flatMap fun
    | .bytes chunk => chunk
    | .interrupted => []
    | .failed => []

/-- A read that returns a piece of the stream, or is interrupted before. -/
def ReadEvent.Piece : ReadEvent → Prop
  | .bytes chunk => 0 < chunk.length ∧ chunk.length ≤ readBytes
  | .interrupted => True
  | .failed => False

@[simp] theorem stream_interrupted (events : List ReadEvent) :
    stream (.interrupted :: events) = stream events := rfl

@[simp] theorem stream_bytes (chunk : Bytes) (events : List ReadEvent) :
    stream (.bytes chunk :: events) = chunk ++ stream events := rfl

/-- Reading on from the decoder `d`, the piece `chunk` is read when the decoder is `x`. -/
inductive Meets : FrameDecoder → List ReadEvent → FrameDecoder → Bytes → Prop
  | here {d x : FrameDecoder} {chunk : Bytes} {events : List ReadEvent} :
      d.nextMessage = (x, .ok none) → Meets d (.bytes chunk :: events) x chunk
  | message {d d' x : FrameDecoder} {body : Text} {chunk : Bytes} {events : List ReadEvent} :
      d.nextMessage = (d', .ok (some body)) → Meets d' events x chunk → Meets d events x chunk
  | interrupted {d d' x : FrameDecoder} {chunk : Bytes} {events : List ReadEvent} :
      d.nextMessage = (d', .ok none) → Meets d' events x chunk →
        Meets d (.interrupted :: events) x chunk
  | later {d d' d'' x : FrameDecoder} {piece chunk : Bytes} {events : List ReadEvent} :
      d.nextMessage = (d', .ok none) → d'.push piece = (d'', .ok ()) → Meets d'' events x chunk →
        Meets d (.bytes piece :: events) x chunk

/-- No piece is read into a decoder that is tight for it. -/
def NeverTight (d : FrameDecoder) (events : List ReadEvent) : Prop :=
  ∀ x chunk, Meets d events x chunk → ¬ Tight x chunk

/-! ## One turn of the loop -/

section Turn

variable {d d' d'' : FrameDecoder} {t : Nat} {events : List ReadEvent} {chunk : Bytes}

/-- The count of frames at the start of the loop. -/
def turn (t : Nat) : Nat := if t = framesPerTurn then 0 else t

theorem turn_turn (t : Nat) : turn (turn t) = turn t := by
  unfold turn framesPerTurn
  split <;> simp_all

theorem readMessage_eq (r : FramedReader) :
    r.readMessage = readLoop r.decoder (turn r.turnFrames) r.reader :=
  rfl

theorem readMessage_error {e : ProtocolError} (h : d.nextMessage = (d', .error e)) :
    readMessage ⟨events, d, t⟩ = (⟨events, d', turn t⟩, .error (.protocol e)) := by
  rw [readMessage_eq, readLoop]
  simp only [h]

theorem readMessage_message {body : Text} (h : d.nextMessage = (d', .ok (some body))) :
    readMessage ⟨events, d, t⟩ = (⟨events, d', turn t + 1⟩, .ok (some body)) := by
  rw [readMessage_eq, readLoop]
  simp only [h]

theorem readMessage_end (h : d.nextMessage = (d', .ok none)) :
    readMessage ⟨[], d, t⟩ = readEnd d' [] := by
  rw [readMessage_eq, readLoop]
  simp only [h]

theorem readMessage_interrupted (h : d.nextMessage = (d', .ok none)) :
    readMessage ⟨.interrupted :: events, d, t⟩ = readMessage ⟨events, d', turn t⟩ := by
  rw [readMessage_eq, readLoop, readMessage_eq]
  simp only [h, turn_turn]

theorem readMessage_bytes (h : d.nextMessage = (d', .ok none)) (hchunk : 0 < chunk.length)
    (hpush : d'.push chunk = (d'', .ok ())) :
    readMessage ⟨.bytes chunk :: events, d, t⟩ = readMessage ⟨events, d'', 0⟩ := by
  rw [readMessage_eq, readLoop, readMessage_eq]
  simp only [h, hpush]
  rw [if_neg (ne_nil_of_length_pos hchunk)]
  rfl

theorem readMessage_bytes_error {e : ProtocolError} (h : d.nextMessage = (d', .ok none))
    (hchunk : 0 < chunk.length) (hpush : d'.push chunk = (d'', .error e)) :
    readMessage ⟨.bytes chunk :: events, d, t⟩ = (⟨events, d'', 0⟩, .error (.protocol e)) := by
  rw [readMessage_eq, readLoop]
  simp only [h, hpush]
  rw [if_neg (ne_nil_of_length_pos hchunk)]

theorem calls_of_readMessage_eq {r r' : FramedReader} (h : r.readMessage = r'.readMessage)
    (n : Nat) : calls (n + 1) r = calls (n + 1) r' := by
  rw [calls, calls, h]

/-- An error of the decoder stays. -/
theorem calls_of_error {e : ProtocolError} (h : d.error = some e) (n t : Nat) :
    calls n ⟨events, d, t⟩ = List.replicate n (.error (.protocol e)) := by
  have hnext : d.nextMessage = (d, .error e) := by
    unfold nextMessage
    rw [h]
  induction n generalizing t with
  | zero => rfl
  | succ n ih =>
    rw [calls, readMessage_error hnext, ih, replicate_succ]

/-- The end of a stream stays. -/
theorem calls_of_end {limit : Nat} (h : Holds limit d []) (n t : Nat) :
    calls n ⟨[], d, t⟩ = List.replicate n (.ok none) := by
  induction n generalizing d t with
  | zero => rfl
  | succ n ih =>
    obtain ⟨d', hnext, h', -, -⟩ := nextMessage_answers h
    have hfinish : d'.finish = (d', .ok ()) := by
      unfold finish
      rw [h'.healthy, if_neg (by simp [h'.length_eq])]
    rw [calls, readMessage_end hnext, readEnd, hfinish]
    simp only
    rw [ih h', replicate_succ]

end Turn

/-! ## Whole streams -/

section Stream

variable {limit : Nat}

/-- A call that finds a message or an error in what is held already. -/
theorem calls_of_found {d : FrameDecoder} {u : Bytes} {events : List ReadEvent} {n t : Nat}
    (h : Holds limit d u) (hnever : NeverTight d events) (hfound : next limit u ≠ .more)
    (ih : ∀ {d' rest t'}, Holds limit d' rest → NeverTight d' events →
      calls n ⟨events, d', t'⟩ = readAll limit n (rest ++ stream events)) :
    calls (n + 1) ⟨events, d, t⟩ = readAll limit (n + 1) (u ++ stream events) := by
  have hanswers := nextMessage_answers h
  rw [calls, readAll]
  cases hu : next limit u with
  | more => exact absurd hu hfound
  | item body rest =>
    rw [hu] at hanswers
    obtain ⟨d', hnext, h', -⟩ := hanswers
    rw [(next_stable limit).item hu, readMessage_message hnext]
    simp only
    rw [ih h' (fun x chunk hm => hnever x chunk (.message hnext hm))]
  | fail e =>
    rw [hu] at hanswers
    obtain ⟨d', hnext, herr⟩ := hanswers
    rw [(next_stable limit).fail hu, readMessage_error hnext]
    simp only
    rw [calls_of_error herr, replicate_succ]

/-- A call at the end of the stream, with no whole message held. -/
theorem calls_of_more_end {d : FrameDecoder} {u : Bytes} (h : Holds limit d u)
    (hmore : next limit u = .more) (n t : Nat) :
    calls (n + 1) ⟨[], d, t⟩ = readAll limit (n + 1) u := by
  have hanswers := nextMessage_answers h
  rw [hmore] at hanswers
  obtain ⟨d', hnext, h', -, -⟩ := hanswers
  rw [readAll, hmore]
  simp only
  by_cases hnil : u = []
  · subst hnil
    rw [if_pos rfl]
    exact calls_of_end h (n + 1) t
  · have hpos := length_pos_iff.mpr hnil
    have hfinish : d'.finish = (d'.failed .truncatedFrame, .error .truncatedFrame) := by
      unfold finish
      rw [h'.healthy, if_pos (by have := h'.length_eq; omega)]
      rfl
    rw [if_neg hnil, calls, readMessage_end hnext, readEnd, hfinish]
    simp only
    rw [calls_of_error rfl, replicate_succ]

/-- **Without a tight piece, the calls return what the stream holds.** -/
theorem calls_eq_readAll {d : FrameDecoder} {u : Bytes} {events : List ReadEvent}
    (h : Holds limit d u)
    (hpieces : ∀ e ∈ events, e.Piece) (hnever : NeverTight d events) (n t : Nat) :
    calls n ⟨events, d, t⟩ = readAll limit n (u ++ stream events) := by
  induction n generalizing d u events t with
  | zero => rfl
  | succ n ihn =>
    -- along the pieces, as long as what is held has no whole message
    induction events generalizing d u t with
    | nil =>
      by_cases hmore : next limit u = .more
      · rw [show u ++ stream [] = u from append_nil u]
        exact calls_of_more_end h hmore n t
      · exact calls_of_found h hnever hmore (fun h' hn => ihn h' hpieces hn _)
    | cons event events ih =>
      by_cases hmore : next limit u = .more
      · have hanswers := nextMessage_answers h
        rw [hmore] at hanswers
        obtain ⟨d', hnext, h', -, -⟩ := hanswers
        have hpieces' : ∀ e ∈ events, e.Piece := fun e he => hpieces e (.tail _ he)
        have hpiece := hpieces event (.head _)
        cases event with
        | interrupted =>
          rw [calls_of_readMessage_eq (readMessage_interrupted hnext), stream_interrupted]
          exact ih h' hpieces' (fun x chunk hm => hnever x chunk (.interrupted hnext hm)) _
        | failed => exact absurd hpiece id
        | bytes chunk =>
          obtain ⟨d'', hpush, h'', -⟩ :=
            push_of_not_tight h' hmore hpiece.2 (hnever d' chunk (.here hnext))
          rw [calls_of_readMessage_eq (readMessage_bytes hnext hpiece.1 hpush), stream_bytes,
            ← append_assoc]
          exact ih h'' hpieces' (fun x c hm => hnever x c (.later hnext hpush hm)) _
      · exact calls_of_found h hnever hmore (fun h' hn => ihn h' hpieces hn _)

/-- A tight piece makes a call fail. -/
theorem bufferTooLong_of_tight {d x : FrameDecoder} {u chunk : Bytes} {events : List ReadEvent}
    (h : Holds limit d u) (hpieces : ∀ e ∈ events, e.Piece) (hm : Meets d events x chunk)
    (ht : Tight x chunk) (t : Nat) :
    ∃ n, .error (.protocol .bufferTooLong) ∈ calls (n + 1) ⟨events, d, t⟩ := by
  induction hm generalizing u t with
  | @here d x chunk events hnext =>
    have hpiece : ReadEvent.Piece (.bytes chunk) := hpieces _ (.head _)
    obtain ⟨-, hx⟩ := holds_of_none h hnext
    refine ⟨0, ?_⟩
    rw [calls, readMessage_bytes_error hnext hpiece.1 (push_of_tight hx ht)]
    exact .head _
  | message hnext _ ih =>
    obtain ⟨_, h', -⟩ := nextMessage_ok h hnext
    obtain ⟨n, hn⟩ := ih h' hpieces ht (turn t + 1)
    refine ⟨n + 1, ?_⟩
    rw [calls, readMessage_message hnext]
    exact .tail _ hn
  | interrupted hnext _ ih =>
    obtain ⟨-, h'⟩ := holds_of_none h hnext
    obtain ⟨n, hn⟩ := ih h' (fun e he => hpieces e (.tail _ he)) ht (turn t)
    exact ⟨n, by rw [calls_of_readMessage_eq (readMessage_interrupted hnext)]; exact hn⟩
  | @later d d' d'' x piece chunk events hnext hpush _ ih =>
    have hpiece : ReadEvent.Piece (.bytes piece) := hpieces _ (.head _)
    obtain ⟨hmore, h'⟩ := holds_of_none h hnext
    have hroom : ¬ Tight d' piece := by
      intro hpiece'
      rw [push_of_tight h' hpiece'] at hpush
      cases hpush
    obtain ⟨d1, hpush', h'', -⟩ := push_of_not_tight h' hmore hpiece.2 hroom
    rw [hpush] at hpush'
    cases hpush'
    obtain ⟨n, hn⟩ := ih h'' (fun e he => hpieces e (.tail _ he)) ht 0
    exact ⟨n, by rw [calls_of_readMessage_eq (readMessage_bytes hnext hpiece.1 hpush)]; exact hn⟩

/-- Reading the whole stream from the left never runs out of room. -/
theorem readAll_ne_bufferTooLong (n : Nat) (u : Bytes) :
    .error (.protocol .bufferTooLong) ∉ readAll limit n u := by
  induction n generalizing u with
  | zero => exact not_mem_nil
  | succ n ih =>
    rw [readAll]
    cases hu : next limit u with
    | item body rest =>
      intro hmem
      rcases mem_cons.mp hmem with heq | hmem
      · cases heq
      · exact ih rest hmem
    | fail e =>
      intro hmem
      cases eq_of_mem_replicate hmem
      exact next_ne_bufferTooLong hu
    | more =>
      intro hmem
      simp only at hmem
      split at hmem <;> cases eq_of_mem_replicate hmem

/-- **The calls return what the stream holds exactly when no piece is tight.** -/
theorem calls_eq_readAll_iff (hlimit : limit ≤ maxFrameLen) {events : List ReadEvent}
    (hpieces : ∀ e ∈ events, e.Piece) :
    (∀ n, calls n (FramedReader.withLimit events limit) = readAll limit n (stream events)) ↔
      NeverTight (FrameDecoder.withLimit limit) events := by
  have hstart := holds_withLimit hlimit
  constructor
  · intro hall x chunk hm ht
    obtain ⟨n, hn⟩ := bufferTooLong_of_tight hstart hpieces hm ht 0
    have hcalls : calls (n + 1) ⟨events, FrameDecoder.withLimit limit, 0⟩ =
      readAll limit (n + 1) (stream events) := hall (n + 1)
    rw [hcalls] at hn
    exact readAll_ne_bufferTooLong _ _ hn
  · intro hnever n
    exact calls_eq_readAll hstart hpieces hnever n 0

/-- **Reading a stream in pieces is reading it from the left, exactly when no piece is tight**; so
it is for a stream of encoded messages, of which the calls then return the messages and the end. -/
theorem framed_reader_exact (hlimit : limit ≤ maxFrameLen) {events : List ReadEvent}
    (hpieces : ∀ e ∈ events, e.Piece) :
    ((∀ n, calls n (FramedReader.withLimit events limit) = readAll limit n (stream events)) ↔
      NeverTight (FrameDecoder.withLimit limit) events) ∧
    ∀ bodies : List Text, (∀ b ∈ bodies, byteLen b ≤ limit) →
    stream events = bodies.flatMap encode →
      ((∀ n, calls n (FramedReader.withLimit events limit) =
          (bodies.map (fun b => Except.ok (some b)) ++ List.replicate n (Except.ok none)).take n) ↔
        NeverTight (FrameDecoder.withLimit limit) events) := by
  refine ⟨calls_eq_readAll_iff hlimit hpieces, ?_⟩
  intro bodies hbodies hstream
  rw [← calls_eq_readAll_iff hlimit hpieces, hstream]
  refine forall_congr' ?_
  intro n
  rw [readAll_encode hlimit hbodies n]

/-- No piece of a stream that fits into the buffer is tight. -/
theorem neverTight_of_short {d : FrameDecoder} {u : Bytes} {events : List ReadEvent}
    (h : Holds limit d u) (hpieces : ∀ e ∈ events, e.Piece)
    (hshort : d.buf.length + (stream events).length ≤ limit + maxHeaderBytes + readBytes) :
    NeverTight d events := by
  intro x chunk hm
  suffices hroom : x.maxFrameLen = limit ∧
      x.buf.length + chunk.length ≤ limit + maxHeaderBytes + readBytes by
    rintro ⟨-, hlt⟩
    rw [maxBufferBytes, hroom.1] at hlt
    omega
  induction hm generalizing u with
  | here hnext =>
    obtain ⟨_, h', -, hle⟩ := nextMessage_ok h hnext
    rw [stream_bytes, length_append] at hshort
    exact ⟨h'.limit_eq, by omega⟩
  | message hnext _ ih =>
    obtain ⟨_, h', -, hle⟩ := nextMessage_ok h hnext
    exact ih h' hpieces (by omega)
  | interrupted hnext _ ih =>
    obtain ⟨_, h', -, hle⟩ := nextMessage_ok h hnext
    rw [stream_interrupted] at hshort
    exact ih h' (fun e he => hpieces e (.tail _ he)) (by omega)
  | later hnext hpush _ ih =>
    obtain ⟨_, h', hmore, hle⟩ := nextMessage_ok h hnext
    obtain ⟨hmore, rfl⟩ := hmore rfl
    rw [stream_bytes, length_append] at hshort
    have hmax := congrArg (· + maxHeaderBytes + readBytes) h'.limit_eq
    obtain ⟨_, hpush', h'', hfacts⟩ := push_of_not_tight h' hmore (hpieces _ (.head _)).2
      fun ht => by have := ht.2; rw [maxBufferBytes] at this; omega
    rw [hpush] at hpush'
    cases hpush'
    refine ih h'' (fun e he => hpieces e (.tail _ he)) ?_
    rw [(hfacts (by rw [maxBufferBytes]; omega)).1, length_append]
    omega

/-- Two messages, with a cut in the header of the second. -/
def twoMessages : List ReadEvent :=
  [.interrupted, .bytes (encode ['x'] ++ (encode ['y', 'z']).take 5),
    .bytes ((encode ['y', 'z']).drop 5)]

theorem framed_reader_exact_sample :
    calls 4 (FramedReader.withLimit twoMessages 10) =
      [.ok (some ['x']), .ok (some ['y', 'z']), .ok none, .ok none] := by
  have hpieces : ∀ e ∈ twoMessages, e.Piece := by
    simp only [twoMessages, forall_mem_cons, not_mem_nil, false_implies, implies_true, and_true]
    exact ⟨trivial, ⟨by decide, by decide +kernel⟩, by decide, by decide +kernel⟩
  exact ((framed_reader_exact (by decide) hpieces).2 [['x'], ['y', 'z']] (by decide)
    (by decide +kernel)).mpr (neverTight_of_short (holds_withLimit (by decide)) hpieces
      (by decide +kernel)) 4

/-! ## A stream that is refused -/

/-- A piece for which there is room is read, and the search goes on. -/
theorem exists_meets_bytes {d : FrameDecoder} {u chunk : Bytes} (h : Holds limit d u)
    (hmore : next limit u = .more) (hchunk : chunk.length ≤ readBytes)
    (hroom : d.buf.length + chunk.length ≤ limit + maxHeaderBytes + readBytes) :
    ∃ d', Holds limit d' (u ++ chunk) ∧ d'.head = d.head
      ∧ ∀ events x c, Meets d' events x c → Meets d (.bytes chunk :: events) x c := by
  have hanswers := nextMessage_answers h
  rw [hmore] at hanswers
  obtain ⟨d1, hnext, h1, hbuf, hhead⟩ := hanswers
  have hroom' : d1.buf.length + chunk.length ≤ d1.maxBufferBytes := by
    rw [hbuf, maxBufferBytes, h1.limit_eq]
    exact hroom
  obtain ⟨d2, hpush, h2, hfacts⟩ :=
    push_of_not_tight h1 hmore hchunk (fun ht => by have := ht.2; omega)
  refine ⟨d2, h2, ?_, fun events x c hm => .later hnext hpush hm⟩
  rw [(hfacts hroom').2.1, hhead]

/-- A message near the start of the buffer, with more bytes behind it, stays there when it is
read. -/
theorem exists_meets_message {d : FrameDecoder} {u rest : Bytes} {body : Text} (h : Holds limit d u)
    (hu : next limit u = .item body rest) (hrest : rest ≠ [])
    (hnear : d.buf.length - rest.length < readBytes) :
    ∃ d', Holds limit d' rest ∧ d'.head = d.buf.length - rest.length
      ∧ ∀ events x c, Meets d' events x c → Meets d events x c := by
  have hanswers := nextMessage_answers h
  rw [hu] at hanswers
  obtain ⟨d', hnext, h', d0, rfl, hbuf⟩ := hanswers
  refine ⟨_, h', ?_, fun events x c hm => .message hnext hm⟩
  have hunread := h'.unread_eq
  simp only [FrameDecoder.consume] at hunread ⊢
  split at hunread
  · exact absurd hunread.symm hrest
  · rename_i hne
    rw [if_neg hne, if_neg (fun hfar => by omega)]

end Stream

/-- `n` bytes of text. -/
def xs (n : Nat) : Text := List.replicate n 'x'

theorem byteLen_xs (n : Nat) : byteLen (xs n) = n := by
  rw [byteLen_eq_length, xs, length_replicate]
  intro c hc
  rw [eq_of_mem_replicate hc]
  rfl

theorem length_encode_xs {n k : Nat} (h : (header n).length = k) :
    (encode (xs n)).length = k + 4 + n := by
  have hbreak : headerBreak.length = 4 := rfl
  have hbody : (utf8 (xs n)).length = n := byteLen_xs n
  rw [encode_eq, length_append, length_append, hbreak, hbody, byteLen_xs, utf8_header,
    length_map, h]

/-- Three messages, the second as long as the limit allows. -/
def refusedBodies : List Text := [xs 8167, xs 10000, xs 8167]

/-- Their stream in pieces: the first ends one byte into the second message, the third one byte
before its end. -/
def refusedEvents : List ReadEvent :=
  let e1 := encode (xs 8167)
  let e2 := encode (xs 10000)
  [.bytes (e1 ++ e2.take 1), .bytes ((e2.drop 1).take 8192), .bytes ((e2.drop 8193).take 1831),
    .bytes (e2.drop 10024 ++ e1)]

theorem length_encode_first : (encode (xs 8167)).length = 8191 := length_encode_xs rfl

theorem length_encode_second : (encode (xs 10000)).length = 10025 := length_encode_xs rfl

theorem refusedEvents_pieces : ∀ e ∈ refusedEvents, e.Piece := by
  have hlen1 := length_encode_first
  have hlen2 := length_encode_second
  intro e he
  simp only [refusedEvents, mem_cons, not_mem_nil, or_false] at he
  rcases he with rfl | rfl | rfl | rfl <;>
    simp only [ReadEvent.Piece, readBytes, length_append, length_take, length_drop] <;>
    omega

theorem stream_refusedEvents : stream refusedEvents = refusedBodies.flatMap encode := by
  have hpieces : ∀ e w : Bytes,
      e.take 1 ++ ((e.drop 1).take 8192 ++ ((e.drop 8193).take 1831 ++ (e.drop 10024 ++ w))) =
        e ++ w := by
    intro e w
    have h1 : (e.drop 1).drop 8192 = e.drop 8193 := by rw [drop_drop]
    have h2 : (e.drop 8193).drop 1831 = e.drop 10024 := by rw [drop_drop]
    rw [← h2, ← append_assoc ((e.drop 8193).take 1831), take_append_drop, ← h1,
      ← append_assoc ((e.drop 1).take 8192), take_append_drop, ← append_assoc, take_append_drop]
  simp only [refusedEvents, refusedBodies, stream_bytes, List.flatMap_cons, flatMap_nil,
    append_assoc, hpieces]
  rfl

/-- When the last piece is read, the first message still stands in the buffer. -/
theorem exists_tight_refused : ∃ x chunk, Meets (FrameDecoder.withLimit 10000) refusedEvents x chunk
    ∧ Tight x chunk := by
  have hlimit : 10000 ≤ maxFrameLen := by decide
  have hlen1 := length_encode_first
  have hlen2 := length_encode_second
  have hfirst := next_encode hlimit (show byteLen (xs 8167) ≤ 10000 by rw [byteLen_xs]; omega)
  -- of the second message there are 1, 8193 and 10024 bytes
  have hmore : ∀ k < 10025, next 10000 ((encode (xs 10000)).take k) = .more := by
    intro k hk
    refine next_prefix_encode hlimit (show byteLen (xs 10000) ≤ 10000 by rw [byteLen_xs])
      (take_append_drop k _).symm ?_
    exact ne_nil_of_length_pos (by rw [length_drop]; omega)
  have hgrow : ∀ {j k n : Nat}, n = j + k → (encode (xs 10000)).take j
      ++ ((encode (xs 10000)).drop j).take k = (encode (xs 10000)).take n := by
    intro j k n hn
    rw [hn, take_add]
  unfold refusedEvents
  generalize encode (xs 8167) = e1 at *
  generalize encode (xs 10000) = e2 at *
  have hbytes : maxHeaderBytes = 8192 ∧ readBytes = 8192 := ⟨rfl, rfl⟩
  have h0 := holds_withLimit hlimit
  have hbuf0 : (FrameDecoder.withLimit 10000).buf.length = 0 := rfl
  have hhead0 : (FrameDecoder.withLimit 10000).head = 0 := rfl
  have hlen : (e1 ++ e2.take 1).length = 8192 := by
    rw [length_append, length_take]
    omega
  obtain ⟨d1, h1, hhead1, hm1⟩ := exists_meets_bytes h0 rfl (Nat.le_of_eq hlen) (by omega)
  rw [nil_append] at h1
  have hbuf1 := h1.length_eq
  obtain ⟨d2, h2, hhead2, hm2⟩ := exists_meets_message h1 (hfirst (e2.take 1))
    (ne_nil_of_length_pos (by rw [length_take]; omega)) (by rw [length_take]; omega)
  have hbuf2 := h2.length_eq
  rw [length_take] at hbuf2 hhead2
  obtain ⟨d3, h3, hhead3, hm3⟩ := exists_meets_bytes h2 (hmore 1 (by omega))
    (show ((e2.drop 1).take 8192).length ≤ readBytes by rw [length_take]; omega)
    (by rw [length_take, length_drop]; omega)
  rw [hgrow (show 8193 = 1 + 8192 from rfl)] at h3
  have hbuf3 := h3.length_eq
  rw [length_take] at hbuf3
  have hthird : ((e2.drop 8193).take 1831).length = 1831 := by
    rw [length_take, length_drop, hlen2]
    rfl
  have hbuf3 : d3.buf.length = 16384 := by omega
  obtain ⟨d4, h4, hhead4, hm4⟩ :=
    exists_meets_bytes h3 (hmore 8193 (by omega)) (by rw [hthird]; omega)
    (by rw [hthird, hbuf3]; omega)
  rw [hgrow (show 10024 = 8193 + 1831 from rfl)] at h4
  have hanswers := nextMessage_answers h4
  rw [hmore 10024 (by omega)] at hanswers
  obtain ⟨x, hnext, hx, hbufx, hheadx⟩ := hanswers
  have hbuf := hx.length_eq
  rw [length_take] at hbuf
  refine ⟨x, e2.drop 10024 ++ e1,
    hm1 _ _ _ (hm2 _ _ _ (hm3 _ _ _ (hm4 _ _ _ (.here hnext)))), ?_, ?_⟩
  · rw [hx.unread, length_take]
    omega
  · rw [maxBufferBytes, hx.limit_eq, length_append, length_drop]
    omega

theorem maximal_message_refused :
    (∀ b ∈ refusedBodies, byteLen b ≤ 10000) ∧ (∀ e ∈ refusedEvents, e.Piece) ∧
    stream refusedEvents = refusedBodies.flatMap encode ∧
    (∃ n, .error (.protocol .bufferTooLong) ∈
      calls n (FramedReader.withLimit refusedEvents 10000)) ∧
    ∃ n, calls n (FramedReader.withLimit refusedEvents 10000) ≠
      readAll 10000 n (stream refusedEvents) := by
  have hbodies : ∀ b ∈ refusedBodies, byteLen b ≤ 10000 := by
    intro b hb
    simp only [refusedBodies, mem_cons, not_mem_nil, or_false] at hb
    rcases hb with rfl | rfl | rfl <;> rw [byteLen_xs] <;> omega
  obtain ⟨x, chunk, hm, ht⟩ := exists_tight_refused
  have hstart := holds_withLimit (show 10000 ≤ maxFrameLen by decide)
  obtain ⟨n, hn⟩ := bufferTooLong_of_tight hstart refusedEvents_pieces hm ht 0
  refine ⟨hbodies, refusedEvents_pieces, stream_refusedEvents, ⟨n + 1, hn⟩, n + 1, ?_⟩
  intro heq
  rw [show calls (n + 1) ⟨refusedEvents, FrameDecoder.withLimit 10000, 0⟩ = _ from heq] at hn
  exact readAll_ne_bufferTooLong _ _ hn

end Thegn.Lsp

import Thegn.Tunnel.Frame

set_option autoImplicit false

/-! # What was framed is delivered

The stream may carry a preamble before the first frame; `sync_to` discards everything up to a
marker. However the stream is cut into chunks, the marker is found once, at its place, and the
frames behind it are all delivered (`tunnel_delivers`).
-/

namespace Thegn.Tunnel

open Incremental List

/-! ## Skipping the preamble -/

inductive SyncOutcome
  | synced (skipped : Nat) (preview : Bytes)
  | needMore
  | overflow
  deriving DecidableEq

def findSubslice (hay needle : Bytes) : Option Nat :=
  if needle = [] ∨ hay.length < needle.length then none
  else (List.range (hay.length - needle.length + 1)).find? fun i =>
    (hay.drop i).take needle.length == needle

def previewLen : Nat := 48

def FrameDecoder.syncTo (d : FrameDecoder) (marker : Bytes) (maxSkip : Nat) :
    SyncOutcome × FrameDecoder :=
  match findSubslice d.buf marker with
  | some pos =>
    (.synced pos (d.buf.take (min pos previewLen)), { buf := d.buf.drop (pos + marker.length) })
  | none => if d.buf.length > maxSkip + marker.length then (.overflow, d) else (.needMore, d)

/-! ## The read loop -/

/-- The reading end of a tunnel: every answer of `syncTo` and every frame so far. -/
structure Reader where
  decoder : FrameDecoder
  synced : Bool
  answers : List SyncOutcome
  frames : List Frame
  error : Option DecodeError
  deriving DecidableEq

def Reader.new : Reader :=
  { decoder := .new, synced := false, answers := [], frames := [], error := none }

/-- The frames that are complete are delivered. -/
def Reader.deliver (r : Reader) (d : FrameDecoder) : Reader :=
  match d.drain with
  | (.ok fs, d) => { r with decoder := d, frames := r.frames ++ fs }
  | (.error e, d) => { r with decoder := d, error := some e }

/-- One chunk arrives: it is pushed, the marker is looked for until it is found, then the frames are
drained. -/
def Reader.read (r : Reader) (chunk : Bytes) : Reader :=
  let d := r.decoder.push chunk
  if r.synced then r.deliver d
  else
    match d.syncTo syncMagic maxResyncSkip with
    | (.synced skipped preview, d) =>
      Reader.deliver { r with
        synced := true, answers := r.answers ++ [SyncOutcome.synced skipped preview] } d
    | (answer, d) => { r with decoder := d, answers := r.answers ++ [answer] }

/-! ## Finding the marker -/

theorem findSubslice_eq_some {hay needle : Bytes} {n : Nat} :
    findSubslice hay needle = some n ↔
      needle ≠ [] ∧ n + needle.length ≤ hay.length ∧ (hay.drop n).take needle.length = needle ∧
        ∀ i < n, (hay.drop i).take needle.length ≠ needle := by
  unfold findSubslice
  split_ifs with h
  · constructor
    · intro h'
      cases h'
    · rintro ⟨hne, hlen, -⟩
      rcases h with h | h
      · exact absurd h hne
      · omega
  · rw [not_or] at h
    rw [List.find?_range_eq_some]
    simp only [beq_iff_eq, mem_range, Bool.not_eq_true', beq_eq_false_iff_ne]
    constructor
    · rintro ⟨hat, hlt, hbefore⟩
      exact ⟨h.1, by omega, hat, hbefore⟩
    · rintro ⟨_, hlen, hat, hbefore⟩
      exact ⟨hat, by omega, hbefore⟩

theorem findSubslice_eq_none {hay needle : Bytes}
    (h : ∀ i, i + needle.length ≤ hay.length → (hay.drop i).take needle.length ≠ needle) :
    findSubslice hay needle = none := by
  cases hf : findSubslice hay needle with
  | none => rfl
  | some n =>
    obtain ⟨_, hlen, hat, _⟩ := findSubslice_eq_some.mp hf
    exact absurd hat (h n hlen)

/-- A window of a beginning is a window of the whole. -/
theorem window_prefix_eq {h s : Bytes} (hp : h <+: s) {i n : Nat} (hlen : i + n ≤ h.length) :
    (h.drop i).take n = (s.drop i).take n := by
  obtain ⟨t, rfl⟩ := hp
  rw [drop_append_of_le_length (by omega), take_append_of_le_length]
  rw [length_drop]
  omega

section Preamble

variable {p stream : Bytes}

/-- Before the marker has arrived, it is not found. -/
theorem findSubslice_before (hfirst : findSubslice (p ++ syncMagic) syncMagic = some p.length)
    {h : Bytes} (hp : h <+: p ++ syncMagic ++ stream)
    (hlen : h.length < p.length + syncMagic.length) : findSubslice h syncMagic = none := by
  obtain ⟨_, _, _, hbefore⟩ := findSubslice_eq_some.mp hfirst
  apply findSubslice_eq_none
  intro i hi
  rw [window_prefix_eq hp hi,
    ← window_prefix_eq (prefix_append _ stream) (by rw [length_append]; omega)]
  exact hbefore i (by omega)

/-- Once the marker has arrived, it is found at its place. -/
theorem findSubslice_after (hfirst : findSubslice (p ++ syncMagic) syncMagic = some p.length)
    {h : Bytes} (hp : h <+: p ++ syncMagic ++ stream)
    (hlen : p.length + syncMagic.length ≤ h.length) : findSubslice h syncMagic = some p.length := by
  obtain ⟨hne, hlen', hat, hbefore⟩ := findSubslice_eq_some.mp hfirst
  rw [findSubslice_eq_some]
  refine ⟨hne, hlen, ?_, ?_⟩
  · rw [window_prefix_eq hp hlen, ← window_prefix_eq (prefix_append _ stream) hlen']
    exact hat
  · intro i hi
    rw [window_prefix_eq hp (by omega), ← window_prefix_eq (prefix_append _ stream) (by omega)]
    exact hbefore i hi

end Preamble

/-! ## Delivery -/

theorem deliver_of_drains {r : Reader} {buf left : Bytes} {fs : List Frame}
    (h : Drains next buf fs left) :
    r.deliver { buf := buf } = { r with decoder := { buf := left }, frames := r.frames ++ fs } := by
  rw [Reader.deliver, drain_of_drains h]

/-- After the marker, the chunks deliver the frames of the rest of the stream. -/
theorem foldl_read_of_feeds {pieces : List Bytes} {buf left : Bytes} {fs : List Frame}
    (h : Feeds next buf pieces fs left) {r : Reader} (hsynced : r.synced = true)
    (hbuf : r.decoder = { buf := buf }) :
    pieces.foldl Reader.read r =
      { r with decoder := { buf := left }, frames := r.frames ++ fs } := by
  induction h generalizing r with
  | nil =>
    rw [foldl_nil, append_nil, ← hbuf]
  | @cons buf mid left piece pieces xs ys hdrain _ ih =>
    have hread : r.read piece =
        { r with decoder := { buf := mid }, frames := r.frames ++ xs } := by
      rw [Reader.read, if_pos hsynced, hbuf, FrameDecoder.push]
      exact deliver_of_drains hdrain
    have hrest := @ih { r with decoder := { buf := mid }, frames := r.frames ++ xs } hsynced rfl
    rw [foldl_cons, hread, hrest]
    simp only [append_assoc]

section Delivery

variable {p : Bytes} {fs : List Frame}

/-- A chunk before the end of the marker. -/
theorem read_before (hfirst : findSubslice (p ++ syncMagic) syncMagic = some p.length)
    (hp : p.length ≤ maxResyncSkip) {r : Reader} (hsynced : r.synced = false) {chunk stream : Bytes}
    (hpre : r.decoder.buf ++ chunk <+: p ++ syncMagic ++ stream)
    (hlen : (r.decoder.buf ++ chunk).length < p.length + syncMagic.length) :
    r.read chunk =
      { r with
        decoder := { buf := r.decoder.buf ++ chunk }, answers := r.answers ++ [.needMore] } := by
  have hskip : ¬ (r.decoder.buf ++ chunk).length > maxResyncSkip + syncMagic.length := by omega
  have hsync : (FrameDecoder.mk (r.decoder.buf ++ chunk)).syncTo syncMagic maxResyncSkip =
      (.needMore, { buf := r.decoder.buf ++ chunk }) := by
    rw [FrameDecoder.syncTo, findSubslice_before hfirst hpre hlen]
    exact if_neg hskip
  rw [Reader.read, if_neg (by rw [hsynced]; exact Bool.false_ne_true), FrameDecoder.push, hsync]

/-- The chunk that completes the marker. -/
theorem read_after (hfirst : findSubslice (p ++ syncMagic) syncMagic = some p.length)
    {r : Reader} (hsynced : r.synced = false) {chunk stream : Bytes}
    (hpre : r.decoder.buf ++ chunk <+: p ++ syncMagic ++ stream)
    (hlen : p.length + syncMagic.length ≤ (r.decoder.buf ++ chunk).length) :
    ∃ preview, r.read chunk =
      Reader.deliver { r with
        synced := true, answers := r.answers ++ [SyncOutcome.synced p.length preview] }
        { buf := (r.decoder.buf ++ chunk).drop (p.length + syncMagic.length) } := by
  refine ⟨(r.decoder.buf ++ chunk).take (min p.length previewLen), ?_⟩
  rw [Reader.read, if_neg (by rw [hsynced]; exact Bool.false_ne_true), FrameDecoder.push,
    FrameDecoder.syncTo, findSubslice_after hfirst hpre hlen]

/-- From any point before the marker is complete, the rest of the chunks deliver all frames. -/
theorem foldl_read (hfits : ∀ f ∈ fs, f.Fits) (hp : p.length ≤ maxResyncSkip)
    (hfirst : findSubslice (p ++ syncMagic) syncMagic = some p.length) {pieces : List Bytes}
    {r : Reader} (hsynced : r.synced = false)
    (hlen : r.decoder.buf.length < p.length + syncMagic.length)
    (hstream : r.decoder.buf ++ pieces.flatten = p ++ syncMagic ++ fs.flatMap encode) :
    ∃ n preview, pieces.foldl Reader.read r =
      { decoder := { buf := [] }, synced := true,
        answers := r.answers ++ (List.replicate n .needMore ++ [.synced p.length preview]),
        frames := r.frames ++ fs, error := r.error } := by
  induction pieces generalizing r with
  | nil =>
    have h := congrArg List.length hstream
    simp only [flatten_nil, append_nil, length_append] at h
    omega
  | cons piece pieces ih =>
    rw [flatten_cons, ← append_assoc] at hstream
    have hpre : r.decoder.buf ++ piece <+: p ++ syncMagic ++ fs.flatMap encode :=
      ⟨pieces.flatten, hstream⟩
    rw [foldl_cons]
    by_cases hpart : (r.decoder.buf ++ piece).length < p.length + syncMagic.length
    · rw [read_before hfirst hp hsynced hpre hpart]
      obtain ⟨n, preview, h⟩ := @ih { r with
        decoder := { buf := r.decoder.buf ++ piece }, answers := r.answers ++ [.needMore] }
        hsynced hpart hstream
      refine ⟨n + 1, preview, h.trans ?_⟩
      simp only [append_assoc, replicate_succ, cons_append, nil_append]
    · obtain ⟨preview, hread⟩ := read_after hfirst hsynced hpre (by omega)
      -- what follows the marker in this chunk, and the chunks after it, are the frames
      have hrest : (r.decoder.buf ++ piece).drop (p.length + syncMagic.length) ++ pieces.flatten =
          fs.flatMap encode := by
        rw [← drop_append_of_le_length (by omega), hstream, ← length_append, drop_left]
      have hdrains := drains_encode hfits
      rw [← hrest] at hdrains
      obtain ⟨xs, mid, ys, hxs, hys, rfl⟩ := hdrains.split stable_next
      have hfeeds := Feeds.of_drains stable_next hxs.left_more hys
      refine ⟨0, preview, ?_⟩
      rw [hread, deliver_of_drains hxs, foldl_read_of_feeds hfeeds rfl rfl]
      simp only [append_assoc, replicate_zero, nil_append]

end Delivery

theorem fits_of_mem_chunks {n : Nat} {data chunk : Bytes} (h : chunk ∈ chunks n data) :
    chunk.length ≤ n := by
  fun_induction chunks n data with
  | case1 => exact absurd h not_mem_nil
  | case2 data _ ih =>
    rcases mem_cons.mp h with rfl | h
    · exact length_take_le n data
    · exact ih h

theorem flatten_chunks {n : Nat} (hn : n ≠ 0) (data : Bytes) : (chunks n data).flatten = data := by
  fun_induction chunks n data with
  | case1 data h =>
    rcases h with h | h
    · exact absurd h hn
    · rw [h, flatten_nil]
  | case2 data _ ih => rw [flatten_cons, ih, take_append_drop]

/-- The frames of `encodeDataChunked`. -/
def dataFrames (id : UInt32) (data : Bytes) : List Frame :=
  (chunks maxFramePayload data).map (.data id)

theorem drain_encodeDataChunked (id : UInt32) (data : Bytes) :
    (FrameDecoder.new.push (encodeDataChunked id data)).drain =
      (.ok (dataFrames id data), { buf := [] }) := by
  have hframes : encodeDataChunked id data = (dataFrames id data).flatMap encode := by
    rw [encodeDataChunked, dataFrames, flatMap_map]
  have hfits : ∀ f ∈ dataFrames id data, f.Fits := by
    intro f hf
    obtain ⟨chunk, hchunk, rfl⟩ := mem_map.mp hf
    exact fits_of_mem_chunks hchunk
  rw [hframes]
  exact drain_of_drains (drains_encode hfits)

/-- **The reverse tunnel delivers exactly what was framed.** However preamble, marker and frames are
cut into chunks, the marker is found once and at its place, no answer is an overflow, the frames
arrive in order and nothing is pending; and data framed in chunks is the data again. -/
theorem tunnel_delivers :
    (∀ (fs : List Frame) (p : Bytes) (pieces : List Bytes), (∀ f ∈ fs, f.Fits) →
      p.length ≤ maxResyncSkip → findSubslice (p ++ syncMagic) syncMagic = some p.length →
      pieces.flatten = p ++ syncMagic ++ fs.flatMap encode → ∃ n preview,
        (pieces.foldl Reader.read .new).answers =
          List.replicate n .needMore ++ [SyncOutcome.synced p.length preview] ∧
        (pieces.foldl Reader.read .new).frames = fs ∧
        (pieces.foldl Reader.read .new).error = none ∧
        (pieces.foldl Reader.read .new).decoder.pending = 0) ∧
    ∀ (id : UInt32) (data : Bytes), ∃ payloads : List Bytes,
      (FrameDecoder.new.push (encodeDataChunked id data)).drain.1 = .ok (payloads.map (.data id)) ∧
        payloads.flatten = data := by
  constructor
  · intro fs p pieces hfits hp hfirst hstream
    have hlen : Reader.new.decoder.buf.length < p.length + syncMagic.length := by
      rw [show Reader.new.decoder.buf.length = 0 from rfl, show syncMagic.length = 8 from rfl]
      omega
    obtain ⟨n, preview, h⟩ := foldl_read hfits hp hfirst (r := .new) rfl hlen hstream
    rw [h]
    exact ⟨n, preview, rfl, rfl, rfl, rfl⟩
  · intro id data
    refine ⟨chunks maxFramePayload data, ?_, flatten_chunks (by decide) data⟩
    rw [drain_encodeDataChunked]
    rfl

/-- A preamble that ends in half a marker, and three chunks that cut it, the marker and the
frame. -/
theorem tunnel_delivers_sample :
    ∃ n preview, (List.foldl Reader.read .new
        [[104, 105, 0x00, 0x74, 0x00], [0x74, 0x67, 0x52, 0x45, 0x56, 0x01, 0x0a, 1, 0, 0, 0],
          [7, 0, 0, 0, 0]]).answers =
          List.replicate n .needMore ++
            [SyncOutcome.synced [104, 105, 0x00, (0x74 : UInt8)].length preview] ∧
      (List.foldl Reader.read .new
        [[104, 105, 0x00, 0x74, 0x00], [0x74, 0x67, 0x52, 0x45, 0x56, 0x01, 0x0a, 1, 0, 0, 0],
          [7, 0, 0, 0, 0]]).frames = [.opened 7] ∧
      (List.foldl Reader.read .new
        [[104, 105, 0x00, 0x74, 0x00], [0x74, 0x67, 0x52, 0x45, 0x56, 0x01, 0x0a, 1, 0, 0, 0],
          [7, 0, 0, 0, 0]]).error = none ∧
      (List.foldl Reader.read .new
        [[104, 105, 0x00, 0x74, 0x00], [0x74, 0x67, 0x52, 0x45, 0x56, 0x01, 0x0a, 1, 0, 0, 0],
          [7, 0, 0, 0, 0]]).decoder.pending = 0 :=
  tunnel_delivers.1 [.opened 7] [104, 105, 0x00, 0x74] _
    (by intro f hf; rw [mem_singleton.mp hf]; trivial) (by decide) (by decide) (by decide)

end Thegn.Tunnel

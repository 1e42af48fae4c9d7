import Thegn.Lib.Incremental
import Mathlib.Data.List.DropRight
import Mathlib.Tactic.IntervalCases

set_option autoImplicit false

/-! # The frames of the reverse tunnel

`thegn-core/src/revtunnel.rs`: many connections share one stream of bytes, each frame with a type,
the number of its connection and a payload behind its length. The decoder holds what has arrived and
not yet been a whole frame.
-/

namespace Thegn.Tunnel

open Incremental List

abbrev Bytes := List UInt8

/-! ## Encoding -/

inductive Frame
  | opened (id : UInt32)
  | data (id : UInt32) (payload : Bytes)
  | closed (id : UInt32)
  deriving DecidableEq

def tOpen : UInt8 := 1
def tData : UInt8 := 2
def tClose : UInt8 := 3

def maxFramePayload : Nat := 2 ^ 20

/-- `\x00tgREV\x01\n`. -/
def syncMagic : Bytes := [0x00, 0x74, 0x67, 0x52, 0x45, 0x56, 0x01, 0x0a]

def maxResyncSkip : Nat := 64 * 1024

/-- `u32::to_be_bytes`. -/
def toBeBytes (n : UInt32) : Bytes :=
  [UInt8.ofNat (n.toNat / 2 ^ 24), UInt8.ofNat (n.toNat / 2 ^ 16), UInt8.ofNat (n.toNat / 2 ^ 8),
    UInt8.ofNat n.toNat]

/-- `u32::from_be_bytes`. -/
def fromBeBytes (a b c d : UInt8) : UInt32 :=
  UInt32.ofNat (((a.toNat * 2 ^ 8 + b.toNat) * 2 ^ 8 + c.toNat) * 2 ^ 8 + d.toNat)

/-- A frame with its type, connection and payload written out. -/
def encodeParts (t : UInt8) (id : UInt32) (payload : Bytes) : Bytes :=
  t :: toBeBytes id ++ toBeBytes (UInt32.ofNat payload.length) ++ payload

def encode : Frame → Bytes
  | .opened id => encodeParts tOpen id []
  | .closed id => encodeParts tClose id []
  | .data id d => encodeParts tData id d

/-- `slice::chunks`. -/
def chunks (n : Nat) (data : Bytes) : List Bytes :=
  if h : n = 0 ∨ data = [] then []
  else data.take n :: chunks n (data.drop n)
termination_by data.length
decreasing_by
  rw [not_or] at h
  have hpos := length_pos_of_ne_nil h.2
  rw [length_drop]
  omega

def encodeDataChunked (id : UInt32) (data : Bytes) : Bytes :=
  (chunks maxFramePayload data).flatMap fun chunk => encode (.data id chunk)

/-! ## Decoding -/

inductive DecodeError
  | unknownType (t : UInt8)
  | payloadTooLarge (len : Nat)
  deriving DecidableEq

structure FrameDecoder where
  buf : Bytes
  deriving DecidableEq

def FrameDecoder.new : FrameDecoder := { buf := [] }

def FrameDecoder.push (d : FrameDecoder) (bytes : Bytes) : FrameDecoder := { buf := d.buf ++ bytes }

/-- The frame of a type, if it is one. -/
def frameOf (t : UInt8) (id : UInt32) (payload : Bytes) : Except DecodeError Frame :=
  if t = tOpen then .ok (.opened id)
  else if t = tClose then .ok (.closed id)
  else if t = tData then .ok (.data id payload)
  else .error (.unknownType t)

def FrameDecoder.nextFrame (d : FrameDecoder) : Except DecodeError (Option Frame) × FrameDecoder :=
  match d.buf with
  | t :: i0 :: i1 :: i2 :: i3 :: l0 :: l1 :: l2 :: l3 :: rest =>
    let len := (fromBeBytes l0 l1 l2 l3).toNat
    if len > maxFramePayload then (.error (.payloadTooLarge len), d)
    else if rest.length < len then (.ok none, d)
    else ((frameOf t (fromBeBytes i0 i1 i2 i3) (rest.take len)).map some, { buf := rest.drop len })
  -- fewer bytes than a header
  | _ => (.ok none, d)

theorem nextFrame_length {d d' : FrameDecoder} {f : Frame} (h : d.nextFrame = (.ok (some f), d')) :
    d'.buf.length < d.buf.length := by
  unfold FrameDecoder.nextFrame at h
  split at h
  · rename_i hbuf
    dsimp only at h
    split_ifs at h
    · cases h
    · cases h
    · rw [hbuf, ← (Prod.mk.inj h).2]
      simp only [length_cons, length_drop]
      omega
  · cases h

/-- Every frame that is complete. -/
def FrameDecoder.drain (d : FrameDecoder) : Except DecodeError (List Frame) × FrameDecoder :=
  match h : d.nextFrame with
  | (.error e, d') => (.error e, d')
  | (.ok none, d') => (.ok [], d')
  | (.ok (some f), d') => (d'.drain.1.map (f :: ·), d'.drain.2)
termination_by d.buf.length
decreasing_by all_goals exact nextFrame_length h

def FrameDecoder.pending (d : FrameDecoder) : Nat := d.buf.length

/-! ## The decoder as a reader of a stream -/

/-- What `nextFrame` says of a buffer. -/
def next (buf : Bytes) : Next UInt8 Frame DecodeError :=
  match (FrameDecoder.mk buf).nextFrame with
  | (.ok none, _) => .more
  | (.ok (some f), d) => .item f d.buf
  | (.error e, _) => .fail e

/-- A buffer with a whole header. -/
theorem next_header (t i0 i1 i2 i3 l0 l1 l2 l3 : UInt8) (rest : Bytes) :
    next (t :: i0 :: i1 :: i2 :: i3 :: l0 :: l1 :: l2 :: l3 :: rest) =
      if (fromBeBytes l0 l1 l2 l3).toNat > maxFramePayload then
        .fail (.payloadTooLarge (fromBeBytes l0 l1 l2 l3).toNat)
      else if rest.length < (fromBeBytes l0 l1 l2 l3).toNat then .more
      else
        match frameOf t (fromBeBytes i0 i1 i2 i3) (rest.take (fromBeBytes l0 l1 l2 l3).toNat) with
        | .ok f => .item f (rest.drop (fromBeBytes l0 l1 l2 l3).toNat)
        | .error e => .fail e := by
  unfold next FrameDecoder.nextFrame
  dsimp only
  split_ifs
  · rfl
  · rfl
  · cases frameOf t (fromBeBytes i0 i1 i2 i3) (rest.take (fromBeBytes l0 l1 l2 l3).toNat) with
    | ok f => rfl
    | error e => rfl

theorem nextFrame_short {d : FrameDecoder} (h : d.buf.length < 9) :
    d.nextFrame = (.ok none, d) := by
  unfold FrameDecoder.nextFrame
  split
  · rename_i hbuf
    rw [hbuf] at h
    simp only [length_cons] at h
    omega
  · rfl

theorem next_short {buf : Bytes} (h : buf.length < 9) : next buf = .more := by
  unfold next
  rw [nextFrame_short h]

/-- A buffer holds less than a header, or one. -/
theorem header_cases (buf : Bytes) : buf.length < 9 ∨ ∃ t i0 i1 i2 i3 l0 l1 l2 l3 rest,
    buf = t :: i0 :: i1 :: i2 :: i3 :: l0 :: l1 :: l2 :: l3 :: rest := by
  match buf with
  | t :: i0 :: i1 :: i2 :: i3 :: l0 :: l1 :: l2 :: l3 :: rest =>
    exact .inr ⟨t, i0, i1, i2, i3, l0, l1, l2, l3, rest, rfl⟩
  | [] | [_] | [_, _] | [_, _, _] | [_, _, _, _] | [_, _, _, _, _] | [_, _, _, _, _, _]
  | [_, _, _, _, _, _, _] | [_, _, _, _, _, _, _, _] => exact .inl (by simp)

/-- **What the decoder finds does not change by what arrives later.** -/
theorem stable_next : Stable next where
  item := by
    intro buf f left h later
    rcases header_cases buf with hshort | ⟨t, i0, i1, i2, i3, l0, l1, l2, l3, rest, rfl⟩
    · rw [next_short hshort] at h
      cases h
    · simp only [cons_append]
      rw [next_header] at h ⊢
      split_ifs at h with hlarge hpart
      rw [if_neg hlarge, if_neg (by rw [length_append]; omega),
        take_append_of_le_length (by omega), drop_append_of_le_length (by omega)]
      split at h
      · cases h
        rfl
      · cases h
  fail := by
    intro buf e h later
    rcases header_cases buf with hshort | ⟨t, i0, i1, i2, i3, l0, l1, l2, l3, rest, rfl⟩
    · rw [next_short hshort] at h
      cases h
    · simp only [cons_append]
      rw [next_header] at h ⊢
      split_ifs at h with hlarge hpart
      · rw [if_pos hlarge]
        exact h
      · rw [if_neg hlarge, if_neg (by rw [length_append]; omega),
          take_append_of_le_length (by omega)]
        split at h
        · cases h
        · exact h

theorem nextFrame_of_more {buf : Bytes} (h : next buf = .more) :
    (FrameDecoder.mk buf).nextFrame = (.ok none, { buf := buf }) := by
  rcases header_cases buf with hshort | ⟨t, i0, i1, i2, i3, l0, l1, l2, l3, rest, rfl⟩
  · exact nextFrame_short hshort
  · rw [next_header] at h
    unfold FrameDecoder.nextFrame
    dsimp only
    split_ifs at h ⊢ with hlarge hpart
    · rfl
    · split at h
      · cases h
      · cases h

theorem nextFrame_of_item {buf rest : Bytes} {f : Frame} (h : next buf = .item f rest) :
    (FrameDecoder.mk buf).nextFrame = (.ok (some f), { buf := rest }) := by
  unfold next at h
  split at h
  · cases h
  · rename_i heq
    rw [heq]
    cases h
    rfl
  · cases h

/-- Draining is what the reader of the stream does. -/
theorem drain_of_drains {buf left : Bytes} {fs : List Frame} (h : Drains next buf fs left) :
    (FrameDecoder.mk buf).drain = (.ok fs, { buf := left }) := by
  induction h with
  | stop h =>
    have hnext := nextFrame_of_more h
    rw [FrameDecoder.drain]
    split
    · rename_i heq
      rw [hnext] at heq
      cases heq
    · rename_i heq
      rw [hnext] at heq
      cases heq
      rfl
    · rename_i heq
      rw [hnext] at heq
      cases heq
  | item h _ ih =>
    have hnext := nextFrame_of_item h
    rw [FrameDecoder.drain]
    split
    · rename_i heq
      rw [hnext] at heq
      cases heq
    · rename_i heq
      rw [hnext] at heq
      cases heq
    · rename_i heq
      rw [hnext] at heq
      cases heq
      rw [ih]
      rfl

/-! ## Round trip -/

theorem fromBeBytes_toBeBytes (n : UInt32) {a b c d : UInt8} (h : toBeBytes n = [a, b, c, d]) :
    fromBeBytes a b c d = n := by
  rw [toBeBytes] at h
  cases h
  have hlt := n.toNat_lt
  rw [fromBeBytes]
  simp only [UInt8.toNat_ofNat']
  have hval : (((n.toNat / 2 ^ 24 % 2 ^ 8) * 2 ^ 8 + n.toNat / 2 ^ 16 % 2 ^ 8) * 2 ^ 8
      + n.toNat / 2 ^ 8 % 2 ^ 8) * 2 ^ 8 + n.toNat % 2 ^ 8 = n.toNat := by omega
  rw [hval]
  exact UInt32.ofNat_toNat

/-- A written frame is read, whatever follows it. -/
theorem next_encodeParts {t : UInt8} {id : UInt32} {payload : Bytes} {f : Frame}
    (hlen : payload.length ≤ maxFramePayload) (hf : frameOf t id payload = .ok f) (rest : Bytes) :
    next (encodeParts t id payload ++ rest) = .item f rest := by
  have hid := fromBeBytes_toBeBytes id rfl
  have hsize := fromBeBytes_toBeBytes (UInt32.ofNat payload.length) rfl
  have hnat : (UInt32.ofNat payload.length).toNat = payload.length := by
    rw [maxFramePayload] at hlen
    rw [UInt32.toNat_ofNat']
    omega
  have hheader : encodeParts t id payload ++ rest =
      t :: UInt8.ofNat (id.toNat / 2 ^ 24) :: UInt8.ofNat (id.toNat / 2 ^ 16) ::
        UInt8.ofNat (id.toNat / 2 ^ 8) :: UInt8.ofNat id.toNat ::
        UInt8.ofNat ((UInt32.ofNat payload.length).toNat / 2 ^ 24) ::
        UInt8.ofNat ((UInt32.ofNat payload.length).toNat / 2 ^ 16) ::
        UInt8.ofNat ((UInt32.ofNat payload.length).toNat / 2 ^ 8) ::
        UInt8.ofNat (UInt32.ofNat payload.length).toNat :: (payload ++ rest) := by
    rw [encodeParts, toBeBytes, toBeBytes]
    rfl
  rw [hheader, next_header, hid, hsize, hnat, if_neg (by omega),
    if_neg (by rw [length_append]; omega), take_left, drop_left, hf]

/-- A frame the decoder accepts. -/
def Frame.Fits : Frame → Prop
  | .data _ payload => payload.length ≤ maxFramePayload
  | _ => True

theorem next_encode {f : Frame} (h : f.Fits) (rest : Bytes) :
    next (encode f ++ rest) = .item f rest := by
  cases f with
  | opened id => exact next_encodeParts (Nat.zero_le _) rfl rest
  | data id payload => exact next_encodeParts h rfl rest
  | closed id => exact next_encodeParts (Nat.zero_le _) rfl rest

/-- **Written frames are read back.** -/
theorem drains_encode {fs : List Frame} (h : ∀ f ∈ fs, f.Fits) :
    Drains next (fs.flatMap encode) fs [] := by
  induction fs with
  | nil => exact .stop rfl
  | cons f fs ih =>
    rw [List.flatMap_cons]
    exact .item (next_encode (h f (.head _)) _) (ih fun g hg => h g (.tail _ hg))

end Thegn.Tunnel

import Thegn.Lib.Utf8

set_option autoImplicit false

/-! # The frames of the language servers and of the bridge

`thegn-svc/src/lsp/framing.rs`: a message is a header of `key: value` lines with its
`Content-Length`, an empty line, and that many bytes of UTF-8. The decoder holds in one buffer the
bytes already consumed (those before `head`) and the ones not yet read, and remembers how far the
header was searched (`scan`) and where the body starts once the header is known (`body`). The reader
asks the decoder for a message and reads another piece of the stream when there is none.
-/

namespace Thegn.Lsp

open Text

abbrev Bytes := List UInt8

def maxHeaderBytes : Nat := 8192
def maxFrameLen : Nat := 64 * 1024 * 1024
def readBytes : Nat := 8192
def framesPerTurn : Nat := 64

inductive ProtocolError
  | headerTooLong
  | bufferTooLong
  | malformedHeader
  | bodyTooLong
  | invalidUtf8
  | truncatedFrame
  deriving DecidableEq, Repr

/-- `\r\n\r\n`. -/
def headerBreak : Bytes := [13, 10, 13, 10]

def encode (body : Text) : Bytes :=
  utf8 ("Content-Length: ".toList ++ ofNat (byteLen body)) ++ headerBreak ++ utf8 body

/-! ## The header -/

/-- `text.split("\r\n")`. -/
def splitCrlf : Text → List Text
  | [] => [[]]
  | '\r' :: '\n' :: s => [] :: splitCrlf s
  | c :: s =>
    match splitCrlf s with
    | [] => [[c]]
    | l :: ls => (c :: l) :: ls

/-- `u8::is_ascii_control` of the bytes of a character. -/
def isAsciiControl (c : Char) : Bool := c.toNat < 32 || c.toNat == 127

/-- `trim_matches([' ', '\t'])`. -/
def trimBlanks (s : Text) : Text :=
  trimEndMatches (fun c => c == ' ' || c == '\t') (s.dropWhile (fun c => c == ' ' || c == '\t'))

/-- The `Content-Length` of a line's value, when none was seen before. -/
def parseLength (value : Text) (length : Option Nat) (limit : Nat) : Except ProtocolError Nat :=
  let value := trimBlanks value
  if length.isSome || value.isEmpty || !value.all Char.isDigit then .error .malformedHeader
  else
    match parseUnsigned (2 ^ 64) value with
    | none => .error .bodyTooLong
    | some len => if limit < len then .error .bodyTooLong else .ok len

/-- The loop of `parse_content_length` over the lines. -/
def parseLines (limit : Nat) : List Text → Option Nat → Except ProtocolError (Option Nat)
  | [], length => .ok length
  | line :: lines, length =>
    match splitOnceP (· == ':') line with
    | none => .error .malformedHeader
    | some (key, value) =>
      if key.isEmpty || !key.all (fun c => c.isAlphanum || c == '-')
          || value.any (fun c => isAsciiControl c && c != '\t') then .error .malformedHeader
      else if eqIgnoreAsciiCase key "content-length".toList then
        match parseLength value length limit with
        | .error e => .error e
        | .ok len => parseLines limit lines (some len)
      else parseLines limit lines length

def parseContentLength (header : Bytes) (limit : Nat) : Except ProtocolError Nat :=
  match fromUtf8 header with
  | none => .error .malformedHeader
  | some text =>
    match parseLines limit (splitCrlf text) none with
    | .error e => .error e
    | .ok none => .error .malformedHeader
    | .ok (some len) => .ok len

/-! ## The decoder -/

structure FrameDecoder where
  buf : Bytes
  head : Nat
  scan : Nat
  body : Option (Nat × Nat)
  error : Option ProtocolError
  maxFrameLen : Nat
  deriving DecidableEq

namespace FrameDecoder

def withLimit (limit : Nat) : FrameDecoder :=
  { buf := [], head := 0, scan := 0, body := none, error := none,
    maxFrameLen := min limit Lsp.maxFrameLen }

/-- The decoder that `fail` leaves. -/
def failed (d : FrameDecoder) (e : ProtocolError) : FrameDecoder :=
  { d with buf := [], head := 0, scan := 0, body := none, error := some e }

def fail {α : Type} (d : FrameDecoder) (e : ProtocolError) :
    FrameDecoder × Except ProtocolError α :=
  (d.failed e, .error e)

def compact (d : FrameDecoder) : FrameDecoder :=
  if d.head = 0 then d
  else
    { d with
      buf := d.buf.drop d.head
      scan := d.scan - d.head
      body := d.body.map (fun (start, len) => (start - d.head, len))
      head := 0 }

/-- The bytes not yet consumed. -/
def unread (d : FrameDecoder) : Nat := d.buf.length - d.head

def maxBufferBytes (d : FrameDecoder) : Nat := d.maxFrameLen + maxHeaderBytes + readBytes

def push (d : FrameDecoder) (bytes : Bytes) : FrameDecoder × Except ProtocolError Unit :=
  match d.error with
  | some e => (d, .error e)
  | none =>
    if d.maxBufferBytes - d.unread < bytes.length then d.fail .bufferTooLong
    else if d.maxBufferBytes - d.buf.length < bytes.length then
      if d.head < d.unread then d.fail .bufferTooLong
      else ({ d.compact with buf := d.compact.buf ++ bytes }, .ok ())
    else ({ d with buf := d.buf ++ bytes }, .ok ())

/-- The loop that searches the end of the header. -/
def scanHeader (d : FrameDecoder) : Except ProtocolError FrameDecoder :=
  if d.scan + 4 ≤ d.buf.length then
    if maxHeaderBytes < d.scan + 4 - d.head then .error .headerTooLong
    else if (d.buf.drop d.scan).take 4 = headerBreak then
      match parseContentLength ((d.buf.drop d.head).take (d.scan - d.head)) d.maxFrameLen with
      | .error e => .error e
      | .ok len => .ok { d with body := some (d.scan + 4, len) }
    else scanHeader { d with scan := d.scan + 1 }
  else .ok d
termination_by d.buf.length - d.scan
decreasing_by omega

/-- What a message that ends at `stop` leaves. -/
def consume (d : FrameDecoder) (stop : Nat) : FrameDecoder :=
  let d := { d with head := stop, scan := stop, body := none }
  if d.head = d.buf.length then { d with buf := [], head := 0, scan := 0 }
  else if readBytes ≤ d.head ∧ d.buf.length / 2 ≤ d.head then d.compact
  else d

/-- The message whose header is known. -/
def takeBody (d : FrameDecoder) (start len : Nat) :
    FrameDecoder × Except ProtocolError (Option Text) :=
  if d.buf.length - start < len then (d, .ok none)
  else
    match fromUtf8 ((d.buf.drop start).take len) with
    | none => d.fail .invalidUtf8
    | some body => (d.consume (start + len), .ok (some body))

def nextMessage (d : FrameDecoder) : FrameDecoder × Except ProtocolError (Option Text) :=
  match d.error with
  | some e => (d, .error e)
  | none =>
    match d.body with
    | some (start, len) => d.takeBody start len
    | none =>
      match d.scanHeader with
      | .error e => d.fail e
      | .ok d =>
        match d.body with
        | some (start, len) => d.takeBody start len
        | none => if maxHeaderBytes ≤ d.unread then d.fail .headerTooLong else (d, .ok none)

def finish (d : FrameDecoder) : FrameDecoder × Except ProtocolError Unit :=
  match d.error with
  | some e => (d, .error e)
  | none => if d.buf.length ≠ d.head then d.fail .truncatedFrame else (d, .ok ())

end FrameDecoder

/-! ## The reader -/

/-- What one `read` of the stream gives; nothing at all stands for its end. -/
inductive ReadEvent
  | interrupted
  | failed
  | bytes (chunk : Bytes)
  deriving DecidableEq

/-- `io::Error`: one of the decoder, or another one of the stream. -/
inductive ReadError
  | protocol (e : ProtocolError)
  | stream
  deriving DecidableEq

structure FramedReader where
  reader : List ReadEvent
  decoder : FrameDecoder
  turnFrames : Nat

namespace FramedReader

def withLimit (reader : List ReadEvent) (limit : Nat) : FramedReader :=
  { reader, decoder := FrameDecoder.withLimit limit, turnFrames := 0 }

/-- The end of the stream: `n == 0`. -/
def readEnd (d : FrameDecoder) (reader : List ReadEvent) :
    FramedReader × Except ReadError (Option Text) :=
  match d.finish with
  | (d, .error e) => (⟨reader, d, 0⟩, .error (.protocol e))
  | (d, .ok ()) => (⟨reader, d, 0⟩, .ok none)

/-- The loop of `read_message`. -/
def readLoop (d : FrameDecoder) (turnFrames : Nat) (reader : List ReadEvent) :
    FramedReader × Except ReadError (Option Text) :=
  match d.nextMessage with
  | (d, .error e) => (⟨reader, d, turnFrames⟩, .error (.protocol e))
  | (d, .ok (some body)) => (⟨reader, d, turnFrames + 1⟩, .ok (some body))
  | (d, .ok none) =>
    match reader with
    | [] => readEnd d []
    | .interrupted :: reader => readLoop d turnFrames reader
    | .failed :: reader => (⟨reader, d, turnFrames⟩, .error .stream)
    | .bytes chunk :: reader =>
      if chunk = [] then readEnd d reader
      else
        match d.push chunk with
        | (d, .error e) => (⟨reader, d, 0⟩, .error (.protocol e))
        | (d, .ok ()) => readLoop d 0 reader
termination_by reader.length

def readMessage (r : FramedReader) : FramedReader × Except ReadError (Option Text) :=
  readLoop r.decoder (if r.turnFrames = framesPerTurn then 0 else r.turnFrames) r.reader

/-- The results of the first `n` calls of `read_message`. -/
def calls : Nat → FramedReader → List (Except ReadError (Option Text))
  | 0, _ => []
  | n + 1, r => r.readMessage.2 :: calls n r.readMessage.1

end FramedReader

end Thegn.Lsp

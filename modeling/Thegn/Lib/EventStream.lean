import Thegn.Lib.Text
import Thegn.Lib.Run

set_option autoImplicit false

/-! # Event streams

The reader of server-sent events. A stream is cut into lines, which end in a line feed, a carriage
return or both; a line is a field, a comment, or blank, and a blank line dispatches the event of the
fields before it. What is written as `data: `, a payload without line breaks and a blank line is
read as one event with that payload, and as nothing else (`events_blocks`).
-/

namespace Thegn.EventStream

open Text Transducer List

structure Event where
  type : Text
  data : Text
  lastId : Text
  deriving DecidableEq

/-- What the reader keeps between lines. -/
structure Buffers where
  type : Text
  data : Text
  lastId : Text

def Buffers.empty : Buffers := ⟨[], [], []⟩

/-- The lines of a stream that end; `afterCr` tells that a line feed only completes a line break. -/
def linesFrom (cur : Text) (afterCr : Bool) : Text → List Text
  | [] => []
  | c :: s =>
    if c = '\n' then
      if afterCr then linesFrom cur false s else cur :: linesFrom [] false s
    else if c = '\r' then cur :: linesFrom [] true s
    else linesFrom (cur ++ [c]) false s

/-- A field; `retry` and unknown ones change no event. -/
def Buffers.field (b : Buffers) (name value : Text) : Buffers :=
  if name = "data".toList then { b with data := b.data ++ value ++ ['\n'] }
  else if name = "event".toList then { b with type := value }
  else if name = "id".toList then (if Char.ofNat 0 ∈ value then b else { b with lastId := value })
  else b

/-- A blank line: the event, if any data was sent, without the line feed after its last line. -/
def Buffers.dispatch (b : Buffers) : Option Event × Buffers :=
  (if b.data = [] then none
    else some ⟨if b.type = [] then "message".toList else b.type, b.data.dropLast, b.lastId⟩,
    { b with type := [], data := [] })

def Buffers.line (b : Buffers) : Text → Option Event × Buffers
  | [] => b.dispatch
  | ':' :: _ => (none, b)
  | line =>
    match splitOnceP (· == ':') line with
    | some (name, value) => (none, b.field name ((stripPrefix [' '] value).getD value))
    | none => (none, b.field line [])

/-- The events of lines. -/
def eventsOf (b : Buffers) (lines : List Text) : List Event :=
  (answers Buffers.line b lines).filterMap id

/-- The events of a stream, without a byte order mark. -/
def events (stream : Text) : List Event :=
  eventsOf .empty (linesFrom [] false ((stripPrefix [Char.ofNat 0xfeff] stream).getD stream))

/-! ## Blocks -/

/-- The text has no line break. -/
def OneLine (t : Text) : Prop := ∀ c ∈ t, c ≠ '\n' ∧ c ≠ '\r'

/-- A payload as it is written: one field of data and a blank line. -/
def block (payload : Text) : Text := "data: ".toList ++ payload ++ ['\n', '\n']

def plainEvent (payload : Text) : Event := ⟨"message".toList, payload, []⟩

theorem linesFrom_line {l : Text} (h : OneLine l) (cur s : Text) :
    linesFrom cur false (l ++ '\n' :: s) = (cur ++ l) :: linesFrom [] false s := by
  induction l generalizing cur with
  | nil => simp [linesFrom]
  | cons c l ih =>
    obtain ⟨hlf, hcr⟩ := h c (.head _)
    rw [cons_append, linesFrom, if_neg hlf, if_neg hcr, ih fun d hd => h d (mem_cons_of_mem c hd)]
    simp

theorem oneLine_prefix : OneLine "data: ".toList := by
  simp [OneLine]

theorem oneLine_data {payload : Text} (h : OneLine payload) :
    OneLine ("data: ".toList ++ payload) := by
  intro c hc
  rcases mem_append.mp hc with hc | hc
  · exact oneLine_prefix c hc
  · exact h c hc

theorem linesFrom_block {payload : Text} (h : OneLine payload) (s : Text) :
    linesFrom [] false (block payload ++ s) = ("data: ".toList ++ payload) :: [] ::
      linesFrom [] false s := by
  have hblock : block payload ++ s = ("data: ".toList ++ payload) ++ '\n' :: '\n' :: s :=
    append_assoc ("data: ".toList ++ payload) ['\n', '\n'] s
  have hblank : linesFrom [] false ('\n' :: s) = [] :: linesFrom [] false s := rfl
  rw [hblock, linesFrom_line (oneLine_data h), hblank]
  exact congrArg (· :: [] :: linesFrom [] false s) (nil_append _)

/-- A line of data fills the buffer. -/
theorem line_data (b : Buffers) (payload : Text) :
    b.line ("data: ".toList ++ payload) =
      (none, { b with data := b.data ++ payload ++ ['\n'] }) := by
  have hsplit : splitOnceP (· == ':') ("data: ".toList ++ payload) =
    some ("data".toList, ' ' :: payload) := rfl
  have hstrip : (stripPrefix [' '] (' ' :: payload)).getD (' ' :: payload) = payload := by
    rw [show ' ' :: payload = [' '] ++ payload from rfl, stripPrefix_append]
    rfl
  show (match splitOnceP (· == ':') ("data: ".toList ++ payload) with
    | some (name, value) =>
      ((none, b.field name ((stripPrefix [' '] value).getD value)) : Option Event × Buffers)
    | none => (none, b.field ("data: ".toList ++ payload) [])) = _
  rw [hsplit]
  show (none, b.field "data".toList ((stripPrefix [' '] (' ' :: payload)).getD (' ' :: payload))) =
    _
  rw [hstrip, Buffers.field, if_pos rfl]

theorem eventsOf_block {payload : Text} (lines : List Text) :
    eventsOf .empty (("data: ".toList ++ payload) :: [] :: lines) =
      plainEvent payload :: eventsOf .empty lines := by
  have hdata : payload ++ ['\n'] ≠ [] := by simp
  have hblank : Buffers.line ⟨[], payload ++ ['\n'], []⟩ [] =
    (some (plainEvent payload), .empty) := by
    rw [Buffers.line, Buffers.dispatch, if_neg hdata, if_pos rfl, dropLast_concat]
    rfl
  have hline : Buffers.line .empty ("data: ".toList ++ payload) =
    (none, ⟨[], payload ++ ['\n'], []⟩) := line_data .empty payload
  rw [eventsOf, answers_cons, hline, answers_cons, hblank]
  rfl

theorem eventsOf_blocks {payloads : List Text} (h : ∀ p ∈ payloads, OneLine p) :
    eventsOf .empty (linesFrom [] false (payloads.flatMap block)) = payloads.map plainEvent := by
  induction payloads with
  | nil => rfl
  | cons p payloads ih =>
    rw [List.flatMap_cons, linesFrom_block (h p mem_cons_self), eventsOf_block,
      ih fun q hq => h q (mem_cons_of_mem p hq)]
    rfl

/-- **Each block is read as one event, and there are no others.** -/
theorem events_blocks {payloads : List Text} (h : ∀ p ∈ payloads, OneLine p) :
    events (payloads.flatMap block) = payloads.map plainEvent := by
  have hmark : stripPrefix [Char.ofNat 0xfeff] (payloads.flatMap block) = none := by
    rw [Option.eq_none_iff_forall_ne_some]
    intro r hr
    rw [stripPrefix_eq_some] at hr
    cases payloads with
    | nil => cases hr
    | cons p payloads =>
      have hhead := congrArg List.head? hr
      have hd : (List.flatMap block (p :: payloads)).head? = some 'd' := rfl
      rw [hd, cons_append, List.head?_cons, Option.some.injEq] at hhead
      exact absurd hhead (by decide)
  rw [events, hmark, Option.getD_none, eventsOf_blocks h]

end Thegn.EventStream

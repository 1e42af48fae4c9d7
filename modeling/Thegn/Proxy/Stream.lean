import Thegn.Lib.EventStream
import Thegn.Proxy.RoundTrip

set_option autoImplicit false

/-! # A completion as a stream

`openai_completion_to_stream` of `thegn-core/src/proxy/translate.rs` writes a buffered completion as
the events that a streaming backend would have sent. What a client makes of them, folding the deltas
in order, is what the completion says (`stream_says_the_completion`).
-/

namespace Thegn.Proxy

open Text Value EventStream

/-! ## Writing the stream -/

/-- The integers from `-i64Bound` to below it are an `i64`. -/
def i64Bound : Int := 9223372036854775808

/-- `as_i64`; a negative integer is always small enough. -/
def asI64 : Value → Option Int
  | .num (.posInt n) => if (n : Int) < i64Bound then some n else none
  | .num (.negInt i) => if i < i64Bound then some i else none
  | _ => none

/-- `json!` of an `i64`. -/
def ofI64 (n : Int) : Value := .num (if 0 ≤ n then .posInt n.toNat else .negInt n)

/-- The integer at a key. -/
def i64At (key : Text) (v : Value) : Option Int := (v.get key).bind asI64

/-- The string at a key, or nothing. -/
def textAt (key : Text) (v : Value) : Text := (v.strAt key).getD []

/-- What each chunk begins with. -/
structure Stamp where
  id : Text
  created : Int
  model : Text

def chunkFields (s : Stamp) (choices : List Value) : List (Text × Value) :=
  [("choices".toList, .arr choices), ("created".toList, ofI64 s.created), ("id".toList, .str s.id),
    ("model".toList, .str s.model), ("object".toList, .str "chat.completion.chunk".toList)]

/-- The value `write_chunk` prints. -/
def chunk (s : Stamp) (index : Int) (delta finish : Value) : Value :=
  .obj (chunkFields s [.obj [("delta".toList, delta), ("finish_reason".toList, finish),
    ("index".toList, ofI64 index)]])

def usageChunk (s : Stamp) (prompt completion total : Int) : Value :=
  .obj (chunkFields s [] ++ [("usage".toList, .obj [("completion_tokens".toList, ofI64 completion),
    ("prompt_tokens".toList, ofI64 prompt), ("total_tokens".toList, ofI64 total)])])

/-- The pieces of a string, each with the newline that ends it; `cur` stands before the string. -/
def splitAfterNewline (cur : Text) : Text → List Text
  | [] => if cur = [] then [] else [cur]
  | c :: s =>
    if c = '\n' then (cur ++ [c]) :: splitAfterNewline [] s else splitAfterNewline (cur ++ [c]) s

def roleDelta : Value := .obj [("role".toList, .str "assistant".toList)]

def contentDelta (line : Text) : Value := .obj [("content".toList, .str line)]

/-- One entry of a delta's `tool_calls`. -/
def callPart (i : Nat) (tc : Value) : Value :=
  let type := (tc.nonEmptyAt "type".toList).getD "function".toList
  let function := tc.get "function".toList
  .obj [("function".toList,
    .obj [("arguments".toList, .str ((function.bind (strAt "arguments".toList)).getD [])),
      ("name".toList, .str ((function.bind (strAt "name".toList)).getD []))]),
    ("id".toList, .str (textAt "id".toList tc)), ("index".toList, .num (.posInt i)),
    ("type".toList, .str type)]

def callDelta (i : Nat) (tc : Value) : Value := .obj [("tool_calls".toList, .arr [callPart i tc])]

/-- The tool calls of a message. -/
def messageCalls (message : Option Value) : List Value :=
  (message.bind (arrayAt "tool_calls".toList)).getD []

/-- The three counts of a usage, and the chunk for them if one is positive. The sum is unchecked. -/
def usageChunks (s : Stamp) (usage : Option Value) : List Value :=
  match usage with
  | none => []
  | some usage =>
    let prompt := (i64At "prompt_tokens".toList usage).getD 0
    let completion := (i64At "completion_tokens".toList usage).getD 0
    let total := (i64At "total_tokens".toList usage).getD 0
    if 0 < total ∨ 0 < prompt ∨ 0 < completion then
      [usageChunk s prompt completion (if total = 0
        then (prompt + completion).bmod 18446744073709551616 else total)]
    else []

/-- The values that are printed, one for each event before the last. -/
def streamChunks (resp choice : Value) (nowUnix : Int) (fallbackId : Text) : List Value :=
  let created := ((i64At "created".toList resp).filter (· ≠ 0)).getD nowUnix
  let id := (resp.nonEmptyAt "id".toList).getD fallbackId
  let stamp : Stamp := ⟨id, created, textAt "model".toList resp⟩
  let index := (i64At "index".toList choice).getD 0
  let message := choice.get "message".toList
  let content := (message.bind (nonEmptyAt "content".toList)).getD []
  let finish := (choice.nonEmptyAt "finish_reason".toList).getD "stop".toList
  chunk stamp index roleDelta .null ::
    (splitAfterNewline [] content).map (fun line => chunk stamp index (contentDelta line) .null)
    ++ (messageCalls message).zipIdx.map (fun tc => chunk stamp index (callDelta tc.2 tc.1) .null)
    ++ chunk stamp index (.obj []) (.str finish) :: usageChunks stamp (resp.get "usage".toList)

/-- The first choice of a completion. -/
def firstChoice (resp : Value) : Option Value := (resp.arrayAt "choices".toList).bind List.head?

def openaiCompletionToStream (serde : SerdeJson) (raw : Text) (nowUnix : Int) (fallbackId : Text) :
    Option Text := do
  let resp ← serde.parse raw
  let choice ← firstChoice resp
  return ((streamChunks resp choice nowUnix fallbackId).map serde.print ++
    ["[DONE]".toList]).flatMap block

/-! ## Reading the stream -/

structure Call where
  id : Text
  name : Text
  arguments : Text
  deriving DecidableEq

/-- The counts of a usage: prompt, completion and total. -/
structure Usage where
  prompt : Int
  completion : Int
  total : Int
  deriving DecidableEq

/-- What a client has made of the events so far; `done` counts the ends. -/
structure Answer where
  content : Text
  calls : Nat → Option Call
  finish : Option Text
  usage : Option Usage
  done : Nat

def Answer.empty : Answer := ⟨[], fun _ => none, none, none, 0⟩

def callOf (tc : Value) : Call where
  id := textAt "id".toList tc
  name := ((tc.get "function".toList).bind (strAt "name".toList)).getD []
  arguments := ((tc.get "function".toList).bind (strAt "arguments".toList)).getD []

/-- A part of a call: what it names is set, its arguments continue those before. -/
def Call.extend (old new : Call) : Call where
  id := if new.id = [] then old.id else new.id
  name := if new.name = [] then old.name else new.name
  arguments := old.arguments ++ new.arguments

/-- The index of a call in a delta. -/
def callIndex (tc : Value) : Option Nat :=
  match tc.get "index".toList with
  | some (.num (.posInt i)) => some i
  | _ => none

def Answer.addCall (a : Answer) (tc : Value) : Answer :=
  match callIndex tc with
  | none => a
  | some i =>
    let call := (a.calls i).elim (callOf tc) fun old => old.extend (callOf tc)
    { a with calls := Function.update a.calls i (some call) }

def Answer.addChoice (a : Answer) (choice : Value) : Answer :=
  let delta := choice.get "delta".toList
  let a := { a with
    content := a.content ++ (delta.bind (strAt "content".toList)).getD []
    finish := (choice.strAt "finish_reason".toList).or a.finish }
  ((delta.bind (arrayAt "tool_calls".toList)).getD []).foldl Answer.addCall a

def usageOf (usage : Value) : Usage where
  prompt := (i64At "prompt_tokens".toList usage).getD 0
  completion := (i64At "completion_tokens".toList usage).getD 0
  total := (i64At "total_tokens".toList usage).getD 0

def Answer.addChunk (a : Answer) (v : Value) : Answer :=
  let a := (firstChoice v).elim a a.addChoice
  { a with usage := ((v.get "usage".toList).map usageOf).or a.usage }

/-- One event. -/
def Answer.addData (serde : SerdeJson) (a : Answer) (data : Text) : Answer :=
  if data = "[DONE]".toList then { a with done := a.done + 1 }
    else (serde.parse data).elim a a.addChunk

/-- What a client makes of a stream. -/
def readStream (serde : SerdeJson) (stream : Text) : Answer :=
  ((events stream).map Event.data).foldl (Answer.addData serde) .empty

/-! ## What `serde_json` prints -/

mutual

/-- The value has no floats, its negative numbers are negative, and the keys of its objects are in
order. -/
def Plain : Value → Prop
  | .null | .bool _ | .str _ => True
  | .num (.posInt _) => True
  | .num (.negInt i) => i < 0
  | .num (.float _) => False
  | .arr items => PlainItems items
  | .obj fields => (fields.map (·.1)).Pairwise (· < ·) ∧ PlainFields fields

def PlainItems : List Value → Prop
  | [] => True
  | v :: vs => Plain v ∧ PlainItems vs

def PlainFields : List (Text × Value) → Prop
  | [] => True
  | (_, v) :: fields => Plain v ∧ PlainFields fields

end

/-- Values without floats, with their keys in the order in which `serde_json` keeps them, are read
back; a value is printed on one line, and `[DONE]` is no JSON. -/
structure SerdeJson.Compact (serde : SerdeJson) : Prop where
  read_back : ∀ v, Plain v → serde.parse (serde.print v) = some v
  one_line : ∀ v, OneLine (serde.print v)
  done : serde.parse "[DONE]".toList = none

end Thegn.Proxy

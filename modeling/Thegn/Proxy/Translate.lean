import Thegn.Lib.Text

set_option autoImplicit false

/-! # Translating requests between protocols

The two request translators of `thegn-core/src/proxy/translate.rs`: from an Anthropic `messages`
request to an OpenAI `chat/completions` request, and back. Both build `serde_json` values, whose
objects have their keys in order; printing and parsing them is `serde_json`'s work and is a
parameter here.
-/

namespace Thegn.Proxy

open Text

/-! ## Values -/

/-- A number of `serde_json`: an unsigned or a negative integer, or a finite float with the rational
it stands for. -/
inductive Number
  | posInt (n : Nat)
  | negInt (i : Int)
  | float (value : Rat)
  deriving DecidableEq

inductive Value
  | null
  | bool (b : Bool)
  | num (n : Number)
  | str (s : Text)
  | arr (items : List Value)
  | obj (fields : List (Text × Value))

/-- `serde_json::to_string` and `serde_json::from_str`. -/
structure SerdeJson where
  print : Value → Text
  parse : Text → Option Value

def lookup (key : Text) : List (Text × Value) → Option Value
  | [] => none
  | (k, v) :: fields => if k = key then some v else lookup key fields

/-- An object whose fields, in the order of their keys, are inserted when they have a value. -/
def object (fields : List (Text × Option Value)) : Value :=
  .obj (fields.filterMap fun f => f.2.map fun v => (f.1, v))

namespace Value

def get (key : Text) : Value → Option Value
  | .obj fields => lookup key fields
  | _ => none

def asStr : Value → Option Text
  | .str s => some s
  | _ => none

def asArray : Value → Option (List Value)
  | .arr items => some items
  | _ => none

def asBool : Value → Option Bool
  | .bool b => some b
  | _ => none

def isNumber : Value → Bool
  | .num _ => true
  | _ => false

def isObject : Value → Bool
  | .obj _ => true
  | _ => false

def isNull : Value → Bool
  | .null => true
  | _ => false

/-- The string at a key. -/
def strAt (key : Text) (v : Value) : Option Text := (v.get key).bind asStr

/-- The string at a key, unless it is empty. -/
def nonEmptyAt (key : Text) (v : Value) : Option Text := (v.strAt key).filter (· ≠ [])

/-- The array at a key. -/
def arrayAt (key : Text) (v : Value) : Option (List Value) := (v.get key).bind asArray

/-- The number at a key. -/
def numberAt (key : Text) (v : Value) : Option Value := (v.get key).filter isNumber

end Value

open Value

/-- A positive integer; one that does not fit saturates. -/
def positiveInt : Value → Option Int
  | .num (.posInt n) => if n < 2 ^ 63 then (if 0 < n then some n else none) else some (2 ^ 63 - 1)
  | .num (.negInt i) => if 0 < i then some i else none
  | .num (.float q) => if 0 < q ∧ q.den = 1 then some (min q.num (2 ^ 63 - 1)) else none
  | _ => none

/-- `json!` of a positive integer. -/
def ofPositive (n : Int) : Value := .num (.posInt n.toNat)

/-- The list as an array, unless it is empty. -/
def nonEmptyArray (items : List Value) : Option Value :=
  if items = [] then none else some (.arr items)

def objectSchema : Value := .obj [("type".toList, .str "object".toList)]

/-! ## The objects that are built -/

def textBlock (text : Text) : Value :=
  .obj [("text".toList, .str text), ("type".toList, .str "text".toList)]

def toolUseBlock (id name : Text) (input : Value) : Value :=
  .obj [("id".toList, .str id), ("input".toList, input), ("name".toList, .str name),
    ("type".toList, .str "tool_use".toList)]

def toolResultBlock (id text : Text) : Value :=
  .obj [("content".toList, .str text), ("tool_use_id".toList, .str id),
    ("type".toList, .str "tool_result".toList)]

def message (role : Text) (content : Value) : Value :=
  .obj [("content".toList, content), ("role".toList, .str role)]

def toolMessage (id text : Text) : Value :=
  .obj [("content".toList, .str text), ("role".toList, .str "tool".toList),
    ("tool_call_id".toList, .str id)]

def toolCall (id name args : Text) : Value :=
  .obj [("function".toList, .obj [("arguments".toList, .str args), ("name".toList, .str name)]),
    ("id".toList, .str id), ("type".toList, .str "function".toList)]

def assistantMessage (text : Text) (calls : List Value) : Value :=
  object [("content".toList, some (.str text)), ("role".toList, some (.str "assistant".toList)),
    ("tool_calls".toList, nonEmptyArray calls)]

/-! ## From OpenAI to Anthropic -/

def bridgeDefaultMaxTokens : Int := 32768

def openaiText : Option Value → Text
  | some (.str s) => s
  | some (.arr parts) =>
    join ['\n'] (parts.filterMap fun p =>
      (p.nonEmptyAt "text".toList).or (p.nonEmptyAt "input_text".toList))
  | _ => []

def openaiSystem (msgs : List Value) : Text :=
  join ['\n', '\n'] (msgs.filterMap fun m =>
    if m.strAt "role".toList = some "system".toList then
      let text := openaiText (m.get "content".toList)
      if text = [] then none else some text
    else none)

def openaiToolInput (serde : SerdeJson) (args : Text) : Value :=
  if trim args = [] then .obj []
  else
    match serde.parse args with
    | some v => if v.isObject then v else .obj []
    | none => .obj []

/-- The block of a call of a function, and its id; other calls are dropped. -/
def toolCallBlock (serde : SerdeJson) (tc : Value) : Option (Value × Text) :=
  let type := (tc.strAt "type".toList).getD []
  if type = [] ∨ type = "function".toList then
    let id := (tc.strAt "id".toList).getD []
    let function := tc.get "function".toList
    let name := (function.bind (Value.strAt "name".toList)).getD []
    let args := (function.bind (Value.strAt "arguments".toList)).getD []
    some (toolUseBlock id name (openaiToolInput serde args), id)
  else none

/-- An empty turn of the assistant is filled with a blank. -/
def assistantBlocks (text : Text) (calls : List Value) : List Value :=
  let blocks := (if text = [] then [] else [textBlock text]) ++ calls
  if blocks.isEmpty then [textBlock [' ']] else blocks

def toolResultMessage (emitted : Finset Text) (id text : Text) : Value :=
  if id ≠ [] ∧ id ∈ emitted then message "user".toList (.arr [toolResultBlock id text])
  else
    let text := if text = [] then "[tool result]".toList else text
    message "user".toList (.arr [textBlock ("Tool result: ".toList ++ text)])

/-- One round of the loop: the message that is written, and the ids of the calls so far. -/
def openaiMessageToAnthropic (serde : SerdeJson) (emitted : Finset Text) (m : Value) :
    List Value × Finset Text :=
  let role := (m.strAt "role".toList).getD []
  if role = "system".toList then ([], emitted)
  else if role = "assistant".toList then
    let calls := ((m.arrayAt "tool_calls".toList).getD []).filterMap (toolCallBlock serde)
    let blocks := assistantBlocks (openaiText (m.get "content".toList)) (calls.map (·.1))
    ([message "assistant".toList (.arr blocks)],
      emitted ∪ ((calls.map (·.2)).filter (· ≠ [])).toFinset)
  else if role = "tool".toList then
    let id := (m.strAt "tool_call_id".toList).getD []
    ([toolResultMessage emitted id (openaiText (m.get "content".toList))], emitted)
  else ([message "user".toList (.arr [textBlock (openaiText (m.get "content".toList))])], emitted)

def openaiMessagesToAnthropic (serde : SerdeJson) (emitted : Finset Text) : List Value → List Value
  | [] => []
  | m :: msgs =>
    let (out, emitted) := openaiMessageToAnthropic serde emitted m
    out ++ openaiMessagesToAnthropic serde emitted msgs

def openaiTool (t : Value) : Option Value :=
  let type := (t.strAt "type".toList).getD []
  if type ≠ [] ∧ type ≠ "function".toList then none
  else
    let f := t.get "function".toList
    let name := (f.bind (Value.strAt "name".toList)).getD []
    let desc := (f.bind (Value.strAt "description".toList)).getD []
    let schema := (f.bind (Value.get "parameters".toList)).getD objectSchema
    some (.obj [("description".toList, .str desc), ("input_schema".toList, schema),
      ("name".toList, .str name)])

def openaiToolsToAnthropic (tools : Option Value) : List Value :=
  ((tools.bind asArray).getD []).filterMap openaiTool

def openaiToolChoice : Option Value → Option Value
  | none => none
  | some .null => none
  | some (.str s) =>
    if s = "auto".toList then some (.obj [("type".toList, .str "auto".toList)])
    else if s = "required".toList then some (.obj [("type".toList, .str "any".toList)])
    else none
  | some raw =>
    if raw.strAt "type".toList = some "function".toList then
      ((raw.get "function".toList).bind (nonEmptyAt "name".toList)).map fun name =>
        .obj [("name".toList, .str name), ("type".toList, .str "tool".toList)]
    else none

def openaiStops : Option Value → List Text
  | some (.str s) => [s]
  | some (.arr items) => items.filterMap asStr
  | _ => []

/-- The translation of a parsed request. -/
def openaiBodyToAnthropic (serde : SerdeJson) (req : Value) (model : Text) : Value :=
  let msgs := (req.arrayAt "messages".toList).getD []
  let completion :=
    ((req.get "max_completion_tokens".toList).bind positiveInt).getD bridgeDefaultMaxTokens
  let maxTokens := ((req.get "max_tokens".toList).bind positiveInt).getD completion
  let stream := ((req.get "stream".toList).bind asBool).getD false
  let system := openaiSystem msgs
  object [("max_tokens".toList, some (ofPositive maxTokens)),
    ("messages".toList, some (.arr (openaiMessagesToAnthropic serde ∅ msgs))),
    ("model".toList, some (.str model)),
    ("stop_sequences".toList, nonEmptyArray ((openaiStops (req.get "stop".toList)).map .str)),
    ("stream".toList, if stream then some (.bool true) else none),
    ("system".toList, if system = [] then none else some (.str system)),
    ("temperature".toList, req.numberAt "temperature".toList),
    ("tool_choice".toList, openaiToolChoice (req.get "tool_choice".toList)),
    ("tools".toList, nonEmptyArray (openaiToolsToAnthropic (req.get "tools".toList))),
    ("top_p".toList, req.numberAt "top_p".toList)]

def openaiToAnthropic (serde : SerdeJson) (raw model : Text) : Option Value :=
  (serde.parse raw).map fun req => openaiBodyToAnthropic serde req model

/-! ## From Anthropic to OpenAI -/

/-- The text of a text block that has one. -/
def blockText (b : Value) : Option Text :=
  if b.strAt "type".toList = some "text".toList then b.nonEmptyAt "text".toList else none

def anthropicText : Option Value → Text
  | some (.str s) => s
  | some (.arr blocks) => join ['\n'] (blocks.filterMap blockText)
  | _ => []

/-- The arguments of a call, as a string. -/
def toolArgs (serde : SerdeJson) (input : Option Value) : Text :=
  let input := input.getD (.obj [])
  if input.isNull then "\x7b\x7d".toList else serde.print input

/-- The call of a `tool_use` block. -/
def blockCall (serde : SerdeJson) (b : Value) : Option Value :=
  if b.strAt "type".toList = some "tool_use".toList then
    some (toolCall ((b.strAt "id".toList).getD []) ((b.strAt "name".toList).getD [])
      (toolArgs serde (b.get "input".toList)))
  else none

/-- The message of a `tool_result` block. -/
def blockResult (b : Value) : Option Value :=
  if b.strAt "type".toList = some "tool_result".toList then
    some (toolMessage ((b.strAt "tool_use_id".toList).getD [])
      (anthropicText (b.get "content".toList)))
  else none

/-- The messages of one Anthropic message. -/
def anthropicMessageToOpenai (serde : SerdeJson) (m : Value) : List Value :=
  let role := (m.strAt "role".toList).getD "user".toList
  match m.get "content".toList with
  | some (.str s) => [message role (.str s)]
  | some (.arr blocks) =>
    if role = "assistant".toList then
      [assistantMessage (join ['\n'] (blocks.filterMap blockText))
        (blocks.filterMap (blockCall serde))]
    else
      blocks.filterMap blockResult
        ++ (if blocks.filterMap blockText = [] then []
          else [message "user".toList (.str (join ['\n'] (blocks.filterMap blockText)))])
  | _ => []

def anthropicTool (t : Value) : Value :=
  let params := ((t.get "input_schema".toList).filter fun v => !v.isNull).getD objectSchema
  .obj [("function".toList,
    .obj [("description".toList, .str ((t.strAt "description".toList).getD [])),
      ("name".toList, .str ((t.strAt "name".toList).getD [])), ("parameters".toList, params)]),
    ("type".toList, .str "function".toList)]

def anthropicToolChoice (raw : Option Value) : Option Value :=
  raw.bind fun raw =>
    let type := raw.strAt "type".toList
    if type = some "auto".toList then some (.str "auto".toList)
    else if type = some "any".toList then some (.str "required".toList)
    else if type = some "tool".toList then
      some (.obj [("function".toList,
        .obj [("name".toList, .str ((raw.strAt "name".toList).getD []))]),
        ("type".toList, .str "function".toList)])
    else none

/-- The translation of a parsed request. -/
def anthropicBodyToOpenai (serde : SerdeJson) (req : Value) : Value :=
  let system := anthropicText (req.get "system".toList)
  let msgs := (if system = [] then [] else [message "system".toList (.str system)])
    ++ ((req.arrayAt "messages".toList).getD []).flatMap (anthropicMessageToOpenai serde)
  let tools := (req.arrayAt "tools".toList).getD []
  object [("max_tokens".toList, ((req.get "max_tokens".toList).bind positiveInt).map ofPositive),
    ("messages".toList, some (.arr msgs)),
    ("model".toList, some ((req.get "model".toList).getD (.str []))),
    ("stop".toList, nonEmptyArray ((req.arrayAt "stop_sequences".toList).getD [])),
    ("stream".toList, some (.bool false)),
    ("temperature".toList, req.numberAt "temperature".toList),
    ("tool_choice".toList, if tools = [] then none
      else anthropicToolChoice (req.get "tool_choice".toList)),
    ("tools".toList, nonEmptyArray (tools.map anthropicTool)),
    ("top_p".toList, req.numberAt "top_p".toList)]

def anthropicToOpenai (serde : SerdeJson) (raw : Text) : Option Value :=
  (serde.parse raw).map (anthropicBodyToOpenai serde)

end Thegn.Proxy

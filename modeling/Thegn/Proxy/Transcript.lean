import Thegn.Proxy.Translate

set_option autoImplicit false

/-! # Transcripts

What an Anthropic request says: its system text, settings and tool definitions, and the transcript
of its messages; and which requests are conversations.
-/

namespace Thegn.Proxy

open Text Value

/-! ## What a request says -/

inductive Content
  | text (text : Text)
  | toolUse (id name : Text) (input : Value)
  | toolResult (id text : Text)

structure Item where
  role : Text
  content : Content

def blockContent (b : Value) : Option Content :=
  let type := b.strAt "type".toList
  if type = some "text".toList then some (.text ((b.strAt "text".toList).getD []))
  else if type = some "tool_use".toList then
    some (.toolUse ((b.strAt "id".toList).getD []) ((b.strAt "name".toList).getD [])
      ((b.get "input".toList).getD (.obj [])))
  else if type = some "tool_result".toList then
    some (.toolResult ((b.strAt "tool_use_id".toList).getD [])
      (anthropicText (b.get "content".toList)))
  else none

/-- Texts that follow each other are joined by newlines. -/
def joinTexts : List Content → List Content
  | [] => []
  | .text t :: rest =>
    match joinTexts rest with
    | .text u :: rest' => .text (t ++ '\n' :: u) :: rest'
    | rest' => .text t :: rest'
  | c :: rest => c :: joinTexts rest

def messageItems (m : Value) : List Item :=
  let role := (m.strAt "role".toList).getD []
  match m.get "content".toList with
  | some (.str s) => [⟨role, .text s⟩]
  | some (.arr blocks) => (joinTexts (blocks.filterMap blockContent)).map fun c => ⟨role, c⟩
  | _ => []

def transcript (req : Value) : List Item :=
  ((req.arrayAt "messages".toList).getD []).flatMap messageItems

def systemText (req : Value) : Text := anthropicText (req.get "system".toList)

def stopSequences (req : Value) : List Text :=
  ((req.arrayAt "stop_sequences".toList).getD []).filterMap asStr

/-- Name, description and schema of a tool, with the defaults for what is missing. -/
def toolDefinition (t : Value) : Text × Text × Value :=
  ((t.strAt "name".toList).getD [], (t.strAt "description".toList).getD [],
    ((t.get "input_schema".toList).filter fun v => !v.isNull).getD objectSchema)

def toolDefinitions (req : Value) : List (Text × Text × Value) :=
  ((req.arrayAt "tools".toList).getD []).map toolDefinition

/-- The number that a JSON number stands for. -/
def Number.value : Number → Rat
  | .posInt n => n
  | .negInt i => i
  | .float q => q

/-! ## Conversations -/

structure ToolUse where
  id : Text
  name : Text
  input : Value

inductive Turn
  | userText (s : Text)
  | userBlocks (results : List (Text × Text)) (texts : List Text)
  | assistantText (s : Text)
  | assistantBlocks (texts : List Text) (uses : List ToolUse)

/-- A text block that is not empty. -/
def IsText (b : Value) (t : Text) : Prop :=
  b.strAt "type".toList = some "text".toList ∧ b.strAt "text".toList = some t ∧ t ≠ []

/-- A `tool_use` block with an id and an object as input. -/
structure IsUse (b : Value) (u : ToolUse) : Prop where
  type : b.strAt "type".toList = some "tool_use".toList
  id : b.strAt "id".toList = some u.id
  name : (b.strAt "name".toList).getD [] = u.name
  input : b.get "input".toList = some u.input
  id_ne : u.id ≠ []
  object : u.input.isObject = true

/-- A `tool_result` block with a text. -/
structure IsResult (b : Value) (r : Text × Text) : Prop where
  type : b.strAt "type".toList = some "tool_result".toList
  id : b.strAt "tool_use_id".toList = some r.1
  text : anthropicText (b.get "content".toList) = r.2
  text_ne : r.2 ≠ []

/-- The messages of a conversation: a string that is not empty, or a list of blocks, with tool
results before texts for the user, and texts before calls for the assistant. -/
inductive IsTurn (m : Value) : Turn → Prop
  | userText {s : Text} (hrole : m.strAt "role".toList = some "user".toList)
      (hcontent : m.get "content".toList = some (.str s)) (hs : s ≠ []) : IsTurn m (.userText s)
  | userBlocks {rs ts : List Value} {results : List (Text × Text)} {texts : List Text}
      (hrole : m.strAt "role".toList = some "user".toList)
        (hcontent : m.get "content".toList = some (.arr (rs ++ ts)))
      (hrs : List.Forall₂ IsResult rs results) (hts : List.Forall₂ IsText ts texts) :
        IsTurn m (.userBlocks results texts)
  | assistantText {s : Text} (hrole : m.strAt "role".toList = some "assistant".toList)
      (hcontent : m.get "content".toList = some (.str s)) (hs : s ≠ []) :
        IsTurn m (.assistantText s)
  | assistantBlocks {ts us : List Value} {texts : List Text} {uses : List ToolUse}
      (hrole : m.strAt "role".toList = some "assistant".toList)
      (hcontent : m.get "content".toList = some (.arr (ts ++ us)))
      (hts : List.Forall₂ IsText ts texts) (hus : List.Forall₂ IsUse us uses) :
        IsTurn m (.assistantBlocks texts uses)

def Turn.uses : Turn → List ToolUse
  | .assistantBlocks _ uses => uses
  | _ => []

def Turn.results : Turn → List (Text × Text)
  | .userBlocks results _ => results
  | _ => []

/-- Every tool result is of a call in an earlier message; `seen` are the calls so far. -/
def Answered (seen : List Text) : List Turn → Prop
  | [] => True
  | t :: turns => (∀ r ∈ t.results, r.1 ∈ seen) ∧ Answered (seen ++ t.uses.map (·.id)) turns

/-- The messages of the request are these turns. -/
structure Conversation (req : Value) (turns : List Turn) : Prop where
  messages : ∃ msgs, req.arrayAt "messages".toList = some msgs ∧ List.Forall₂ IsTurn msgs turns
  answered : Answered [] turns

/-- The transcript in which a message of the assistant without blocks reads as a blank. -/
def filledItems (m : Value) : List Item :=
  match m.get "content".toList with
  | some (.arr []) =>
    if m.strAt "role".toList = some "assistant".toList then [⟨"assistant".toList, .text [' ']⟩]
      else messageItems m
  | _ => messageItems m

def filledTranscript (req : Value) : List Item :=
  ((req.arrayAt "messages".toList).getD []).flatMap filledItems

end Thegn.Proxy

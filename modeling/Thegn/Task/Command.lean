import Thegn.Lib.Shell

set_option autoImplicit false

/-! # Command templates

Templates that become a shell command (`thegn-core/src/agent_task.rs`): every value is quoted when
it is put in, and a template with a placeholder inside quotes is refused.
-/

/-! ## Prompt templates

Templates with `{var}` placeholders (`thegn-core/src/agent_task.rs`): the parser, where a doubled
brace is a literal one, and the renderer without shell quoting.
-/

namespace Thegn.Task

open Text

/-- A template that cannot be used as written. -/
inductive TemplateError
  | unterminated
  | emptyPlaceholder
  | unknownVar (name : Text) (valid : List Text)
  | quotedPlaceholder (name : Text)
  deriving DecidableEq

/-- One span of a template. -/
inductive Piece
  | lit (text : Text)
  | var (name : Text)
  deriving DecidableEq

/-- Literal text collected so far, as a span. -/
def flushLit (lit : Text) : List Piece := if lit = [] then [] else [.lit lit]

/-- The parser from inside literal text (`none`) or inside a placeholder (`some name`). -/
def parseFrom : Option Text → Text → List Char → Except TemplateError (List Piece)
  | none, lit, [] => .ok (flushLit lit)
  | some _, _, [] => .error .unterminated
  | some name, lit, c :: rest =>
    if c = '}' then
      if trim name = [] then .error .emptyPlaceholder
      else (parseFrom none [] rest).map (fun ps => flushLit lit ++ .var (trim name) :: ps)
    else parseFrom (some (name ++ [c])) lit rest
  | none, lit, '{' :: '{' :: rest => parseFrom none (lit ++ ['{']) rest
  | none, lit, '}' :: '}' :: rest => parseFrom none (lit ++ ['}']) rest
  | none, lit, '{' :: rest => parseFrom (some []) lit rest
  | none, lit, c :: rest => parseFrom none (lit ++ [c]) rest

/-- The spans of a template. -/
def parse (template : Text) : Except TemplateError (List Piece) := parseFrom none [] template

/-- Variable bindings, sorted by name as in the source's ordered map. -/
structure TaskVars where
  entries : List (Text × Text)

def TaskVars.new : TaskVars := { entries := [] }

/-- Bind a variable, replacing any previous value. -/
def TaskVars.set (vars : TaskVars) (key value : Text) : TaskVars :=
  { entries := insert vars.entries }
where
  insert : List (Text × Text) → List (Text × Text)
    | [] => [(key, value)]
    | e :: es =>
      if key = e.1 then (key, value) :: es
      else if key < e.1 then (key, value) :: e :: es
      else e :: insert es

def TaskVars.get (vars : TaskVars) (key : Text) : Option Text := vars.entries.lookup key

def TaskVars.names (vars : TaskVars) : List Text := vars.entries.map Prod.fst

/-- One span rendered. -/
def renderPiece (vars : TaskVars) : Piece → Except TemplateError Text
  | .lit text => .ok text
  | .var name =>
    match vars.get name with
    | some value => .ok value
    | none => .error (.unknownVar name vars.names)

/-- Render a prompt template: values are inserted as they are. -/
def renderPrompt (template : Text) (vars : TaskVars) : Except TemplateError Text := do
  let pieces ← parse template
  let texts ← pieces.mapM (renderPiece vars)
  return texts.flatten

end Thegn.Task

namespace Thegn.Task

open Text

/-! ## Quoting -/

/-- A character that `sh_quote` leaves alone. -/
def isBareChar (c : Char) : Bool := c.isAlphanum || "-_./=:@%+,".toList.contains c

/-- `sh_quote` (`thegn-core/src/util.rs`). -/
def shQuote (s : Text) : Text :=
  if s ≠ [] ∧ s.all isBareChar = true then s
  else '\'' :: s.flatMap (fun c => if c = '\'' then ['\'', '\\', '\'', '\''] else [c]) ++ ['\'']

/-! ## Rendering -/

def renderCommandPiece (vars : TaskVars) : Piece → Except TemplateError Text
  | .lit text => .ok text
  | .var name =>
    match vars.get name with
    | some value => .ok (shQuote value)
    | none => .error (.unknownVar name vars.names)

def promptVar : Text := "prompt".toList

def substituteCommand (template prompt : Text) (vars : TaskVars) : Except TemplateError Text := do
  let pieces ← parse template
  let texts ← pieces.mapM (renderCommandPiece (vars.set promptVar prompt))
  return texts.flatten

/-! ## Validation -/

/-- The quotes the lint believes to be in. -/
structure Quotes where
  inSingle : Bool
  inDouble : Bool
  deriving DecidableEq

/-- The quotes after a literal span. -/
def Quotes.scan (q : Quotes) (escaped : Bool) : Text → Quotes
  | [] => q
  | c :: rest =>
    if escaped then q.scan false rest
    else if c = '\\' ∧ q.inSingle = false then q.scan true rest
    else if c = '\'' ∧ q.inDouble = false then { q with inSingle := !q.inSingle }.scan false rest
    else if c = '"' ∧ q.inSingle = false then { q with inDouble := !q.inDouble }.scan false rest
    else q.scan false rest

def quotedIn (q : Quotes) : List Piece → Option Text
  | [] => none
  -- an escape does not reach beyond its span
  | .lit text :: rest => quotedIn (q.scan false text) rest
  | .var name :: rest => if q.inSingle || q.inDouble then some name else quotedIn q rest

def quotedPlaceholder (template : Text) : Option Text :=
  match parse template with
  | .ok pieces => quotedIn { inSingle := false, inDouble := false } pieces
  | .error _ => none

/-- The first placeholder that is not allowed. -/
def unknownIn (allowed : List Text) : List Piece → Option Text
  | [] => none
  | .lit _ :: rest => unknownIn allowed rest
  | .var name :: rest => if name ∈ allowed then unknownIn allowed rest else some name

def validateTemplate (template : Text) (allowed : List Text) (isCommand : Bool) :
    Except TemplateError Unit := do
  let pieces ← parse template
  match unknownIn allowed pieces with
  | some name => throw (.unknownVar name allowed)
  | none =>
    if isCommand then
      match quotedPlaceholder template with
      | some name => throw (.quotedPlaceholder name)
      | none => pure ()
    else pure ()

/-! ## The template as the shell should read it -/

/-- The spans of a template that has any. -/
def piecesOf (template : Text) : List Piece :=
  match parse template with
  | .ok pieces => pieces
  | .error _ => []

def Piece.syms (value : Text → Text) : Piece → List Shell.Sym
  | .lit text => text.map .chr
  | .var name => [.val (value name)]

/-- The template with each placeholder standing for its value. -/
def commandSyms (value : Text → Text) (pieces : List Piece) : List Shell.Sym :=
  pieces.flatMap (Piece.syms value)

theorem validate_command {template : Text} {allowed : List Text}
    (h : validateTemplate template allowed true = .ok ()) :
    parse template = .ok (piecesOf template) ∧
      quotedIn { inSingle := false, inDouble := false } (piecesOf template) = none := by
  unfold validateTemplate at h
  cases hparse : parse template with
  | error e =>
    rw [hparse] at h
    cases h
  | ok pieces =>
    have hpieces : piecesOf template = pieces := by rw [piecesOf, hparse]
    have hquoted : quotedPlaceholder template =
        quotedIn { inSingle := false, inDouble := false } pieces := by
      rw [quotedPlaceholder, hparse]
    rw [hpieces]
    refine ⟨rfl, ?_⟩
    rw [hparse] at h
    change (match unknownIn allowed pieces with
      | some name => _
      | none => _) = _ at h
    cases hunknown : unknownIn allowed pieces with
    | some name =>
      rw [hunknown] at h
      cases h
    | none =>
      rw [hunknown] at h
      dsimp only at h
      rw [if_pos rfl, hquoted] at h
      cases hq : quotedIn { inSingle := false, inDouble := false } pieces with
      | none => rfl
      | some name =>
        rw [hq] at h
        cases h

end Thegn.Task

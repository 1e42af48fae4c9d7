import Thegn.Lib.Words

set_option autoImplicit false

/-! # Reading and writing a rebase todo

The model of `parse_todo` and `serialize_todo` (`thegn-core/src/rebase_todo.rs`). A line is read as
an action word, long or short, and its arguments; a line that is not understood is kept verbatim.
What is written back always has the long word and single spaces.
-/

namespace Thegn.Rebase

open Text

/-! ## Entries -/

/-- One sequencer instruction. -/
inductive TodoAction
  | pick
  | reword
  | edit
  | squash
  | fixup
  | fixupC
  | drop
  | break
  | exec (cmd : Text)
  | label (name : Text)
  | reset (name : Text)
  | merge (rest : Text)
  | updateRef (name : Text)
  | noop
  | unknown (line : Text)
  deriving DecidableEq

/-- One line of the todo. `sha` and `subject` are empty unless the action is about a commit. -/
structure TodoEntry where
  action : TodoAction
  sha : Text
  subject : Text
  deriving DecidableEq

def entry (action : TodoAction) : TodoEntry := { action, sha := [], subject := [] }

/-! ## Reading -/

/-- `<sha> [subject]`. -/
def commitEntry (action : TodoAction) (rest : Text) : Option TodoEntry :=
  if rest = [] then none
  else
    let (sha, subject) := splitWord rest
    some { action, sha, subject }

/-- The action word, in its long or short form. -/
def isWord (word : Text) (long short : String) : Bool := word == long.toList || word == short.toList

/-- `fixup`, with a flag or without. -/
def parseFixup (rest : Text) : Option TodoEntry :=
  match (stripPrefix "-C ".toList rest).or (stripPrefix "-c ".toList rest) with
  | some rest => commitEntry .fixupC (trimStart rest)
  | none => if rest = "-C".toList ∨ rest = "-c".toList then none else commitEntry .fixup rest

/-- An action with one argument, the rest of the line. -/
def argEntry (action : Text → TodoAction) (rest : Text) : Option TodoEntry :=
  if rest = [] then none else some (entry (action rest))

/-- An action that stands alone. -/
def bareEntry (action : TodoAction) (rest : Text) : Option TodoEntry :=
  if rest = [] then some (entry action) else none

/-- The meaning of an action word and what follows it. -/
def parseWord (word rest : Text) : Option TodoEntry :=
  if isWord word "pick" "p" then commitEntry .pick rest
  else if isWord word "reword" "r" then commitEntry .reword rest
  else if isWord word "edit" "e" then commitEntry .edit rest
  else if isWord word "squash" "s" then commitEntry .squash rest
  else if isWord word "drop" "d" then commitEntry .drop rest
  else if isWord word "fixup" "f" then parseFixup rest
  else if isWord word "exec" "x" then argEntry .exec rest
  else if isWord word "label" "l" then argEntry .label rest
  else if isWord word "reset" "t" then argEntry .reset rest
  else if isWord word "merge" "m" then argEntry .merge rest
  else if isWord word "update-ref" "u" then argEntry .updateRef rest
  else if isWord word "break" "b" then bareEntry .break rest
  else if word = "noop".toList then bareEntry .noop rest
  else none

/-- One trimmed line that is neither blank nor a comment; `none` when it is not understood. -/
def parseLine (line : Text) : Option TodoEntry :=
  let (word, rest) := splitWord line
  parseWord word rest

/-- Blank lines and comments. -/
def isNoise (trimmed : Text) : Bool := trimmed == [] || startsWith trimmed ['#']

/-- One line of the file. -/
def readLine (raw : Text) : Option TodoEntry :=
  let line := trimEndMatches (· == '\r') raw
  let trimmed := trim line
  if isNoise trimmed then none
  else some ((parseLine trimmed).getD (entry (.unknown line)))

def parseTodo (text : Text) : List TodoEntry := (lines text).filterMap readLine

/-! ## Writing -/

def pushCommit (word : String) (e : TodoEntry) : Text :=
  word.toList ++ ' ' :: (e.sha ++ if e.subject = [] then [] else ' ' :: e.subject)

def pushArg (word : String) (arg : Text) : Text := word.toList ++ ' ' :: arg

/-- The line of an entry. -/
def writeEntry (e : TodoEntry) : Text :=
  match e.action with
  | .pick => pushCommit "pick" e
  | .reword => pushCommit "reword" e
  | .edit => pushCommit "edit" e
  | .squash => pushCommit "squash" e
  | .fixup => pushCommit "fixup" e
  | .fixupC => pushCommit "fixup -C" e
  | .drop => pushCommit "drop" e
  | .exec cmd => pushArg "exec" cmd
  | .label name => pushArg "label" name
  | .reset name => pushArg "reset" name
  | .merge rest => pushArg "merge" rest
  | .updateRef name => pushArg "update-ref" name
  | .break => "break".toList
  | .noop => "noop".toList
  | .unknown line => line

def serializeTodo (entries : List TodoEntry) : Text := unlines (entries.map writeEntry)

end Thegn.Rebase

import Thegn.Lib.Text

set_option autoImplicit false

/-! # Parsing and rendering a diff

The data model of a `git diff` (`PatchLine`, `PatchHunk`, `PatchFile`), the line-driven
parser `parsePatch` and the printer `renderPatch` (`thegn-core/src/patch.rs`).

The parser is a fold of `parseStep` over the lines. Its state is the list of finished files,
the file section being built, the open hunk, and whether the section's header region is over.
A `diff --git ` line opens a section, a line starting with `@@` closes the header region and
opens a hunk when `parseHunkHeader` accepts it; inside a hunk the first character of a line
decides its kind, and a line with any other first character ends the hunk. Counts in hunk
headers are read but never used.

The numbers of a hunk header are `u32`; they are kept as naturals, below `2 ^ 32` whenever
they come from the parser.
-/

namespace Thegn.Patch

open Text

/-- The words a file section starts with. Irreducible, with `atAt`, so that unification never
evaluates the literal; the letters are read off by `diffGit_eq` and `atAt_eq`. -/
@[irreducible] def diffGit : Text := "diff --git ".toList

/-- The first characters of a hunk header. -/
@[irreducible] def atAt : Text := "@@".toList

theorem diffGit_eq : diffGit = ['d', 'i', 'f', 'f', ' ', '-', '-', 'g', 'i', 't', ' '] := by
  unfold diffGit
  decide

theorem atAt_eq : atAt = ['@', '@'] := by
  unfold atAt
  decide

/-! ## Data model -/

/-- What a body line of a hunk is. `noNewlineOld` is a `\ No newline at end of file` marker
after a `-` line or after a context line, `noNewlineNew` one after a `+` line. -/
inductive LineKind
  | context
  | add
  | del
  | noNewlineOld
  | noNewlineNew
  deriving DecidableEq, Repr

/-- One body line: the text without its marker character, a trailing `\r` included. -/
structure PatchLine where
  kind : LineKind
  text : Text
  deriving DecidableEq

/-- One `@@`-delimited hunk. `headerLine` is the header as parsed; it is empty for a hunk
built by the program, and then synthesized from the numbers. -/
structure PatchHunk where
  oldStart : Nat
  oldCount : Nat
  newStart : Nat
  newCount : Nat
  heading : Text
  headerLine : Text
  lines : List PatchLine
  deriving DecidableEq

inductive FileKind
  | modified
  | added
  | deleted
  | binary
  | modeOnly
  | submodule
  deriving DecidableEq, Repr

/-- One file section: the lines before the first `@@`, the two paths, the kind, the hunks. -/
structure PatchFile where
  header : List Text
  oldPath : Text
  newPath : Text
  kind : FileKind
  hunks : List PatchHunk
  deriving DecidableEq

/-! ## Hunk headers -/

/-- `u32` parsing. -/
def parseU32 (s : Text) : Option Nat := parseUnsigned (2 ^ 32) s

/-- One side of a hunk range, `-a[,b]` or `+c[,d]`; the count defaults to `1`. -/
def parseRange (part : Text) (sign : Char) : Option (Nat × Nat) := do
  let rest ← stripPrefix [sign] part
  match splitOnce [','] rest with
  | some (start, count) => return (← parseU32 start, ← parseU32 count)
  | none => return (← parseU32 rest, 1)

/-- `@@ -a[,b] +c[,d] @@[ heading]`, as the four numbers and the heading. -/
def parseHunkHeader (line : Text) : Option (Nat × Nat × Nat × Nat × Text) := do
  let rest ← stripPrefix (atAt ++ [' ']) line
  let (ranges, tail) ← splitOnce (' ' :: atAt) rest
  match (ranges.splitOn ' ').filter (· ≠ []) with
  -- exactly two ranges, whatever the spaces around them
  | [old, new] =>
    let (oldStart, oldCount) ← parseRange old '-'
    let (newStart, newCount) ← parseRange new '+'
    return (oldStart, oldCount, newStart, newCount, (stripPrefix [' '] tail).getD tail)
  | _ => none

/-- The synthesized header `@@ -a,b +c,d @@[ heading]`. -/
def formatHunkHeader (oldStart oldCount newStart newCount : Nat) (heading : Text) : Text :=
  atAt ++ [' ', '-'] ++ ofNat oldStart ++ [','] ++ ofNat oldCount ++ [' ', '+'] ++ ofNat newStart
    ++ [','] ++ ofNat newCount ++ [' '] ++ atAt ++ (if heading = [] then [] else ' ' :: heading)

/-! ## Paths and file kinds -/

/-- Strip a leading `a/` or `b/`. -/
def stripAb (s : Text) : Text :=
  ((stripPrefix "a/".toList s).orElse (fun _ => stripPrefix "b/".toList s)).getD s

/-- The path of a `---` or `+++` line; `none` for `/dev/null`. -/
def headerPath (raw : Text) : Option Text :=
  let raw := (stripSuffix ['\r'] raw).getD raw
  -- git ends a path that has spaces with a tab
  let raw := (stripSuffix ['\t'] raw).getD raw
  if raw = "/dev/null".toList then none
  else
    let raw := ((stripPrefix ['"'] raw).bind (stripSuffix ['"'])).getD raw
    some (stripAb raw)

/-- Split at a byte offset of the UTF-8 encoding; `none` inside a character. -/
def splitAtByte : Nat → Text → Option (Text × Text)
  | 0, s => some ([], s)
  | _ + 1, [] => none
  | n + 1, c :: s =>
    if c.utf8Size ≤ n + 1 then
      (splitAtByte (n + 1 - c.utf8Size) s).map (fun lr => (c :: lr.1, lr.2))
    else none

/-- Number of bytes of the UTF-8 encoding. -/
def byteLen (s : Text) : Nat := (s.map Char.utf8Size).sum

/-- The path pair after `diff --git `. A quoted pair is split at the quotes, an unquoted one in
the middle when the two halves name the same path, else at its first space. -/
def diffLinePaths (rest : Text) : Option (Text × Text) :=
  let rest := (stripSuffix ['\r'] rest).getD rest
  match stripPrefix ['"'] rest with
  | some inner => do
      let (first, rem) ← splitOnce ['"'] inner
      let rem ← stripPrefix [' '] rem
      let rem ← stripPrefix ['"'] rem
      let second ← stripSuffix ['"'] rem
      return (stripAb first, stripAb second)
  | none =>
    -- with renames off both paths are the same, so they meet in the middle byte
    let atMiddle : Option (Text × Text) :=
      if 5 ≤ byteLen rest ∧ byteLen rest % 2 = 1 then
        match splitAtByte (byteLen rest / 2) rest with
        | some (left, ' ' :: right) =>
          match stripPrefix "a/".toList left, stripPrefix "b/".toList right with
          | some a, some b => if a = b then some (a, b) else none
          | _, _ => none
        | _ => none
      else none
    atMiddle.orElse fun _ => do
      let (l, r) ← splitOnce [' '] rest
      return (stripAb l, stripAb r)

/-- A header line that names the gitlink mode `160000`. -/
def isSubmoduleHeader (line : Text) : Bool :=
  (splitWhitespace line).any (fun part => eqIgnoreAsciiCase part "160000".toList)
    && (startsWith line "index ".toList || startsWith line "new file mode ".toList
      || startsWith line "deleted file mode ".toList || startsWith line "old mode ".toList
      || startsWith line "new mode ".toList)

/-! ## Building a file section -/

/-- A file section under construction. `minus` and `plus` are the `---` and `+++` paths: `none`
when the line was not seen, `some none` for `/dev/null`. -/
structure FileBuilder where
  header : List Text
  diffRest : Text
  minus : Option (Option Text)
  plus : Option (Option Text)
  added : Bool
  deleted : Bool
  binary : Bool
  submodule : Bool
  hunks : List PatchHunk

def FileBuilder.new (line rest : Text) : FileBuilder :=
  { header := [line], diffRest := rest, minus := none, plus := none, added := false,
    deleted := false, binary := false, submodule := false, hunks := [] }

/-- Record a header line, reading paths and file kind off it. -/
def FileBuilder.absorbHeader (b : FileBuilder) (line : Text) : FileBuilder :=
  let b :=
    match stripPrefix "--- ".toList line with
    | some rest => { b with minus := some (headerPath rest) }
    | none =>
      match stripPrefix "+++ ".toList line with
      | some rest => { b with plus := some (headerPath rest) }
      | none =>
        if startsWith line "new file mode".toList then { b with added := true }
        else if startsWith line "deleted file mode".toList then { b with deleted := true }
        else if isSubmoduleHeader line then { b with submodule := true }
        else if startsWith line "Binary files ".toList
            || startsWith line "GIT binary patch".toList then { b with binary := true }
        else b
  { b with header := b.header ++ [line] }

/-- The kind of a finished section. -/
def FileBuilder.kind (b : FileBuilder) : FileKind :=
  -- a gitlink is also recognised by the body of its hunk
  let submodule := b.submodule
    || (b.hunks.flatMap PatchHunk.lines).any
        (fun line => startsWith line.text "Subproject commit ".toList)
  if submodule then .submodule
  else if b.binary then .binary
  else if b.added || b.minus == some none then .added
  else if b.deleted || b.plus == some none then .deleted
  else if b.hunks.isEmpty then .modeOnly
  else .modified

def FileBuilder.finish (b : FileBuilder) : PatchFile :=
  let guess := diffLinePaths b.diffRest
  let oldPath := (b.minus.join.orElse (fun _ => guess.map Prod.fst)).getD []
  let newPath := (b.plus.join.orElse (fun _ => guess.map Prod.snd)).getD []
  { header := b.header
    -- an added file has no old path of its own, a deleted one no new path
    oldPath := if b.kind = .added then newPath else oldPath
    newPath := if b.kind = .deleted then oldPath else newPath
    kind := b.kind
    hunks := b.hunks }

/-! ## The parser -/

structure ParseState where
  files : List PatchFile
  file : Option FileBuilder
  hunk : Option PatchHunk
  inHunks : Bool

def ParseState.init : ParseState := { files := [], file := none, hunk := none, inHunks := false }

/-- Move the open hunk, if any, to its file section. -/
def ParseState.closeHunk (st : ParseState) : ParseState :=
  match st.hunk, st.file with
  | some h, some f =>
    { st with file := some { f with hunks := f.hunks ++ [h] }, hunk := none }
  | _, _ => { st with hunk := none }

/-- Move the open file section, if any, to the finished files. -/
def ParseState.closeFile (st : ParseState) : ParseState :=
  match st.file with
  | some f => { st with files := st.files ++ [f.finish], file := none }
  | none => st

/-- The kind of a body line, from its first character and, for a marker, the line before. -/
def bodyKind (prev : Option LineKind) (c : Char) : Option LineKind :=
  if c = ' ' then some .context
  else if c = '+' then some .add
  else if c = '-' then some .del
  else if c = '\\' then some (if prev = some .add then .noNewlineNew else .noNewlineOld)
  else none

/-- A body line of a hunk whose last line so far has kind `prev`; `none` is junk. -/
def bodyLine (prev : Option LineKind) : Text → Option PatchLine
  | [] => none
  | c :: text => (bodyKind prev c).map (fun kind => { kind, text })

def PatchHunk.lastKind (h : PatchHunk) : Option LineKind := h.lines.getLast?.map PatchLine.kind

/-- The parser's reaction to one line. -/
def parseStep (st : ParseState) (line : Text) : ParseState :=
  match stripPrefix diffGit line with
  | some rest =>
    { st.closeHunk.closeFile with file := some (FileBuilder.new line rest), inHunks := false }
  | none =>
    match st.file with
    -- noise before the first section
    | none => st
    | some f =>
      if startsWith line atAt then
        -- even a malformed header ends the header region
        let st := { st.closeHunk with inHunks := true }
        match parseHunkHeader line with
        | some (oldStart, oldCount, newStart, newCount, heading) =>
          { st with hunk := some {
            oldStart, oldCount, newStart, newCount, heading, headerLine := line, lines := [] } }
        | none => st
      else
        match st.hunk with
        | some h =>
          match bodyLine h.lastKind line with
          | some l => { st with hunk := some { h with lines := h.lines ++ [l] } }
          -- junk ends the hunk
          | none => st.closeHunk
        | none => if st.inHunks then st else { st with file := some (f.absorbHeader line) }

/-- The whole parser. -/
def parsePatch (diff : Text) : List PatchFile :=
  (((segments diff).foldl parseStep ParseState.init).closeHunk.closeFile).files

/-! ## The printer -/

def markerChar : LineKind → Char
  | .context => ' '
  | .add => '+'
  | .del => '-'
  | .noNewlineOld => '\\'
  | .noNewlineNew => '\\'

/-- The body of a hunk, each line newline-terminated. -/
def pushBody (lines : List PatchLine) : Text :=
  unlines (lines.map fun l => markerChar l.kind :: l.text)

def renderHunk (h : PatchHunk) : Text :=
  (if h.headerLine = [] then
    formatHunkHeader h.oldStart h.oldCount h.newStart h.newCount h.heading
  else h.headerLine) ++ ['\n'] ++ pushBody h.lines

def renderPatch (files : List PatchFile) : Text :=
  files.flatMap fun f => unlines f.header ++ f.hunks.flatMap renderHunk

end Thegn.Patch

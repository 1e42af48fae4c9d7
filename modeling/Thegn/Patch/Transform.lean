import Thegn.Patch.Parse

set_option autoImplicit false

/-! # Partial patches

`transform` builds the patch for the selected lines of a file (`thegn-core/src/patch.rs`). Each
hunk is rewritten by `transformHunkLines`, a fold over its lines: forward, an unselected `+` line
is dropped and an unselected `-` line becomes context; in reverse the two signs change places.
Converted context is held in `pending` and written after the selected additions of its change
block. Hunks without a selected change are left out, the others get a new header.
-/

namespace Thegn.Patch

open Text

/-! ## Selections -/

/-- Selected line addresses of one file: hunk index and line index within the hunk. -/
structure Selection where
  set : Finset (Nat × Nat)

def Selection.contains (sel : Selection) (hunk line : Nat) : Bool := decide ((hunk, line) ∈ sel.set)

/-- The lines of a hunk, each with whether it is selected. -/
def Selection.marks (sel : Selection) (hunkIdx : Nat) (lines : List PatchLine) :
    List (PatchLine × Bool) :=
  lines.zipIdx.map (fun p => (p.1, sel.contains hunkIdx p.2))

/-! ## Rewriting a hunk -/

structure RewriteState where
  out : List PatchLine
  pending : List PatchLine
  sawDroppedNewSide : Bool
  prevDropped : Bool

def RewriteState.init : RewriteState :=
  { out := [], pending := [], sawDroppedNewSide := false, prevDropped := false }

/-- The reaction to one line of the hunk. -/
def rewriteStep (reverse : Bool) (st : RewriteState) (p : PatchLine × Bool) : RewriteState :=
  let (line, selected) := p
  match line.kind with
  | .context =>
    { out := st.out ++ st.pending ++ [line], pending := [], sawDroppedNewSide := false,
      prevDropped := false }
  | .noNewlineOld | .noNewlineNew =>
    if st.prevDropped then st
    else { st with out := st.out ++ st.pending ++ [line], pending := [] }
  | .add | .del =>
    -- the side whose unselected lines turn into context
    let oldSide := (line.kind == .del) != reverse
    if selected then
      if oldSide || st.sawDroppedNewSide then
        { st with out := st.out ++ st.pending ++ [line], pending := [], prevDropped := false }
      else { st with out := st.out ++ [line], prevDropped := false }
    else if oldSide then
      { st with pending := st.pending ++ [{ kind := .context, text := line.text }],
                prevDropped := false }
    else { st with sawDroppedNewSide := true, prevDropped := true }

def transformHunkLines (hunk : PatchHunk) (hunkIdx : Nat) (sel : Selection) (reverse : Bool) :
    List PatchLine :=
  let st := (sel.marks hunkIdx hunk.lines).foldl (rewriteStep reverse) RewriteState.init
  st.out ++ st.pending

/-! ## Headers of partial whole-file changes -/

/-- A `---` or `+++` line from the other side's path text, its leading `pre` changed to `post`
(`from` and `to` in the source). -/
def mirrorSide (survivingBody pre post : Text) : Text :=
  let marker := if post = "a/".toList then "--- ".toList else "+++ ".toList
  match stripPrefix ['"'] survivingBody with
  | some inner =>
    match stripPrefix pre inner with
    | some rest => marker ++ ['"'] ++ post ++ rest
    | none => marker ++ ['"'] ++ post ++ inner
  | none =>
    match stripPrefix pre survivingBody with
    | some rest => marker ++ post ++ rest
    | none => marker ++ post ++ survivingBody

/-- What the header says of its two sides: whether each is `/dev/null`, and its path text. -/
structure SideScan where
  minusDevnull : Bool
  plusDevnull : Bool
  minusReal : Option Text
  plusReal : Option Text

def SideScan.step (sc : SideScan) (line : Text) : SideScan :=
  let isDevnull (rest : Text) : Bool := (stripSuffix ['\r'] rest).getD rest == "/dev/null".toList
  match stripPrefix "--- ".toList line with
  | some rest =>
    if isDevnull rest then { sc with minusDevnull := true }
    else { sc with minusReal := some rest }
  | none =>
    match stripPrefix "+++ ".toList line with
    | some rest =>
      if isDevnull rest then { sc with plusDevnull := true }
      else { sc with plusReal := some rest }
    | none => sc

/-- The replacement `---` and `+++` lines: `none` when the header has no `/dev/null` side with a
surviving other side. -/
def fixedSides (header : List Text) : Option (Option Text × Option Text) :=
  let sc := header.foldl SideScan.step
    { minusDevnull := false, plusDevnull := false, minusReal := none, plusReal := none }
  if sc.plusDevnull then do
    let real ← sc.minusReal
    return (none, some (mirrorSide real "a/".toList "b/".toList))
  else if sc.minusDevnull then do
    let real ← sc.plusReal
    return (some (mirrorSide real "b/".toList "a/".toList), none)
  else none

/-- The lines of a header rewritten with the replacement sides. -/
def rewriteHeaderLine (fixed : Option Text × Option Text) (line : Text) : Option Text :=
  if startsWith line "deleted file mode".toList || startsWith line "new file mode".toList then none
  else if startsWith line "--- ".toList && fixed.1.isSome then fixed.1
  else if startsWith line "+++ ".toList && fixed.2.isSome then fixed.2
  else some line

/-- Downgrade a whole-file add or delete header to a plain modification. -/
def rewritePartialWholeFileHeader (header : List Text) : Option Text :=
  (fixedSides header).map (fun fixed => unlines (header.filterMap (rewriteHeaderLine fixed)))

/-! ## The partial patch of a file -/

/-- Number of body lines of two kinds. -/
def countKinds (lines : List PatchLine) (a b : LineKind) : Nat :=
  lines.countP (fun l => l.kind == a || l.kind == b)

def hasChanges (lines : List PatchLine) : Bool :=
  lines.any (fun l => l.kind == .add || l.kind == .del)

structure TransformState where
  body : Text
  emitted : Bool
  delta : Int
  emittedContext : Bool

/-- A side without lines is numbered by the line before it. -/
def zeroAdjust (oldCount newCount : Nat) : Int :=
  if oldCount = 0 then 1 else if newCount = 0 then -1 else 0

/-- The new start of an emitted hunk; `as u32` keeps the low 32 bits. -/
def emittedNewStart (oldStart : Nat) (delta : Int) (oldCount newCount : Nat) : Nat :=
  (max ((oldStart : Int) + delta + zeroAdjust oldCount newCount) 0).toNat % 2 ^ 32

/-- The reaction to one hunk. -/
def transformHunk (sel : Selection) (reverse : Bool) (st : TransformState)
    (p : PatchHunk × Nat) : TransformState :=
  let (hunk, hi) := p
  let lines := transformHunkLines hunk hi sel reverse
  let oldCount := countKinds lines .context .del
  let newCount := countKinds lines .context .add
  let delta := st.delta + ((newCount : Int) - oldCount)
  if hasChanges lines then
    { body := st.body ++ formatHunkHeader hunk.oldStart (oldCount % 2 ^ 32)
        (emittedNewStart hunk.oldStart st.delta oldCount newCount) (newCount % 2 ^ 32) hunk.heading
        ++ ['\n'] ++ pushBody lines
      emitted := true
      delta := delta
      emittedContext := st.emittedContext || lines.any (fun l => l.kind == .context) }
  else { st with delta := delta }

/-- **The partial patch** for the selected changes of `file`; `none` when none is selected. -/
def transform (file : PatchFile) (sel : Selection) (reverse : Bool) : Option Text :=
  if file.kind = .binary ∨ file.kind = .submodule then none
  else
    let st := file.hunks.zipIdx.foldl (transformHunk sel reverse)
      { body := [], emitted := false, delta := 0, emittedContext := false }
    if st.emitted then
      let header :=
        if st.emittedContext && ((!reverse && file.kind == .deleted)
            || (reverse && file.kind == .added)) then rewritePartialWholeFileHeader file.header
        else none
      some (header.getD (unlines file.header) ++ st.body)
    else none

end Thegn.Patch

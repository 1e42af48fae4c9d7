import Thegn.Lib.Effect
import Thegn.Task.Command

set_option autoImplicit false

/-! # The fold engine of the merge queue

`fold` lands an ordered list of branches onto a running tip (`thegn-core/src/fold.rs`). Git is
behind the operations of `FoldGit`; they work on a state of their own, so that any sequence of
answers is a possible behaviour, and may fail. A branch lands as one merge or squash commit, or
commit by commit (`rebaseReplay`); a conflict defers it and leaves the running tip alone.
-/

namespace Thegn.Fold

open Text Effect

abbrev Oid := Text

/-- A conflict of submodule pointers. -/
structure SubmoduleConflict where
  path : Text
  oursSha : Text
  theirsSha : Text
  deriving DecidableEq

inductive MergeOutcome
  | clean (tree : Oid)
  | conflict (paths : List Text)
  | submoduleConflict (paths : List Text) (conflicts : List SubmoduleConflict)
  deriving DecidableEq

structure Author where
  name : Text
  email : Text
  date : Text
  deriving DecidableEq

/-- A commit considered for landing. `parent` is the merge base for replaying it, `parents` all its
parents in order. -/
structure CommitMeta where
  oid : Oid
  parent : Oid
  parents : List Oid
  message : Text
  author : Author
  deriving DecidableEq

/-- The first line of the message. -/
def CommitMeta.subject (c : CommitMeta) : Text :=
  let line := c.message.takeWhile (· ≠ '\n')
  trim ((stripSuffix ['\r'] line).getD line)

/-- A branch queued to land. -/
structure Branch where
  name : Text
  tip : Oid
  deriving DecidableEq

inductive ConflictKind
  | textual
  | regenerable
  | unsupportedMergeHistory
  deriving DecidableEq

structure Deferred where
  branch : Branch
  paths : List Text
  kind : ConflictKind
  submoduleConflicts : List SubmoduleConflict
  deriving DecidableEq

structure Landed where
  branch : Branch
  commit : Oid
  deriving DecidableEq

structure FoldPlan where
  original : Oid
  finalTip : Oid
  landed : List Landed
  deferred : List Deferred
  deriving DecidableEq

inductive LandStrategy
  | merge
  | squash
  | rebase
  deriving DecidableEq

structure LandOpts where
  strategy : LandStrategy
  messageTemplate : Text
  target : Text

/-- The walk of a branch was not the chain from the merge base to its tip. -/
structure IncoherentCommitWalk where
  branch : Text
  reason : Text
  deriving DecidableEq

inductive Error
  | git (message : Text)
  | incoherent (walk : IncoherentCommitWalk)
  deriving DecidableEq

/-! ## Git -/

/-- The operations of git, on a state `σ`. -/
structure FoldGit (σ : Type) where
  mergeTree : Oid → Oid → Eff σ Error MergeOutcome
  commitTree : Oid → List Oid → Text → Eff σ Error Oid
  mergeTreeBase : Oid → Oid → Oid → Eff σ Error MergeOutcome
  commitTreeAuthor : Oid → List Oid → Text → Author → Eff σ Error Oid
  mergeBase : Oid → Oid → Eff σ Error (Option Oid)
  commits : Oid → Oid → Eff σ Error (List CommitMeta)

/-! ## Classifying conflicts -/

def isRegenerable (path : Text) (regeneratePaths : List Text) : Bool :=
  regeneratePaths.any fun entry =>
    match stripPrefix "**/".toList entry with
    | some rest =>
      rest ≠ [] && !contains rest ['*']
        && (path == rest || (stripSuffix rest path).any (fun pre => pre.getLast? == some '/'))
    | none => !contains entry ['*'] && entry == path

/-- Regenerable when there are conflicted paths and every one of them is a regenerate-path. -/
def classify (paths regeneratePaths : List Text) : ConflictKind :=
  if paths ≠ [] ∧ paths.all (fun p => isRegenerable p regeneratePaths) then .regenerable
  else .textual

/-! ## Messages -/

def mergeMsg (b : Branch) : Text := "Merge branch '".toList ++ b.name ++ "' (fold-actor)".toList

def squashMsg (b : Branch) : Text := "Squash branch '".toList ++ b.name ++ "' (fold-actor)".toList

def subjectsBlock (subjects : List Text) : Text :=
  join ['\n'] (subjects.map (fun s => "- ".toList ++ s))

section

variable {σ : Type} (git : FoldGit σ)

/-- The subjects of the commits that would land. -/
def subjects (tip branchTip : Oid) : Eff σ Error (List Text) := do
  let base ← git.mergeBase tip branchTip
  let commits ← git.commits (base.getD tip) branchTip
  return commits.map CommitMeta.subject

/-- The variables of a message template; the subjects are only looked up when it asks for them. -/
def landVars (tip : Oid) (b : Branch) (opts : LandOpts) (tmpl : Text) : Eff σ Error Task.TaskVars :=
  let vars := (Task.TaskVars.new.set "branch".toList b.name).set "target".toList opts.target
  if contains tmpl "subjects".toList then do
    let subjects ← subjects git tip b.tip
    return vars.set "subjects".toList (subjectsBlock subjects)
  else return vars

/-- The message of a merge or squash commit. -/
def landMessage (tip : Oid) (b : Branch) (opts : LandOpts) (squash : Bool) : Eff σ Error Text :=
  let tmpl := trim opts.messageTemplate
  let default := if squash then squashMsg b else mergeMsg b
  if tmpl = [] then
    if squash then do
      let subjects ← subjects git tip b.tip
      return default ++ (if subjects = [] then [] else "\n\n".toList ++ subjectsBlock subjects)
    else return default
  else do
    let vars ← landVars git tip b opts tmpl
    return match Task.renderPrompt tmpl vars with
      | .ok text => text
      | .error _ => default

/-! ## Replaying a branch -/

/-- What folding one branch came to. -/
inductive One
  | landed (commit : Oid)
  | deferred (paths : List Text) (submoduleConflicts : List SubmoduleConflict)
  | unsupportedMergeHistory

/-- One commit of the walk has `expected` as its sole parent and as its replay parent. -/
def verifyParent (index : Nat) (expected : Oid) (c : CommitMeta) : Except Text Unit :=
  let solo := match c.parents with
    | [parent] => eqIgnoreAsciiCase parent expected
    | _ => false
  if !solo then
    .error ("commit at index ".toList ++ ofNat index ++ " expected sole parent ".toList ++ expected
      ++ ", found [".toList ++ join ", ".toList c.parents ++ [']'])
  else if !eqIgnoreAsciiCase c.parent expected then
    .error ("commit at index ".toList ++ ofNat index ++
      " expected replay parent ".toList ++ expected
      ++ ", found ".toList ++ c.parent)
  else .ok ()

/-- The commits from `index` on, each the child of the one before; the last one is `tip`. -/
def verifyFrom (tip : Oid) (index : Nat) (previous : CommitMeta) :
    List CommitMeta → Except Text Unit
  | [] =>
    if eqIgnoreAsciiCase previous.oid tip then .ok ()
    else .error ("commit at index ".toList ++ ofNat (index - 1) ++ " expected tip ".toList ++ tip
      ++ ", found ".toList ++ previous.oid)
  | c :: rest => do
      verifyParent index previous.oid c
      verifyFrom tip (index + 1) c rest

/-- The walk is exactly the chain from `base`, exclusive, to `tip`. -/
def verifyLinearWalk (base tip : Oid) : List CommitMeta → Except Text Unit
  | [] =>
    if eqIgnoreAsciiCase base tip then .ok ()
    else .error "empty walk but the merge base is not the tip".toList
  | first :: rest => do
      verifyParent 0 base first
      verifyFrom tip 1 first rest

/-- Replay commits one at a time onto the running commit; the first conflict defers the branch. -/
def replayFrom (running : Oid) : List CommitMeta → Eff σ Error One
  | [] => return .landed running
  | c :: rest => do
      match ← git.mergeTreeBase c.parent running c.oid with
      | .clean tree => do
          let next ← git.commitTreeAuthor tree [running] c.message c.author
          replayFrom next rest
      | .conflict paths => return .deferred paths []
      | .submoduleConflict paths conflicts => return .deferred paths conflicts

def rebaseReplay (tip : Oid) (b : Branch) : Eff σ Error One := do
  match ← git.mergeBase tip b.tip with
  | none => return .unsupportedMergeHistory
  | some base => do
      let commits ← git.commits base b.tip
      if commits.any (fun c => c.parents.isEmpty || 1 < c.parents.length) then
        return .unsupportedMergeHistory
      else
        match verifyLinearWalk base b.tip commits with
        | .error reason => throw (.incoherent { branch := b.name, reason })
        | .ok () => replayFrom git tip commits

/-! ## The fold -/

/-- Merge and squash: one commit with the merged tree. -/
def landMerged (tip : Oid) (b : Branch) (opts : LandOpts) (squash : Bool) : Eff σ Error One := do
  match ← git.mergeTree tip b.tip with
  | .clean tree => do
      let msg ← landMessage git tip b opts squash
      let commit ← git.commitTree tree (if squash then [tip] else [tip, b.tip]) msg
      return .landed commit
  | .conflict paths => return .deferred paths []
  | .submoduleConflict paths conflicts => return .deferred paths conflicts

/-- Fold one branch onto `tip`. -/
def foldOne (tip : Oid) (b : Branch) (opts : LandOpts) : Eff σ Error One :=
  match opts.strategy with
  | .merge => landMerged git tip b opts false
  | .squash => landMerged git tip b opts true
  | .rebase => rebaseReplay git tip b

structure FoldState where
  tip : Oid
  landed : List Landed
  deferred : List Deferred

/-- The reaction to what folding `b` came to. -/
def FoldState.record (regeneratePaths : List Text) (st : FoldState) (b : Branch) : One → FoldState
  | .landed commit =>
    { st with tip := commit, landed := st.landed ++ [{ branch := b, commit }] }
  | .deferred paths submoduleConflicts =>
    { st with
      deferred := st.deferred ++ [{
        branch := b
        paths := paths
        kind := if submoduleConflicts = [] then classify paths regeneratePaths else .textual
        submoduleConflicts := submoduleConflicts }] }
  | .unsupportedMergeHistory =>
    { st with
      deferred := st.deferred ++ [{
        branch := b
        paths := []
        kind := .unsupportedMergeHistory
        submoduleConflicts := [] }] }

def foldStep (regeneratePaths : List Text) (opts : LandOpts) (st : FoldState) (b : Branch) :
    Eff σ Error FoldState := do
  let one ← foldOne git st.tip b opts
  return st.record regeneratePaths b one

/-- **The fold**: land the branches in order onto a running tip that starts at `startTip`. -/
def fold (startTip : Oid) (branches : List Branch) (regeneratePaths : List Text) (opts : LandOpts) :
    Eff σ Error FoldPlan := do
  let st ← branches.foldlM (foldStep git regeneratePaths opts)
    { tip := startTip, landed := [], deferred := [] }
  return { original := startTip, finalTip := st.tip, landed := st.landed, deferred := st.deferred }

end

end Thegn.Fold

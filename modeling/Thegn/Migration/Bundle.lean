import Thegn.Dispatch.Status

set_option autoImplicit false

/-! # Rows that move between profiles

The carriers of `thegn-core/src/session_migration.rs` and the form in which the target stores them:
workers that were active are parked, locators of the source are dropped, and with the default policy
the content history too.
-/

namespace Thegn.Migration

open Text Dispatch

/-! ## Paths -/

/-- `std::path::Component` on Unix. -/
inductive Component
  | rootDir
  | curDir
  | parentDir
  | normal (name : Text)
  deriving DecidableEq

/-- A part between slashes; an empty one and a dot name nothing. -/
def componentOf (part : Text) : Option Component :=
  if part = [] ∨ part = ['.'] then none
  else if part = ['.', '.'] then some .parentDir
  else some (.normal part)

/-- `Path::components`: only a leading dot is kept. -/
def components (path : Text) : List Component :=
  let parts := path.splitOn '/'
  if path.head? = some '/' then .rootDir :: parts.filterMap componentOf
  else if parts.head? = some ['.'] then .curDir :: parts.filterMap componentOf
  else parts.filterMap componentOf

def isAbsolute (path : Text) : Bool := path.head? == some '/'

/-- `Path::starts_with`. -/
def pathStartsWith (path base : Text) : Bool := (components base).isPrefixOf (components path)

/-- A working directory that lies lexically inside the moved worktree. -/
def insideWorktree (worktreePath cwd : Text) : Bool :=
  !worktreePath.isEmpty && isAbsolute cwd && pathStartsWith cwd worktreePath &&
    !(components cwd).any fun c => c == .parentDir || c == .curDir

/-! ## Carriers -/

/-- A `BTreeMap<u32, String>`. -/
structure PaneCwds where
  entries : List (UInt32 × Text)
  sorted : entries.Pairwise fun a b => a.1 < b.1
  deriving DecidableEq

def PaneCwds.filter (m : PaneCwds) (p : Text → Bool) : PaneCwds where
  entries := m.entries.filter fun e => p e.2
  sorted := m.sorted.filter _

/-- How `serde_json` reads and writes the working directories of a tab. -/
structure CwdCodec where
  decode : Text → Option PaneCwds
  encode : PaneCwds → Text

/-- What is written is read back. -/
def CwdCodec.RoundTrips (codec : CwdCodec) : Prop := ∀ m, codec.decode (codec.encode m) = some m

structure MigrationWorktree where
  worktree : Text
  sessionName : Text
  tabName : Text
  repoRoot : Text
  branch : Text
  agent : Text
  createdAt : Int
  location : Text
  position : Int
  sandboxBackend : Option Text
  observedBackend : Option Text
  folderId : Option Int
  envName : Option Text
  deriving DecidableEq

structure MigrationTab where
  sessionName : Text
  groupName : Text
  ordinal : Int
  title : Text
  paneTree : Text
  focusedPane : Int
  paneCwds : Text
  paneCmds : Text
  paneSessions : Text
  scrollbackSnapshot : Text
  deriving DecidableEq

structure MigrationGroup where
  sessionName : Text
  name : Text
  kind : Text
  worktree : Text
  ordinal : Int
  activeTab : Int
  tabs : List MigrationTab
  deriving DecidableEq

structure MigrationUiState where
  scope : Text
  key : Text
  value : Option Text
  deriving DecidableEq

structure MigrationDispatch where
  sourceId : Int
  issueId : Text
  worktreePath : Text
  agentName : Text
  dispatchedAtMs : Int
  /-- The stored value, as it is. -/
  status : Text
  stage : Option Text
  parentId : Option Int
  sessionId : Option Text
  artifactPath : Option Text
  note : Option Text
  chunkPath : Option Text
  report : Option Text
  chunkScope : Option Text
  deriving DecidableEq

structure MigrationNote where
  sourceId : Int
  dispatchId : Int
  createdAtMs : Int
  text : Text
  deriving DecidableEq

structure MigrationBundle where
  sourceProfile : Text
  targetProfile : Text
  sessionName : Text
  worktreePath : Text
  worktree : Option MigrationWorktree
  groups : List MigrationGroup
  uiState : List MigrationUiState
  dispatches : List MigrationDispatch
  notes : List MigrationNote
  pinState : Option Text
  pinUpdatedAt : Option Int
  deriving DecidableEq

inductive HistoryPolicy
  | drop
  | included
  deriving DecidableEq

/-! ## The imported form -/

def migratedHead : Text := "[migrated while ".toList

def migratedTail : Text := ": not resumed]".toList

def migratedNote (status : Text) (note : Option Text) : Text :=
  let head := migratedHead ++ trim status ++ migratedTail
  match note with
  | some note => if note ≠ [] then head ++ ' ' :: note else head
  | none => head

def isMigrationPrefix (note : Text) : Bool :=
  match (stripPrefix migratedHead note).bind (stripSuffix migratedTail) with
  | none => false
  | some status => (AgentDispatchStatus.parse status).isActive && migratedNote status none == note

def importedDispatch (row : MigrationDispatch) : MigrationDispatch :=
  let imported := { row with sessionId := none, artifactPath := none, chunkPath := none }
  if (AgentDispatchStatus.parse row.status).isActive then
    { imported with
      status := AgentDispatchStatus.abandoned.asStr
      note := some (migratedNote row.status row.note) }
  else imported

def scopedPaneCwds (codec : CwdCodec) (paneCwds worktreePath : Text) : Text :=
  if paneCwds = [] then []
  else
    match codec.decode paneCwds with
    | none => []
    | some cwds => codec.encode (cwds.filter (insideWorktree worktreePath))

/-- What is kept of a row's note without its history. -/
def droppedNote (source : MigrationDispatch) : Option Text :=
  if (AgentDispatchStatus.parse source.status).isActive then some (migratedNote source.status none)
  else if source.status = AgentDispatchStatus.abandoned.asStr ∧
    source.note.any isMigrationPrefix then
    source.note
  else none

def MigrationTab.scoped (codec : CwdCodec) (worktreePath : Text) (tab : MigrationTab) :
    MigrationTab :=
  { tab with paneCwds := scopedPaneCwds codec tab.paneCwds worktreePath }

def MigrationTab.dropHistory (tab : MigrationTab) : MigrationTab :=
  { tab with scrollbackSnapshot := [], paneCmds := [] }

def MigrationGroup.mapTabs (f : MigrationTab → MigrationTab) (group : MigrationGroup) :
    MigrationGroup :=
  { group with tabs := group.tabs.map f }

def importedBundle (codec : CwdCodec) (bundle : MigrationBundle) (history : HistoryPolicy) :
    MigrationBundle :=
  let imported :=
    { bundle with
      dispatches := bundle.dispatches.map importedDispatch
      groups := bundle.groups.map (.mapTabs (.scoped codec bundle.worktreePath)) }
  match history with
  | .included => imported
  | .drop =>
    { imported with
      groups := imported.groups.map (.mapTabs .dropHistory)
      dispatches := (bundle.dispatches.zip imported.dispatches).map fun (source, target) =>
        { target with report := none, note := droppedNote source }
      notes := [] }

end Thegn.Migration

import Thegn.Migration.Fingerprint

set_option autoImplicit false

/-! # Planning a migration

What a target holds already is compared with the form the importer would write, by a digest of the
rows: `plan_migration`, `target_subset` and `FingerprintMaterial` of
`thegn-core/src/session_migration.rs`.
-/

namespace Thegn.Migration

open Text Dispatch Rows

/-! ## Carriers in order -/

def MigrationGroup.rank (g : MigrationGroup) : Int ×ₗ Text := toLex (g.ordinal, g.name)

def MigrationUiState.rank (row : MigrationUiState) : Text ×ₗ Text := toLex (row.scope, row.key)

/-- Put the carriers of a bundle in order. -/
def makeBundle (b : MigrationBundle) : MigrationBundle :=
  { b with
    groups := (sortOn MigrationGroup.rank b.groups).map fun g =>
      { g with tabs := sortOn MigrationTab.ordinal g.tabs }
    uiState := sortOn MigrationUiState.rank b.uiState
    dispatches := sortOn MigrationDispatch.sourceId b.dispatches
    notes := sortOn MigrationNote.rank b.notes }

structure MigrationTarget where
  worktree : Option MigrationWorktree
  groups : List MigrationGroup
  uiState : List MigrationUiState
  dispatches : List MigrationDispatch
  notes : List MigrationNote
  pinState : Option Text
  pinUpdatedAt : Option Int

/-! ## The decision -/

inductive MigrationConflict
  | group (name : Text)
  | uiState (key : Text)
  | pinState
  | priorImport
  deriving DecidableEq

structure MigrationPlan where
  bundle : MigrationBundle
  target : MigrationTarget
  fingerprint : Text
  resumed : Bool
  history : HistoryPolicy

/-- The tabs of the first group with the name of the given one. -/
def tabsUnder (groups : List MigrationGroup) (group : MigrationGroup) : List MigrationTab :=
  match groups.find? fun c => c.sessionName = group.sessionName && c.name = group.name with
  | some c => c.tabs
  | none => []

/-- The rows of a target that a bundle would own. -/
def targetSubset (b : MigrationBundle) (target : MigrationTarget) : MigrationBundle :=
  let names := b.groups.map MigrationGroup.name
  let groups := target.groups.filter fun g => g.sessionName = b.sessionName && names.contains g.name
  makeBundle
    { b with
      worktree := target.worktree
      groups := groups.map fun group => { group with tabs := tabsUnder target.groups group }
      uiState := target.uiState.filter fun row =>
        (b.uiState.map fun r => (r.scope, r.key)).contains (row.scope, row.key)
      dispatches := target.dispatches.filter fun d => d.worktreePath = b.worktreePath
      notes := target.notes
      pinState := if b.pinState.isSome then target.pinState else none
      pinUpdatedAt := target.pinUpdatedAt }

def hasPriorRows (b : MigrationBundle) : Bool :=
  !b.groups.isEmpty || !b.uiState.isEmpty || !b.dispatches.isEmpty || b.pinState.isSome

/-- A group of the target under the name of an imported one, with other contents. -/
def groupConflict (target : MigrationTarget) (source : MigrationGroup) : Bool :=
  (target.groups.find? fun g => g.sessionName = source.sessionName && g.name = source.name).any
    fun g => sanitizedGroup g ≠ sanitizedGroup source

def uiConflict (target : MigrationTarget) (source : MigrationUiState) : Bool :=
  (target.uiState.find? fun row => row.scope = source.scope && row.key = source.key).any
    fun row => row.value ≠ source.value

def pinConflict (target : MigrationTarget) (b : MigrationBundle) : Bool :=
  match b.pinState, target.pinState with
  | some source, some existing => source ≠ existing
  | _, _ => false

section Digest

variable (codec : CwdCodec) (digest : Text → Text)

def fingerprint (b : MigrationBundle) : Text := digest (FingerprintMaterial.fromBundle b).json

def planMigration (bundle : MigrationBundle) (target : MigrationTarget) (history : HistoryPolicy) :
    Except MigrationConflict MigrationPlan :=
  let imported := importedBundle codec bundle history
  match imported.groups.find? (groupConflict target) with
  | some g => .error (.group g.name)
  | none =>
    match bundle.uiState.find? (uiConflict target) with
    | some row => .error (.uiState row.key)
    | none =>
      if pinConflict target bundle then .error .pinState
      else
        let subset := targetSubset bundle target
        let resumed :=
          fingerprint digest subset == fingerprint digest imported && hasPriorRows subset
        if !resumed && (!subset.dispatches.isEmpty || !subset.uiState.isEmpty ||
          subset.pinState.isSome)
        then .error .priorImport
        else
          .ok { bundle, target, fingerprint := fingerprint digest imported,
                resumed, history }

end Digest

end Thegn.Migration

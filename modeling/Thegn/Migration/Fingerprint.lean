import Thegn.Migration.Bundle
import Thegn.Resume.Structure
import Thegn.Lib.Rows

set_option autoImplicit false

/-! # The fingerprint of a bundle

`FingerprintMaterial` of `thegn-core/src/session_migration.rs`: the rows of a bundle without ids of
either database, as the JSON text that the digest is taken of. Different material has different
texts (`json_injective`).
-/

namespace Thegn.Migration

open Text Dispatch Rows List

/-! ## Material -/

def MigrationNote.rank (n : MigrationNote) : Int ×ₗ Int ×ₗ Int :=
  toLex (n.dispatchId, toLex (n.createdAtMs, n.sourceId))

structure DispatchFingerprint where
  issueId : Text
  worktreePath : Text
  agentName : Text
  dispatchedAtMs : Int
  status : Text
  stage : Option Text
  parentIndex : Option Nat
  artifactPath : Option Text
  note : Option Text
  chunkPath : Option Text
  report : Option Text
  chunkScope : Option Text

structure NoteFingerprint where
  dispatchIndex : Option Nat
  createdAtMs : Int
  text : Text

/-- What the digest is taken of. -/
structure FingerprintMaterial where
  sessionName : Text
  worktreePath : Text
  groups : List MigrationGroup
  uiState : List MigrationUiState
  dispatches : List DispatchFingerprint
  notes : List NoteFingerprint
  pinState : Option Text

/-- The position of an id; of equal ids the last one counts. -/
def indexIn (ids : List Int) (id : Int) : Option Nat :=
  ((ids.zipIdx.filter fun p => p.1 = id).getLast?).map Prod.snd

def MigrationDispatch.fingerprint (ids : List Int) (d : MigrationDispatch) : DispatchFingerprint :=
  { issueId := d.issueId, worktreePath := d.worktreePath, agentName := d.agentName,
    dispatchedAtMs := d.dispatchedAtMs, status := d.status, stage := d.stage,
    parentIndex := d.parentId.bind (indexIn ids), artifactPath := d.artifactPath, note := d.note,
    chunkPath := d.chunkPath, report := d.report, chunkScope := d.chunkScope }

def MigrationNote.fingerprint (ids : List Int) (n : MigrationNote) : NoteFingerprint :=
  { dispatchIndex := indexIn ids n.dispatchId, createdAtMs := n.createdAtMs, text := n.text }

/-- A tab without the daemon's session ids. -/
def MigrationTab.sanitized (tab : MigrationTab) : MigrationTab := { tab with paneSessions := [] }

def sanitizedGroup (group : MigrationGroup) : MigrationGroup := group.mapTabs .sanitized

def FingerprintMaterial.fromBundle (b : MigrationBundle) : FingerprintMaterial :=
  let dispatches := sortOn MigrationDispatch.sourceId b.dispatches
  let ids := dispatches.map MigrationDispatch.sourceId
  { sessionName := b.sessionName
    worktreePath := b.worktreePath
    groups := b.groups.map sanitizedGroup
    uiState := b.uiState
    dispatches := dispatches.map (MigrationDispatch.fingerprint ids)
    notes := (sortOn MigrationNote.rank b.notes).map (MigrationNote.fingerprint ids)
    pinState := b.pinState }

/-! ## Its text -/

def optional (v : Option Text) : Json := (v.map Json.str).getD .null

def optionalIndex (v : Option Nat) : Json := (v.map fun n => Json.int n).getD .null

def MigrationTab.toJson (t : MigrationTab) : Json :=
  .obj [("session_name".toList, .str t.sessionName), ("group_name".toList, .str t.groupName),
    ("ordinal".toList, .int t.ordinal), ("title".toList, .str t.title),
    ("pane_tree".toList, .str t.paneTree), ("focused_pane".toList, .int t.focusedPane),
    ("pane_cwds".toList, .str t.paneCwds), ("pane_cmds".toList, .str t.paneCmds),
    ("pane_sessions".toList, .str t.paneSessions),
    ("scrollback_snapshot".toList, .str t.scrollbackSnapshot)]

def MigrationGroup.toJson (g : MigrationGroup) : Json :=
  .obj [("session_name".toList, .str g.sessionName), ("name".toList, .str g.name),
    ("kind".toList, .str g.kind), ("worktree".toList, .str g.worktree),
    ("ordinal".toList, .int g.ordinal), ("active_tab".toList, .int g.activeTab),
    ("tabs".toList, .arr (g.tabs.map MigrationTab.toJson))]

def MigrationUiState.toJson (row : MigrationUiState) : Json :=
  .obj [("scope".toList, .str row.scope), ("key".toList, .str row.key),
    ("value".toList, optional row.value)]

/-- The last field is left out when there is none. -/
def DispatchFingerprint.toJson (d : DispatchFingerprint) : Json :=
  .obj ([("issue_id".toList, .str d.issueId), ("worktree_path".toList, .str d.worktreePath),
    ("agent_name".toList, .str d.agentName), ("dispatched_at_ms".toList, .int d.dispatchedAtMs),
    ("status".toList, .str d.status), ("stage".toList, optional d.stage),
    ("parent_index".toList, optionalIndex d.parentIndex),
    ("artifact_path".toList, optional d.artifactPath), ("note".toList, optional d.note),
    ("chunk_path".toList, optional d.chunkPath), ("report".toList, optional d.report)] ++
    (d.chunkScope.map fun scope => ("chunk_scope".toList, Json.str scope)).toList)

def NoteFingerprint.toJson (n : NoteFingerprint) : Json :=
  .obj [("dispatch_index".toList, optionalIndex n.dispatchIndex),
    ("created_at_ms".toList, .int n.createdAtMs), ("text".toList, .str n.text)]

def FingerprintMaterial.toJson (m : FingerprintMaterial) : Json :=
  .obj [("session_name".toList, .str m.sessionName), ("worktree_path".toList, .str m.worktreePath),
    ("groups".toList, .arr (m.groups.map MigrationGroup.toJson)),
    ("ui_state".toList, .arr (m.uiState.map MigrationUiState.toJson)),
    ("dispatches".toList, .arr (m.dispatches.map DispatchFingerprint.toJson)),
    ("notes".toList, .arr (m.notes.map NoteFingerprint.toJson)),
    ("pin_state".toList, optional m.pinState)]

/-- `serde_json::to_vec`. -/
def FingerprintMaterial.json (m : FingerprintMaterial) : Text := m.toJson.render Resume.escapeChar

/-! ## Different material has different texts -/

theorem optional_injective : Function.Injective optional := by
  intro a b h
  cases a with
  | none =>
    cases b with
    | none => rfl
    | some t => cases h
  | some s =>
    cases b with
    | none => cases h
    | some t =>
      cases h
      rfl

theorem optionalIndex_injective : Function.Injective optionalIndex := by
  intro a b h
  cases a with
  | none =>
    cases b with
    | none => rfl
    | some t => cases h
  | some s =>
    cases b with
    | none => cases h
    | some t =>
      have hint : Json.int s = Json.int t := h
      rw [Json.int.injEq, Int.natCast_inj] at hint
      rw [hint]

theorem MigrationTab.toJson_injective : Function.Injective MigrationTab.toJson := by
  intro a b h
  simp only [MigrationTab.toJson, Json.obj.injEq, List.cons.injEq, Prod.mk.injEq, Json.str.injEq,
    Json.int.injEq, true_and, and_true] at h
  rw [MigrationTab.mk.injEq]
  exact h

theorem MigrationGroup.toJson_injective : Function.Injective MigrationGroup.toJson := by
  intro a b h
  simp only [MigrationGroup.toJson, Json.obj.injEq, List.cons.injEq, Prod.mk.injEq, Json.str.injEq,
    Json.int.injEq, Json.arr.injEq, true_and, and_true] at h
  rw [MigrationGroup.mk.injEq]
  rw [(map_injective_iff.mpr MigrationTab.toJson_injective).eq_iff] at h
  exact h

theorem MigrationUiState.toJson_injective : Function.Injective MigrationUiState.toJson := by
  intro a b h
  simp only [MigrationUiState.toJson, Json.obj.injEq, List.cons.injEq, Prod.mk.injEq,
    Json.str.injEq, optional_injective.eq_iff, true_and, and_true] at h
  rw [MigrationUiState.mk.injEq]
  exact h

theorem NoteFingerprint.toJson_injective : Function.Injective NoteFingerprint.toJson := by
  intro a b h
  simp only [NoteFingerprint.toJson, Json.obj.injEq, List.cons.injEq, Prod.mk.injEq, Json.str.injEq,
    Json.int.injEq, optionalIndex_injective.eq_iff, true_and, and_true] at h
  rw [NoteFingerprint.mk.injEq]
  exact h

theorem DispatchFingerprint.toJson_injective : Function.Injective DispatchFingerprint.toJson := by
  intro a b h
  simp only [DispatchFingerprint.toJson, Json.obj.injEq, cons_append, nil_append,
    List.cons.injEq, Prod.mk.injEq, Json.str.injEq, Json.int.injEq, optional_injective.eq_iff,
    optionalIndex_injective.eq_iff, true_and] at h
  obtain ⟨h1, h2, h3, h4, h5, h6, h7, h8, h9, h10, h11, hscope⟩ := h
  rw [DispatchFingerprint.mk.injEq]
  refine ⟨h1, h2, h3, h4, h5, h6, h7, h8, h9, h10, h11, ?_⟩
  cases ha : a.chunkScope with
  | none =>
    cases hb : b.chunkScope with
    | none => rfl
    | some t => simp [ha, hb] at hscope
  | some s =>
    cases hb : b.chunkScope with
    | none => simp [ha, hb] at hscope
    | some t => simpa [ha, hb] using hscope

theorem FingerprintMaterial.toJson_injective : Function.Injective FingerprintMaterial.toJson := by
  intro a b h
  simp only [FingerprintMaterial.toJson, Json.obj.injEq, List.cons.injEq, Prod.mk.injEq,
    Json.str.injEq, Json.arr.injEq, optional_injective.eq_iff, true_and, and_true,
    (map_injective_iff.mpr MigrationGroup.toJson_injective).eq_iff,
    (map_injective_iff.mpr MigrationUiState.toJson_injective).eq_iff,
    (map_injective_iff.mpr DispatchFingerprint.toJson_injective).eq_iff,
    (map_injective_iff.mpr NoteFingerprint.toJson_injective).eq_iff] at h
  rw [FingerprintMaterial.mk.injEq]
  exact h

theorem json_injective : Function.Injective FingerprintMaterial.json := by
  intro a b h
  have hread := Json.parse_render Resume.readable_escapeChar a.toJson
  have hread' := Json.parse_render Resume.readable_escapeChar b.toJson
  unfold FingerprintMaterial.json at h
  rw [h] at hread
  exact FingerprintMaterial.toJson_injective (Option.some.inj (hread.symm.trans hread'))

end Thegn.Migration

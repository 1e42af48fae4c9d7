import Thegn.Migration.Store

set_option autoImplicit false

/-! # What the snapshots read

Queries of a database whose keys are unique, by their members and their order; and a bundle as a
source snapshot builds it (`fromSource_migrationSnapshot`).
-/

namespace Thegn.Migration

open Text Dispatch Rows List

/-- What the schema enforces: primary keys, and numbers that only grow. -/
structure Db.Ok (db : Db) : Prop where
  groups : (db.tabGroups.map TabGroupRow.key).Nodup
  tabs : (db.groupTabs.map MigrationTab.key).Nodup
  ui : (db.uiState.map MigrationUiState.rowKey).Nodup
  dispatches : (db.dispatches.map MigrationDispatch.sourceId).Nodup
  dispatchSeq : ∀ d ∈ db.dispatches, d.sourceId ≤ db.dispatchSeq
  notes : (db.notes.map MigrationNote.sourceId).Nodup
  noteSeq : ∀ n ∈ db.notes, n.sourceId ≤ db.noteSeq

/-- A bundle as a source snapshot builds it. -/
structure FromSource (b : MigrationBundle) : Prop where
  groups : Ascending MigrationGroup.rank b.groups
  names : (b.groups.map MigrationGroup.name).Nodup
  groupSession : ∀ g ∈ b.groups, g.sessionName = b.sessionName
  tabs : ∀ g ∈ b.groups, Ascending MigrationTab.ordinal g.tabs
  tabGroup : ∀ g ∈ b.groups, ∀ t ∈ g.tabs, t.sessionName = b.sessionName ∧ t.groupName = g.name
  ui : Ascending MigrationUiState.rank b.uiState
  uiScope : ∀ row ∈ b.uiState, row.scope = sidebarScope
  dispatches : Ascending MigrationDispatch.sourceId b.dispatches
  worktreePath : ∀ d ∈ b.dispatches, d.worktreePath = b.worktreePath
  notes : Ascending MigrationNote.rank b.notes
  noteDispatch : ∀ n ∈ b.notes, n.dispatchId ∈ b.dispatches.map MigrationDispatch.sourceId
  worktree : ∀ w, b.worktree = some w → w.worktree = b.worktreePath

/-! ## Keys of selected rows -/

/-- Rows that a key tells apart are told apart by what determines the key. -/
theorem nodup_map_of {R K L : Type} {key : R → K} {key' : R → L} {rows : List R}
    (h : (rows.map key).Nodup) (hinj : ∀ a ∈ rows, ∀ b ∈ rows, key' a = key' b → key a = key b) :
    (rows.map key').Nodup := by
  have hnodup : rows.Nodup := h.of_map
  refine (nodup_map_iff_inj_on hnodup).mpr ?_
  intro a ha b hb hab
  exact eq_of_key h ha hb (hinj a ha b hb hab)

theorem nodup_map_filter {R K : Type} {key : R → K} {rows : List R} (h : (rows.map key).Nodup)
    (p : R → Bool) : ((rows.filter p).map key).Nodup :=
  h.sublist (filter_sublist.map key)

section Queries

variable {db : Db} (h : db.Ok) (session worktreePath : Text)
include h

theorem ascending_sessionGroups :
    Ascending (fun g : TabGroupRow => toLex (g.ordinal, g.name)) (sessionGroups db session) := by
  refine ascending_sortOn (nodup_map_of (nodup_map_filter h.groups _) ?_)
  intro a ha b hb hab
  have hname : a.name = b.name := congrArg (fun p => (ofLex p).2) hab
  have hsa := of_decide_eq_true (mem_filter.mp ha).2
  have hsb := of_decide_eq_true (mem_filter.mp hb).2
  rw [TabGroupRow.key, TabGroupRow.key, hname, hsa, hsb]

theorem ascending_sessionTabs :
    Ascending (fun t : MigrationTab => toLex (t.groupName, t.ordinal))
      (sessionTabs db session) := by
  refine ascending_sortOn (nodup_map_of (nodup_map_filter h.tabs _) ?_)
  intro a ha b hb hab
  have hgroup : a.groupName = b.groupName := congrArg (fun p => (ofLex p).1) hab
  have hordinal : a.ordinal = b.ordinal := congrArg (fun p => (ofLex p).2) hab
  have hsa := of_decide_eq_true (mem_filter.mp ha).2
  have hsb := of_decide_eq_true (mem_filter.mp hb).2
  rw [MigrationTab.key, MigrationTab.key, hgroup, hordinal, hsa, hsb]

theorem ascending_sidebarRows : Ascending MigrationUiState.key (sidebarRows db) := by
  refine ascending_sortOn (nodup_map_of (nodup_map_filter h.ui _) ?_)
  intro a ha b hb hab
  have hsa := of_decide_eq_true (mem_filter.mp ha).2
  have hsb := of_decide_eq_true (mem_filter.mp hb).2
  rw [MigrationUiState.rowKey, MigrationUiState.rowKey, hab, hsa, hsb]

theorem ascending_dispatchesForWorktree :
    Ascending MigrationDispatch.sourceId (dispatchesForWorktree db worktreePath) :=
  ascending_sortOn (nodup_map_filter h.dispatches _)

end Queries

theorem mem_sessionGroups {db : Db} {session : Text} {g : TabGroupRow} :
    g ∈ sessionGroups db session ↔ g ∈ db.tabGroups ∧ g.sessionName = session := by
  rw [sessionGroups, mem_sortOn, mem_filter, decide_eq_true_iff]

theorem mem_sessionTabs {db : Db} {session : Text} {t : MigrationTab} :
    t ∈ sessionTabs db session ↔ t ∈ db.groupTabs ∧ t.sessionName = session := by
  rw [sessionTabs, mem_sortOn, mem_filter, decide_eq_true_iff]

theorem mem_sidebarRows {db : Db} {row : MigrationUiState} :
    row ∈ sidebarRows db ↔ row ∈ db.uiState ∧ row.scope = sidebarScope := by
  rw [sidebarRows, mem_sortOn, mem_filter, decide_eq_true_iff]

theorem mem_dispatchesForWorktree {db : Db} {worktreePath : Text} {d : MigrationDispatch} :
    d ∈ dispatchesForWorktree db worktreePath ↔ d ∈ db.dispatches ∧
    d.worktreePath = worktreePath := by
  rw [dispatchesForWorktree, mem_sortOn, mem_filter, decide_eq_true_iff]

theorem mem_notesForDispatches {db : Db} {ids : List Int} {n : MigrationNote} :
    n ∈ notesForDispatches db ids ↔ n ∈ db.notes ∧ n.dispatchId ∈ ids := by
  rw [notesForDispatches, mem_flatMap]
  constructor
  · rintro ⟨id, hid, hn⟩
    rw [mem_sortOn, mem_filter, decide_eq_true_iff] at hn
    exact ⟨hn.1, hn.2 ▸ hid⟩
  · rintro ⟨hn, hid⟩
    refine ⟨n.dispatchId, hid, ?_⟩
    rw [mem_sortOn, mem_filter, decide_eq_true_iff]
    exact ⟨hn, rfl⟩

/-- Notes are told apart by their numbers, also when they are collected by dispatch. -/
theorem nodup_notesForDispatches {db : Db} (h : db.Ok) {ids : List Int} (hids : ids.Nodup) :
    ((notesForDispatches db ids).map MigrationNote.sourceId).Nodup := by
  have hnodup : (notesForDispatches db ids).Nodup := by
    refine nodup_flatMap.mpr ⟨?_, ?_⟩
    · intro id _
      exact (sortOn_perm _ _).nodup_iff.mpr ((h.notes.of_map).filter _)
    · refine hids.imp fun hne => ?_
      intro n hn hn'
      rw [mem_sortOn, mem_filter, decide_eq_true_iff] at hn hn'
      exact hne (hn.2.symm.trans hn'.2)
  refine (nodup_map_iff_inj_on hnodup).mpr ?_
  intro a ha b hb hab
  exact eq_of_key h.notes (mem_notesForDispatches.mp ha).1 (mem_notesForDispatches.mp hb).1 hab

theorem ascending_notes {db : Db} (h : db.Ok) {ids : List Int} (hids : ids.Nodup) :
    Ascending MigrationNote.rank (sortOn MigrationNote.rank (notesForDispatches db ids)) := by
  refine ascending_sortOn (nodup_map_of (nodup_notesForDispatches h hids) ?_)
  intro a _ b _ hab
  exact congrArg (fun p => (ofLex (ofLex p).2).2) hab

/-- Sidebar rows have one scope, so that their keys order them. -/
theorem ascending_sidebarRank {db : Db} (h : db.Ok) :
    Ascending MigrationUiState.rank (sidebarRows db) := by
  refine (ascending_sidebarRows h).imp_of_mem ?_
  intro r r' hr hr' hlt
  have hscope := (mem_sidebarRows.mp hr).2
  have hscope' := (mem_sidebarRows.mp hr').2
  rw [MigrationUiState.rank, MigrationUiState.rank, Prod.Lex.toLex_lt_toLex]
  exact .inr ⟨hscope.trans hscope'.symm, hlt⟩

/-! ## Groups with their tabs -/

/-- The stored tabs of a group. -/
def tabsOf (db : Db) (session name : Text) : List MigrationTab :=
  (sessionTabs db session).filter fun t => t.groupName = name

theorem mem_tabsOf {db : Db} {session name : Text} {t : MigrationTab} :
    t ∈ tabsOf db session name ↔ t ∈ db.groupTabs ∧ t.sessionName = session ∧
    t.groupName = name := by
  rw [tabsOf, mem_filter, mem_sessionTabs, decide_eq_true_iff, and_assoc]

theorem ascending_tabsOf {db : Db} (h : db.Ok) (session name : Text) :
    Ascending MigrationTab.ordinal (tabsOf db session name) := by
  have hsorted :=
    (ascending_sessionTabs h session).filter fun t : MigrationTab => t.groupName = name
  refine hsorted.imp_of_mem ?_
  intro a b ha hb hab
  have hna := of_decide_eq_true (mem_filter.mp ha).2
  have hnb := of_decide_eq_true (mem_filter.mp hb).2
  rw [Prod.Lex.toLex_lt_toLex, hna, hnb] at hab
  exact (hab.resolve_left (lt_irrefl _)).2

theorem withTabs_sessionTabs (db : Db) (session : Text) (g : TabGroupRow) :
    withTabs session (sessionTabs db session) g =
      { sessionName := session, name := g.name, kind := g.kind, worktree := g.worktree,
        ordinal := g.ordinal, activeTab := g.activeTab, tabs := tabsOf db session g.name } := by
  unfold withTabs
  congr 1
  refine (map_congr_left fun t ht => ?_).trans (map_id _)
  have hsession := (mem_tabsOf.mp ht).2.1
  rw [← hsession]
  rfl

/-- The groups of a target, by their rows. -/
theorem mem_targetGroups {db : Db} {session worktreePath : Text} {g : MigrationGroup} :
    g ∈ (migrationTargetSnapshot db session worktreePath).groups ↔
      ∃ row ∈ db.tabGroups, row.sessionName = session ∧
        g = withTabs session (sessionTabs db session) row := by
  unfold migrationTargetSnapshot
  rw [mem_map]
  constructor
  · rintro ⟨row, hrow, rfl⟩
    exact ⟨row, (mem_sessionGroups.mp hrow).1, (mem_sessionGroups.mp hrow).2, rfl⟩
  · rintro ⟨row, hrow, hsession, rfl⟩
    exact ⟨row, mem_sessionGroups.mpr ⟨hrow, hsession⟩, rfl⟩

/-- Groups of a target with one name are one. -/
theorem eq_of_name {db : Db} (h : db.Ok) {session worktreePath : Text} {g g' : MigrationGroup}
    (hg : g ∈ (migrationTargetSnapshot db session worktreePath).groups)
    (hg' : g' ∈ (migrationTargetSnapshot db session worktreePath).groups)
    (hname : g.name = g'.name) : g = g' := by
  obtain ⟨row, hrow, hsession, rfl⟩ := mem_targetGroups.mp hg
  obtain ⟨row', hrow', hsession', rfl⟩ := mem_targetGroups.mp hg'
  have hkey : row.key = row'.key := by
    rw [TabGroupRow.key, TabGroupRow.key, hsession, hsession', Prod.mk.injEq]
    exact ⟨rfl, hname⟩
  rw [eq_of_key h.groups hrow hrow' hkey]

theorem ascending_targetGroups {db : Db} (h : db.Ok) (session worktreePath : Text) :
    Ascending MigrationGroup.rank (migrationTargetSnapshot db session worktreePath).groups :=
  pairwise_map.mpr (ascending_sessionGroups h session)

/-! ## The rows of a target that a bundle would own -/

section Subset

variable {db : Db} (h : db.Ok) (b : MigrationBundle)
include h

/-- The groups under the names of the bundle, as they are stored. -/
theorem targetSubset_groups :
    (targetSubset b (migrationTargetSnapshot db b.sessionName b.worktreePath)).groups =
      (migrationTargetSnapshot db b.sessionName b.worktreePath).groups.filter
        fun g => b.groups.map MigrationGroup.name |>.contains g.name := by
  unfold targetSubset makeBundle
  dsimp only
  have hall : ∀ g ∈ (migrationTargetSnapshot db b.sessionName b.worktreePath).groups,
      g.sessionName = b.sessionName ∧ Ascending MigrationTab.ordinal g.tabs := by
    intro g hg
    obtain ⟨row, -, -, rfl⟩ := mem_targetGroups.mp hg
    rw [withTabs_sessionTabs]
    exact ⟨rfl, ascending_tabsOf h _ _⟩
  have hasc := ascending_targetGroups h b.sessionName b.worktreePath
  have hname : ∀ g ∈ (migrationTargetSnapshot db b.sessionName b.worktreePath).groups,
      ∀ g' ∈ (migrationTargetSnapshot db b.sessionName b.worktreePath).groups, g.name = g'.name →
        g = g' :=
    fun g hg g' hg' => eq_of_name h hg hg'
  generalize (migrationTargetSnapshot db b.sessionName b.worktreePath).groups = groups
    at hall hasc hname ⊢
  have hfilter : (groups.filter fun g => decide (g.sessionName = b.sessionName) &&
      (b.groups.map MigrationGroup.name).contains g.name) =
        groups.filter fun g => (b.groups.map MigrationGroup.name).contains g.name := by
    refine filter_congr fun g hg => ?_
    rw [decide_eq_true (hall g hg).1, Bool.true_and]
  -- each group is found under its own name, and its tabs are in order
  have hself : ∀ g ∈ groups, tabsUnder groups g = g.tabs := by
    intro g hg
    unfold tabsUnder
    cases hfind : groups.find? fun c =>
        decide (c.sessionName = g.sessionName) && decide (c.name = g.name) with
    | none =>
      have hnone := List.find?_eq_none.mp hfind g hg
      rw [decide_eq_true rfl, decide_eq_true rfl] at hnone
      exact absurd rfl hnone
    | some c =>
      have hc := List.find?_some hfind
      rw [Bool.and_eq_true, decide_eq_true_iff, decide_eq_true_iff] at hc
      rw [hname c (mem_of_find?_eq_some hfind) g hg hc.2]
  have hmap : (groups.filter fun g => (b.groups.map MigrationGroup.name).contains g.name).map
      (fun g => { g with tabs := tabsUnder groups g }) =
        groups.filter fun g => (b.groups.map MigrationGroup.name).contains g.name := by
    refine (map_congr_left fun g hg => ?_).trans (map_id _)
    rw [hself g (mem_filter.mp hg).1]
    rfl
  rw [hfilter, hmap, sortOn_of_ascending (hasc.filter _)]
  refine (map_congr_left fun g hg => ?_).trans (map_id _)
  rw [sortOn_of_ascending (hall g (mem_filter.mp hg).1).2]
  rfl

theorem targetSubset_uiState :
    (targetSubset b (migrationTargetSnapshot db b.sessionName b.worktreePath)).uiState =
      (sidebarRows db).filter fun row =>
        (b.uiState.map fun r => (r.scope, r.key)).contains (row.scope, row.key) := by
  unfold targetSubset makeBundle migrationTargetSnapshot
  dsimp only
  exact sortOn_of_ascending ((ascending_sidebarRank h).filter _)

theorem targetSubset_dispatches :
    (targetSubset b (migrationTargetSnapshot db b.sessionName b.worktreePath)).dispatches =
      dispatchesForWorktree db b.worktreePath := by
  unfold targetSubset makeBundle migrationTargetSnapshot
  dsimp only
  have hall : ((dispatchesForWorktree db b.worktreePath).filter fun d =>
      decide (d.worktreePath = b.worktreePath)) = dispatchesForWorktree db b.worktreePath :=
    filter_eq_self.mpr fun d hd => decide_eq_true (mem_dispatchesForWorktree.mp hd).2
  rw [hall]
  exact sortOn_of_ascending (ascending_dispatchesForWorktree h b.worktreePath)

end Subset

/-! ## A source snapshot -/

/-- Groups in order with tabs in order stay as they are. -/
theorem sorted_groups {groups : List MigrationGroup} (h : Ascending MigrationGroup.rank groups)
    (htabs : ∀ g ∈ groups, Ascending MigrationTab.ordinal g.tabs) :
    ((sortOn MigrationGroup.rank groups).map fun g =>
      { g with tabs := sortOn MigrationTab.ordinal g.tabs }) = groups := by
  rw [sortOn_of_ascending h]
  refine (map_congr_left fun g hg => ?_).trans (map_id _)
  rw [sortOn_of_ascending (htabs g hg)]
  rfl

theorem fromSource_migrationSnapshot {db : Db} (h : db.Ok)
    (sourceProfile targetProfile session worktreePath : Text) :
    FromSource (migrationSnapshot db sourceProfile targetProfile session worktreePath) := by
  -- the selected groups, as they are stored
  let selected := ((sessionGroups db session).filter fun g => g.worktree = worktreePath).map
    (withTabs session (sessionTabs db session))
  have hrank : Ascending MigrationGroup.rank selected :=
    pairwise_map.mpr ((ascending_sessionGroups h session).filter _)
  have hmem : ∀ g ∈ selected, ∃ row ∈ db.tabGroups, row.sessionName = session ∧
      g = withTabs session (sessionTabs db session) row := by
    intro g hg
    obtain ⟨row, hrow, rfl⟩ := mem_map.mp hg
    have hrow' := mem_sessionGroups.mp (mem_filter.mp hrow).1
    exact ⟨row, hrow'.1, hrow'.2, rfl⟩
  have htabs : ∀ g ∈ selected, Ascending MigrationTab.ordinal g.tabs := by
    intro g hg
    obtain ⟨row, -, -, rfl⟩ := hmem g hg
    rw [withTabs_sessionTabs]
    exact ascending_tabsOf h _ _
  have hselect : selectGroups session worktreePath (sessionGroups db session)
    (sessionTabs db session) = selected := sorted_groups hrank htabs
  have hgroups : (migrationSnapshot db sourceProfile targetProfile session worktreePath).groups =
      selected := by
    unfold migrationSnapshot makeBundle
    dsimp only
    rw [hselect]
    exact sorted_groups hrank htabs
  have hui := ascending_sidebarRows h
  have hids := (ascending_dispatchesForWorktree h worktreePath).nodup_map
  have hdispatches :
    (migrationSnapshot db sourceProfile targetProfile session worktreePath).dispatches =
      dispatchesForWorktree db worktreePath :=
    sortOn_of_ascending (ascending_dispatchesForWorktree h worktreePath)
  have hrow : ∀ row ∈ (migrationSnapshot db sourceProfile targetProfile session
    worktreePath).uiState, row ∈ sidebarRows db := by
    intro row hrow
    unfold migrationSnapshot makeBundle selectSidebarState at hrow
    dsimp only at hrow
    rw [mem_sortOn, mem_sortOn] at hrow
    exact (mem_filter.mp hrow).1
  refine ⟨?_, ?_, ?_, ?_, ?_, ?_, ?_, ?_, ?_, ?_, ?_, ?_⟩
  · rw [hgroups]
    exact hrank
  · rw [hgroups]
    refine nodup_map_of hrank.nodup_map ?_
    intro g hg g' hg' hname
    obtain ⟨row, hrow, hsession, rfl⟩ := hmem g hg
    obtain ⟨row', hrow', hsession', rfl⟩ := hmem g' hg'
    have hkey : row.key = row'.key := by
      rw [TabGroupRow.key, TabGroupRow.key, hsession, hsession', Prod.mk.injEq]
      exact ⟨rfl, hname⟩
    rw [eq_of_key h.groups hrow hrow' hkey]
  · rw [hgroups]
    intro g hg
    obtain ⟨row, -, -, rfl⟩ := hmem g hg
    rfl
  · rw [hgroups]
    exact htabs
  · rw [hgroups]
    intro g hg t ht
    obtain ⟨row, -, -, rfl⟩ := hmem g hg
    rw [withTabs_sessionTabs] at ht ⊢
    exact (mem_tabsOf.mp ht).2
  · have hkeys : ∀ names, ((selectSidebarState (sidebarRows db) names).map
        MigrationUiState.key).Nodup := fun names =>
      (ascending_sortOn (nodup_map_filter hui.nodup_map _)).nodup_map
    exact ascending_sortOn (nodup_map_of (hkeys _)
      fun a _ b _ hab => congrArg (fun p => (ofLex p).2) hab)
  · exact fun row hr => (mem_sidebarRows.mp (hrow row hr)).2
  · rw [hdispatches]
    exact ascending_dispatchesForWorktree h worktreePath
  · rw [hdispatches]
    exact fun d hd => (mem_dispatchesForWorktree.mp hd).2
  · exact ascending_notes h hids
  · rw [hdispatches]
    intro n hn
    exact (mem_notesForDispatches.mp (mem_sortOn.mp hn)).2
  · intro w hw
    have hfind : findWorktree db worktreePath = some w := hw
    have hkey := List.find?_some hfind
    exact of_decide_eq_true hkey

end Thegn.Migration

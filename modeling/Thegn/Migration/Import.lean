import Thegn.Migration.Effects

set_option autoImplicit false

/-! # Import, and import again

A target that holds the imported form of a bundle has its fingerprint, and is planned as resumed;
an import makes a target hold it (`import_confirmable`).
-/

namespace Thegn.Migration

open Text Dispatch Rows List

/-! ## The imported form of a source bundle -/

/-- Tabs keep their places. -/
theorem groups_imported (codec : CwdCodec) (b : MigrationBundle) (history : HistoryPolicy) :
    ∃ f : MigrationTab → MigrationTab,
      (∀ t, (f t).sessionName = t.sessionName ∧ (f t).groupName = t.groupName ∧
        (f t).ordinal = t.ordinal) ∧
      (importedBundle codec b history).groups = b.groups.map (.mapTabs f) := by
  cases history with
  | included => exact ⟨.scoped codec b.worktreePath, fun _ => ⟨rfl, rfl, rfl⟩, rfl⟩
  | drop =>
    exact ⟨fun tab => (tab.scoped codec b.worktreePath).dropHistory, fun _ => ⟨rfl, rfl, rfl⟩,
      groups_drop codec b⟩

/-- The notes are all imported, or none. -/
theorem sublist_notes_imported (codec : CwdCodec) (b : MigrationBundle) (history : HistoryPolicy) :
    (importedBundle codec b history).notes.Sublist b.notes := by
  cases history with
  | included => exact .refl _
  | drop => exact nil_sublist _

theorem fromSource_imported (codec : CwdCodec) {b : MigrationBundle} (h : FromSource b)
    (history : HistoryPolicy) : FromSource (importedBundle codec b history) := by
  obtain ⟨f, hf, hgroups⟩ := groups_imported codec b history
  have hsession : (importedBundle codec b history).sessionName = b.sessionName := by
    cases history with
    | included | drop => rfl
  have hworktreePath : (importedBundle codec b history).worktreePath = b.worktreePath := by
    cases history with
    | included | drop => rfl
  have hworktree : (importedBundle codec b history).worktree = b.worktree := by
    cases history with
    | included | drop => rfl
  have hui : (importedBundle codec b history).uiState = b.uiState := by
    cases history with
    | included | drop => rfl
  have hids : (importedBundle codec b history).dispatches.map MigrationDispatch.sourceId =
      b.dispatches.map MigrationDispatch.sourceId := by
    rw [dispatches_imported, map_map]
    exact map_congr_left fun d _ => sourceId_importedRow history d
  constructor
  · rw [hgroups]
    exact pairwise_map.mpr h.groups
  · rw [hgroups, map_map]
    exact h.names
  · rw [hgroups, hsession]
    intro g hg
    obtain ⟨g0, hg0, rfl⟩ := mem_map.mp hg
    exact h.groupSession g0 hg0
  · rw [hgroups]
    intro g hg
    obtain ⟨g0, hg0, rfl⟩ := mem_map.mp hg
    refine pairwise_map.mpr ((h.tabs g0 hg0).imp fun {t t'} hlt => ?_)
    rw [(hf t).2.2, (hf t').2.2]
    exact hlt
  · rw [hgroups, hsession]
    intro g hg t ht
    obtain ⟨g0, hg0, rfl⟩ := mem_map.mp hg
    obtain ⟨t0, ht0, rfl⟩ := mem_map.mp ht
    rw [(hf t0).1, (hf t0).2.1]
    exact h.tabGroup g0 hg0 t0 ht0
  · rw [hui]
    exact h.ui
  · rw [hui]
    exact h.uiScope
  · rw [dispatches_imported]
    refine pairwise_map.mpr (h.dispatches.imp fun {d d'} hlt => ?_)
    rw [sourceId_importedRow, sourceId_importedRow]
    exact hlt
  · rw [dispatches_imported, hworktreePath]
    intro d hd
    obtain ⟨d0, hd0, rfl⟩ := mem_map.mp hd
    rw [worktreePath_importedRow]
    exact h.worktreePath d0 hd0
  · exact h.notes.sublist (sublist_notes_imported codec b history)
  · rw [hids]
    exact fun n hn => h.noteDispatch n ((sublist_notes_imported codec b history).subset hn)
  · rw [hworktree, hworktreePath]
    exact h.worktree

/-! ## A target that holds a bundle -/

/-- The imported form is in the tables, with other numbers. -/
structure Holds (db : Db) (i : MigrationBundle) : Prop where
  groups : ∀ g ∈ i.groups, persistedGroup g ∈ db.tabGroups
  tabs : ∀ g ∈ i.groups,
    (tabsOf db i.sessionName g.name).map MigrationTab.sanitized = g.tabs.map MigrationTab.sanitized
  ui : ∀ row ∈ i.uiState, row ∈ db.uiState
  pin : ∀ pin, i.pinState = some pin → (sessionPin db i.sessionName).1 = some pin
  dispatches : (dispatchesForWorktree db i.worktreePath).map (MigrationDispatch.fingerprint
      ((dispatchesForWorktree db i.worktreePath).map MigrationDispatch.sourceId)) =
    i.dispatches.map (MigrationDispatch.fingerprint (i.dispatches.map MigrationDispatch.sourceId))
  notes : (sortOn MigrationNote.rank (notesForDispatches db
      ((dispatchesForWorktree db i.worktreePath).map MigrationDispatch.sourceId))).map
      (MigrationNote.fingerprint
        ((dispatchesForWorktree db i.worktreePath).map MigrationDispatch.sourceId)) =
    i.notes.map (MigrationNote.fingerprint (i.dispatches.map MigrationDispatch.sourceId))

section Holds

variable {db : Db} (hdb : db.Ok) {i : MigrationBundle} (hi : FromSource i) (h : Holds db i)
include hdb hi h

/-- A group of the bundle is the group of the target under its name. -/
theorem group_of_name {g g' : MigrationGroup} (hg : g ∈ i.groups)
    (hg' : g' ∈ (migrationTargetSnapshot db i.sessionName i.worktreePath).groups)
    (hname : g'.name = g.name) : sanitizedGroup g' = sanitizedGroup g := by
  obtain ⟨row, hrow, hsession, rfl⟩ := mem_targetGroups.mp hg'
  have hkey : row.key = (persistedGroup g).key := by
    have hgs := hi.groupSession g hg
    unfold TabGroupRow.key persistedGroup
    rw [hsession, hgs, Prod.mk.injEq]
    exact ⟨rfl, hname⟩
  rw [eq_of_key hdb.groups hrow (h.groups g hg) hkey, withTabs_sessionTabs]
  have htabs := h.tabs g hg
  have hgs := hi.groupSession g hg
  unfold sanitizedGroup MigrationGroup.mapTabs persistedGroup
  dsimp only
  rw [htabs, hgs]

theorem not_groupConflict {g : MigrationGroup} (hg : g ∈ i.groups) :
    groupConflict (migrationTargetSnapshot db i.sessionName i.worktreePath) g = false := by
  unfold groupConflict
  cases hfind : (migrationTargetSnapshot db i.sessionName i.worktreePath).groups.find? fun g' =>
      g'.sessionName = g.sessionName && g'.name = g.name with
  | none => rfl
  | some g' =>
    have hfound := List.find?_some hfind
    rw [Bool.and_eq_true, decide_eq_true_iff, decide_eq_true_iff] at hfound
    rw [Option.any_some, decide_eq_false_iff_not, not_not]
    exact group_of_name hdb hi h hg (mem_of_find?_eq_some hfind) hfound.2

omit hi in
theorem not_uiConflict {row : MigrationUiState} (hrow : row ∈ i.uiState) :
    uiConflict (migrationTargetSnapshot db i.sessionName i.worktreePath) row = false := by
  unfold uiConflict
  cases hfind : (migrationTargetSnapshot db i.sessionName i.worktreePath).uiState.find? fun row' =>
      row'.scope = row.scope && row'.key = row.key with
  | none => rfl
  | some row' =>
    have hfound := List.find?_some hfind
    rw [Bool.and_eq_true, decide_eq_true_iff, decide_eq_true_iff] at hfound
    have hmem := (mem_sidebarRows.mp (mem_of_find?_eq_some hfind)).1
    have hkey : row'.rowKey = row.rowKey := by
      rw [MigrationUiState.rowKey, MigrationUiState.rowKey, hfound.1, hfound.2]
    rw [Option.any_some, decide_eq_false_iff_not, not_not,
      eq_of_key hdb.ui hmem (h.ui row hrow) hkey]

omit hdb hi in
theorem not_pinConflict :
    pinConflict (migrationTargetSnapshot db i.sessionName i.worktreePath) i = false := by
  unfold pinConflict
  cases hpin : i.pinState with
  | none => rfl
  | some pin =>
    have htarget : (migrationTargetSnapshot db i.sessionName i.worktreePath).pinState = some pin :=
      h.pin pin hpin
    rw [htarget]
    simp

/-- The owned rows of the target, up to the numbers, are the bundle. -/
theorem material_targetSubset :
    FingerprintMaterial.fromBundle
        (targetSubset i (migrationTargetSnapshot db i.sessionName i.worktreePath)) =
      FingerprintMaterial.fromBundle i := by
  have hasc := ascending_dispatchesForWorktree hdb i.worktreePath
  have hnodup := hasc.nodup_map
  have hgroups :
    (targetSubset i (migrationTargetSnapshot db i.sessionName i.worktreePath)).groups.map
      sanitizedGroup = i.groups.map sanitizedGroup := by
    rw [targetSubset_groups hdb]
    have hrank : ∀ groups : List MigrationGroup, Ascending MigrationGroup.rank groups →
        Ascending MigrationGroup.rank (groups.map sanitizedGroup) :=
      fun groups hgroups => pairwise_map.mpr hgroups
    refine eq_of_ascending (hrank _ ((ascending_targetGroups hdb _ _).filter _))
      (hrank _ hi.groups) ?_
    intro x
    constructor
    · intro hx
      obtain ⟨g', hg', rfl⟩ := mem_map.mp hx
      rw [mem_filter, contains_iff_mem] at hg'
      obtain ⟨g, hg, hname⟩ := mem_map.mp hg'.2
      rw [group_of_name hdb hi h hg hg'.1 hname.symm]
      exact mem_map_of_mem hg
    · intro hx
      obtain ⟨g, hg, rfl⟩ := mem_map.mp hx
      have hrow : withTabs i.sessionName (sessionTabs db i.sessionName) (persistedGroup g) ∈
          (migrationTargetSnapshot db i.sessionName i.worktreePath).groups :=
        mem_targetGroups.mpr ⟨_, h.groups g hg, hi.groupSession g hg, rfl⟩
      rw [← group_of_name hdb hi h hg hrow rfl]
      refine mem_map_of_mem (mem_filter.mpr ⟨hrow, ?_⟩)
      exact contains_iff_mem.mpr (mem_map.mpr ⟨g, hg, rfl⟩)
  have hui : (targetSubset i (migrationTargetSnapshot db i.sessionName i.worktreePath)).uiState =
      i.uiState := by
    rw [targetSubset_uiState hdb]
    refine eq_of_ascending ((ascending_sidebarRank hdb).filter _) hi.ui ?_
    intro row
    rw [mem_filter, contains_iff_mem, mem_sidebarRows]
    constructor
    · rintro ⟨⟨hrow, -⟩, hkey⟩
      obtain ⟨row', hrow', heq⟩ := mem_map.mp hkey
      rw [← eq_of_key hdb.ui (h.ui row' hrow') hrow heq]
      exact hrow'
    · intro hrow
      exact ⟨⟨h.ui row hrow, hi.uiScope row hrow⟩, mem_map.mpr ⟨row, hrow, rfl⟩⟩
  have hdispatches := targetSubset_dispatches hdb i
  have hnotes : (targetSubset i (migrationTargetSnapshot db i.sessionName i.worktreePath)).notes =
      sortOn MigrationNote.rank (notesForDispatches db
        ((dispatchesForWorktree db i.worktreePath).map MigrationDispatch.sourceId)) := rfl
  have hpin : (targetSubset i (migrationTargetSnapshot db i.sessionName i.worktreePath)).pinState =
      i.pinState := by
    unfold targetSubset makeBundle
    dsimp only
    cases hpin : i.pinState with
    | none => rfl
    | some pin => exact h.pin pin hpin
  unfold FingerprintMaterial.fromBundle
  rw [hgroups, hui, hdispatches, hnotes, hpin, sortOn_of_ascending hasc,
    sortOn_of_ascending hi.dispatches, sortOn_of_ascending (ascending_notes hdb hnodup),
    sortOn_of_ascending hi.notes]
  dsimp only
  rw [h.dispatches, h.notes]
  rfl

end Holds

/-! ## An import makes a target hold a bundle -/

/-- Rows whose owner is there: tabs have a group, and notes a dispatch that was numbered. -/
structure Db.Intact (db : Db) : Prop where
  tabs : ∀ t ∈ db.groupTabs, (t.sessionName, t.groupName) ∈ db.tabGroups.map TabGroupRow.key
  notes : ∀ n ∈ db.notes, n.dispatchId ≤ db.dispatchSeq

theorem append_nodup_of_lt {α : Type} {rows : List α} {key : α → Int} {seq : Int}
    (h : (rows.map key).Nodup) (hseq : ∀ r ∈ rows, key r ≤ seq) {β : Type} (xs : List β)
    {f : β × Int → α} (hf : ∀ p, key (f p) = p.2) :
    ((rows ++ (numbered seq xs).map f).map key).Nodup := by
  have hnew : ((numbered seq xs).map f).map key = (numbered seq xs).map Prod.snd := by
    rw [map_map]
    exact map_congr_left fun p _ => hf p
  rw [map_append, hnew]
  refine h.append (ascending_numbered seq xs).nodup_map ?_
  intro k hk hk'
  obtain ⟨r, hr, rfl⟩ := mem_map.mp hk
  obtain ⟨p, hp, heq⟩ := mem_map.mp hk'
  have hle := hseq r hr
  have hlt := lt_of_mem_numbered hp
  omega

theorem append_le_of_numbered {α : Type} {rows : List α} {key : α → Int} {seq : Int}
    (hseq : ∀ r ∈ rows, key r ≤ seq) {β : Type} (xs : List β) {f : β × Int → α}
    (hf : ∀ p, key (f p) = p.2) : ∀ r ∈ rows ++ (numbered seq xs).map f,
      key r ≤ seq + xs.length := by
  intro r hr
  rcases mem_append.mp hr with hr | hr
  · have hle := hseq r hr
    omega
  · obtain ⟨p, hp, rfl⟩ := mem_map.mp hr
    rw [hf]
    exact le_of_mem_numbered hp

theorem ok_importRows (codec : CwdCodec) {db : Db} (hdb : db.Ok) {b : MigrationBundle}
    (hb : FromSource b) (history : HistoryPolicy) : (importRows codec db b history).1.Ok := by
  rw [importRows_eq codec hdb hb]
  exact
    { groups := nodup_insertAll hdb.groups
      tabs := nodup_insertAll hdb.tabs
      ui := nodup_insertAll hdb.ui
      dispatches := append_nodup_of_lt hdb.dispatches hdb.dispatchSeq _ fun _ => rfl
      dispatchSeq := append_le_of_numbered hdb.dispatchSeq _ fun _ => rfl
      notes := append_nodup_of_lt hdb.notes hdb.noteSeq _ fun _ => rfl
      noteSeq := append_le_of_numbered hdb.noteSeq _ fun _ => rfl }

/-- A group that is there already, without a conflict, is the imported one. -/
theorem existing_group {db : Db} (hdb : db.Ok) {session worktreePath : Text} {g : MigrationGroup}
    (hconflict : groupConflict (migrationTargetSnapshot db session worktreePath) g = false)
    {row : TabGroupRow} (hrow : row ∈ db.tabGroups) (hsession : row.sessionName = session)
    (hgs : g.sessionName = session) (hname : row.name = g.name) :
    row = persistedGroup g ∧
      (tabsOf db session g.name).map MigrationTab.sanitized =
        g.tabs.map MigrationTab.sanitized := by
  have hmem : withTabs session (sessionTabs db session) row ∈
      (migrationTargetSnapshot db session worktreePath).groups :=
    mem_targetGroups.mpr ⟨row, hrow, hsession, rfl⟩
  have hsame : sanitizedGroup (withTabs session (sessionTabs db session) row) =
    sanitizedGroup g := by
    unfold groupConflict at hconflict
    cases hfind : (migrationTargetSnapshot db session worktreePath).groups.find? fun g' =>
        g'.sessionName = g.sessionName && g'.name = g.name with
    | none =>
      have hnone := List.find?_eq_none.mp hfind _ hmem
      rw [Bool.and_eq_true, decide_eq_true_iff, decide_eq_true_iff] at hnone
      exact absurd ⟨hgs.symm, hname⟩ hnone
    | some g' =>
      have hfound := List.find?_some hfind
      rw [Bool.and_eq_true, decide_eq_true_iff, decide_eq_true_iff] at hfound
      rw [hfind, Option.any_some, decide_eq_false_iff_not, not_not] at hconflict
      have hg' := eq_of_name hdb (mem_of_find?_eq_some hfind) hmem (hfound.2.trans hname.symm)
      rw [← hg']
      exact hconflict
  rw [withTabs_sessionTabs] at hsame
  unfold sanitizedGroup MigrationGroup.mapTabs at hsame
  rw [MigrationGroup.mk.injEq] at hsame
  obtain ⟨-, -, hkind, hworktree, hordinal, hactive, htabs⟩ := hsame
  refine ⟨?_, by rw [← hname]; exact htabs⟩
  unfold persistedGroup
  rw [TabGroupRow.mk.injEq]
  exact ⟨hsession.trans hgs.symm, hname, hkind, hworktree, hordinal, hactive⟩

theorem nodup_persistedGroup {i : MigrationBundle} (hi : FromSource i) :
    ((i.groups.map persistedGroup).map TabGroupRow.key).Nodup := by
  rw [map_map]
  refine nodup_map_of hi.names ?_
  intro g _ g' _ hkey
  exact congrArg Prod.snd hkey

theorem mem_storedTabs {groups : List MigrationGroup} {t : MigrationTab} :
    t ∈ storedTabs groups ↔ ∃ g ∈ groups, ∃ t0 ∈ g.tabs, persistedTab t0 = t := by
  rw [storedTabs, mem_flatMap]
  exact exists_congr fun g => and_congr_right fun _ => mem_map

theorem nodup_storedTabs {i : MigrationBundle} (hi : FromSource i) :
    ((storedTabs i.groups).map MigrationTab.key).Nodup := by
  refine pairwise_map.mpr (pairwise_flatMap.mpr ⟨?_, ?_⟩)
  · intro g hg
    refine pairwise_map.mpr ((hi.tabs g hg).imp fun {t t'} hlt hkey => ?_)
    have hordinal : t.ordinal = t'.ordinal := congrArg (fun k => k.2.2) hkey
    rw [hordinal] at hlt
    exact lt_irrefl _ hlt
  · have hnames := pairwise_map.mp hi.names
    refine hnames.imp_of_mem fun {g g'} hg hg' hne => ?_
    intro t ht t' ht' hkey
    obtain ⟨t0, ht0, rfl⟩ := mem_map.mp ht
    obtain ⟨t0', ht0', rfl⟩ := mem_map.mp ht'
    have hgroup : t0.groupName = t0'.groupName := congrArg (fun k => k.2.1) hkey
    rw [(hi.tabGroup g hg t0 ht0).2, (hi.tabGroup g' hg' t0' ht0').2] at hgroup
    exact hne hgroup

/-- A tab of a bundle belongs to the one group it names. -/
theorem group_of_tab {i : MigrationBundle} (hi : FromSource i) {g g' : MigrationGroup}
    (hg : g ∈ i.groups)
    (hg' : g' ∈ i.groups) {t : MigrationTab} (ht : t ∈ g'.tabs) (hname : t.groupName = g.name) :
    g' = g :=
  eq_of_key hi.names hg' hg (((hi.tabGroup g' hg' t ht).2).symm.trans hname)

section Fresh

variable {db db' : Db} (hdb : db.Ok) {i : MigrationBundle} (hi : FromSource i)
  (hconflict : ∀ g ∈ i.groups,
    groupConflict (migrationTargetSnapshot db i.sessionName i.worktreePath) g = false)

include hdb hi hconflict in
theorem fresh_groups
    (htables : db'.tabGroups = insertAll TabGroupRow.key db.tabGroups
      (i.groups.map persistedGroup)) :
    ∀ g ∈ i.groups, persistedGroup g ∈ db'.tabGroups := by
  intro g hg
  rw [htables, mem_insertAll (nodup_persistedGroup hi)]
  by_cases htaken : (persistedGroup g).key ∈ db.tabGroups.map TabGroupRow.key
  · obtain ⟨row, hrow, hkey⟩ := mem_map.mp htaken
    have hgs := hi.groupSession g hg
    have hsession : row.sessionName = i.sessionName := (congrArg Prod.fst hkey).trans hgs
    obtain ⟨heq, -⟩ :=
      existing_group hdb (hconflict g hg) hrow hsession hgs (congrArg Prod.snd hkey)
    rw [← heq]
    exact .inl hrow
  · exact .inr ⟨mem_map_of_mem hg, htaken⟩

include hdb hi hconflict in
theorem fresh_tabs (hintact : db.Intact) (hdb' : db'.Ok)
    (htables : db'.groupTabs = insertAll MigrationTab.key db.groupTabs (storedTabs i.groups)) :
    ∀ g ∈ i.groups, (tabsOf db' i.sessionName g.name).map MigrationTab.sanitized =
        g.tabs.map MigrationTab.sanitized := by
  intro g hg
  have hgs := hi.groupSession g hg
  have hordinal : ∀ tabs : List MigrationTab, Ascending MigrationTab.ordinal tabs →
      Ascending MigrationTab.ordinal (tabs.map MigrationTab.sanitized) :=
    fun tabs h => pairwise_map.mpr h
  refine eq_of_ascending (hordinal _ (ascending_tabsOf hdb' _ _)) (hordinal _ (hi.tabs g hg)) ?_
  intro x
  -- a tab that is added belongs to the group
  have hadded : ∀ t ∈ storedTabs i.groups, t.groupName = g.name →
      t.sanitized ∈ g.tabs.map MigrationTab.sanitized := by
    intro t ht hname
    obtain ⟨g', hg', t0, ht0, rfl⟩ := mem_storedTabs.mp ht
    obtain rfl := group_of_tab hi hg hg' ht0 hname
    exact mem_map.mpr ⟨t0, ht0, rfl⟩
  have hmem : ∀ t, t ∈ tabsOf db' i.sessionName g.name ↔
      (t ∈ db.groupTabs ∨ t ∈ storedTabs i.groups ∧ t.key ∉ db.groupTabs.map MigrationTab.key) ∧
        t.sessionName = i.sessionName ∧ t.groupName = g.name := by
    intro t
    rw [mem_tabsOf, htables, mem_insertAll (nodup_storedTabs hi)]
  by_cases htaken : (i.sessionName, g.name) ∈ db.tabGroups.map TabGroupRow.key
  · obtain ⟨row, hrow, hkey⟩ := mem_map.mp htaken
    obtain ⟨-, htabs⟩ := existing_group hdb (hconflict g hg) hrow (congrArg Prod.fst hkey) hgs
      (congrArg Prod.snd hkey)
    constructor
    · intro hx
      obtain ⟨t, ht, rfl⟩ := mem_map.mp hx
      obtain ⟨hold | hnew, hplace⟩ := (hmem t).mp ht
      · rw [← htabs]
        exact mem_map_of_mem (mem_tabsOf.mpr ⟨hold, hplace⟩)
      · exact hadded t hnew.1 hplace.2
    · intro hx
      rw [← htabs] at hx
      obtain ⟨t, ht, rfl⟩ := mem_map.mp hx
      have ht' := mem_tabsOf.mp ht
      exact mem_map_of_mem ((hmem t).mpr ⟨.inl ht'.1, ht'.2⟩)
  · have hnone : ∀ t ∈ db.groupTabs, t.sessionName = i.sessionName → t.groupName ≠ g.name := by
      intro t ht hsession hname
      have howner := hintact.tabs t ht
      rw [hsession, hname] at howner
      exact htaken howner
    constructor
    · intro hx
      obtain ⟨t, ht, rfl⟩ := mem_map.mp hx
      obtain ⟨hold | hnew, hplace⟩ := (hmem t).mp ht
      · exact absurd hplace.2 (hnone t hold hplace.1)
      · exact hadded t hnew.1 hplace.2
    · intro hx
      obtain ⟨t0, ht0, rfl⟩ := mem_map.mp hx
      have hplace := hi.tabGroup g hg t0 ht0
      refine mem_map.mpr ⟨persistedTab t0, (hmem _).mpr ⟨.inr ⟨?_, ?_⟩, hplace⟩, rfl⟩
      · exact mem_storedTabs.mpr ⟨g, hg, t0, ht0, rfl⟩
      · intro hkey
        obtain ⟨t, ht, heq⟩ := mem_map.mp hkey
        have hsession : t.sessionName = t0.sessionName := congrArg Prod.fst heq
        have hgroup : t.groupName = t0.groupName := congrArg (fun k => k.2.1) heq
        exact hnone t ht (hsession.trans hplace.1) (hgroup.trans hplace.2)

omit hconflict in
include hdb hi in
theorem fresh_ui
    (hempty : (targetSubset i (migrationTargetSnapshot db i.sessionName i.worktreePath)).uiState =
      [])
    (htables : db'.uiState = insertAll MigrationUiState.rowKey db.uiState i.uiState) :
    ∀ row ∈ i.uiState, row ∈ db'.uiState := by
  intro row hrow
  have hnodup : (i.uiState.map MigrationUiState.rowKey).Nodup := by
    refine nodup_map_of hi.ui.nodup_map ?_
    intro r _ r' _ hkey
    exact congrArg toLex hkey
  rw [htables, mem_insertAll hnodup]
  refine .inr ⟨hrow, fun htaken => ?_⟩
  obtain ⟨row', hrow', hkey⟩ := mem_map.mp htaken
  have hscope : row'.scope = sidebarScope := (congrArg Prod.fst hkey).trans (hi.uiScope row hrow)
  rw [targetSubset_uiState hdb, filter_eq_nil_iff] at hempty
  refine hempty row' (mem_sidebarRows.mpr ⟨hrow', hscope⟩) ?_
  exact contains_iff_mem.mpr (mem_map.mpr ⟨row, hrow, hkey.symm⟩)

end Fresh

/-- The state of a session's pins that an import leaves. -/
theorem sessionPin_pinned {db db' : Db} {b : MigrationBundle}
    (htables : db'.sessionState = pinnedSessions db b)
    {pin : Text} (hpin : b.pinState = some pin) : (sessionPin db' b.sessionName).1 = some pin := by
  unfold sessionPin
  rw [htables, pinnedSessions, hpin, Option.map_some, Option.getD_some, setPin]
  dsimp only
  split_ifs with hany
  · rw [List.find?_map]
    have hcomp : ((fun row : SessionRow => decide (row.sessionName = b.sessionName)) ∘
        fun row => if row.sessionName = b.sessionName then { row with pinState := some pin }
          else row) =
        fun row => decide (row.sessionName = b.sessionName) := by
      funext row
      rw [Function.comp_apply]
      split_ifs
      · rfl
      · rfl
    rw [hcomp]
    cases hfind : db.sessionState.find? fun row => row.sessionName = b.sessionName with
    | none =>
      rw [any_eq_true] at hany
      obtain ⟨row, hrow, hname⟩ := hany
      exact absurd hname (List.find?_eq_none.mp hfind row hrow)
    | some row =>
      have hfound := List.find?_some hfind
      rw [Option.map_some, if_pos (of_decide_eq_true hfound)]
  · have hnone : db.sessionState.find? (fun row => row.sessionName = b.sessionName) = none := by
      rw [List.find?_eq_none]
      intro row hrow hname
      exact hany (any_eq_true.mpr ⟨row, hrow, hname⟩)
    rw [List.find?_append, hnone, Option.none_or, List.find?_cons, decide_eq_true rfl]

/-! ## Numbers -/

section Numbers

variable {ds : List MigrationDispatch} (h : Ascending MigrationDispatch.sourceId ds) (seq : Int)
include h

/-- New numbers are in the order of the old ones. -/
theorem number_lt {p q : MigrationDispatch × Int} (hp : p ∈ numbered seq ds)
    (hq : q ∈ numbered seq ds) (hlt : p.1.sourceId < q.1.sourceId) : p.2 < q.2 := by
  have hpair := pairwise_iff_getElem.mp (pairwise_numbered h seq)
  obtain ⟨m, hm, rfl⟩ := mem_iff_getElem.mp hp
  obtain ⟨n, hn, rfl⟩ := mem_iff_getElem.mp hq
  rcases Nat.lt_trichotomy m n with hmn | rfl | hmn
  · exact (hpair m n hm hn hmn).2
  · exact absurd hlt (lt_irrefl _)
  · exact absurd hlt (not_lt.mpr (hpair n m hn hm hmn).1.le)

/-- A dispatch has one position, under either number. -/
theorem indexIn_number {p : MigrationDispatch × Int} (hp : p ∈ numbered seq ds) :
    indexIn ((numbered seq ds).map Prod.snd) p.2 =
      indexIn (ds.map MigrationDispatch.sourceId) p.1.sourceId := by
  rw [← map_numbered seq ds MigrationDispatch.sourceId]
  refine indexIn_map (f := Prod.snd) (g := fun p : MigrationDispatch × Int => p.1.sourceId)
    fun q hq => ?_
  constructor
  · intro heq
    rw [eq_of_number hq hp heq]
  · intro heq
    rw [eq_of_sourceId h seq hq hp heq]

/-- Looking a number up keeps its position, also of one that is not there. -/
theorem bind_indexIn (k : Int) :
    (lookupId (idPairs seq ds) k).bind (indexIn ((numbered seq ds).map Prod.snd)) =
      indexIn (ds.map MigrationDispatch.sourceId) k := by
  cases hlookup : lookupId (idPairs seq ds) k with
  | none =>
    refine (indexIn_eq_none fun hk => ?_).symm
    obtain ⟨d, hd, rfl⟩ := mem_map.mp hk
    obtain ⟨n, hn⟩ := exists_numbered seq hd
    rw [lookupId_idPairs h seq hn] at hlookup
    cases hlookup
  | some v =>
    obtain ⟨p, hp, rfl, rfl⟩ := exists_of_lookupId seq hlookup
    exact indexIn_number h seq hp

end Numbers

/-! ## Dispatches and notes of a fresh import -/

section FreshRows

variable {db db' : Db} {b : MigrationBundle} (hb : FromSource b) {history : HistoryPolicy}
  (hempty : dispatchesForWorktree db b.worktreePath = [])
  (hdispatches : db'.dispatches = db.dispatches ++ (numbered db.dispatchSeq b.dispatches).map
    (storedDispatch history (idPairs db.dispatchSeq b.dispatches)))

include hb hempty hdispatches in
/-- The rows of the worktree are the imported ones, in the order of the bundle. -/
theorem fresh_rows (hdb' : db'.Ok) :
    dispatchesForWorktree db' b.worktreePath = (numbered db.dispatchSeq b.dispatches).map
      (storedDispatch history (idPairs db.dispatchSeq b.dispatches)) := by
  refine eq_of_ascending (ascending_dispatchesForWorktree hdb' _)
    (pairwise_map.mpr (ascending_numbered _ _)) ?_
  intro d
  rw [mem_dispatchesForWorktree, hdispatches, mem_append]
  constructor
  · rintro ⟨hold | hnew, hpath⟩
    · have hd : d ∈ dispatchesForWorktree db b.worktreePath :=
        mem_dispatchesForWorktree.mpr ⟨hold, hpath⟩
      rw [hempty] at hd
      cases hd
    · exact hnew
  · intro hnew
    refine ⟨.inr hnew, ?_⟩
    obtain ⟨p, hp, rfl⟩ := mem_map.mp hnew
    exact (worktreePath_importedRow history p.1).trans
      (hb.worktreePath p.1 (mem_of_mem_numbered hp))

theorem map_sourceId_stored (seq : Int) (ids : List (Int × Int)) (ds : List MigrationDispatch) :
    ((numbered seq ds).map (storedDispatch history ids)).map MigrationDispatch.sourceId =
      (numbered seq ds).map Prod.snd := by
  rw [map_map]
  rfl

theorem fingerprint_stored {ds : List MigrationDispatch}
    (h : Ascending MigrationDispatch.sourceId ds) (seq : Int) (p : MigrationDispatch × Int) :
    (storedDispatch history (idPairs seq ds) p).fingerprint ((numbered seq ds).map Prod.snd) =
      (importedRow history p.1).fingerprint (ds.map MigrationDispatch.sourceId) := by
  have hparent : (p.1.parentId.bind (lookupId (idPairs seq ds))).bind
      (indexIn ((numbered seq ds).map Prod.snd)) =
        (importedRow history p.1).parentId.bind (indexIn (ds.map MigrationDispatch.sourceId)) := by
    rw [parentId_importedRow]
    cases p.1.parentId with
    | none => rfl
    | some k => exact bind_indexIn h seq k
  unfold MigrationDispatch.fingerprint storedDispatch
  dsimp only
  rw [hparent]

include hb hempty hdispatches in
theorem fresh_dispatches (codec : CwdCodec) (hdb' : db'.Ok) :
    (dispatchesForWorktree db' b.worktreePath).map (MigrationDispatch.fingerprint
        ((dispatchesForWorktree db' b.worktreePath).map MigrationDispatch.sourceId)) =
      (importedBundle codec b history).dispatches.map (MigrationDispatch.fingerprint
        ((importedBundle codec b history).dispatches.map MigrationDispatch.sourceId)) := by
  have hids : (b.dispatches.map (importedRow history)).map MigrationDispatch.sourceId =
      b.dispatches.map MigrationDispatch.sourceId := by
    rw [map_map]
    exact map_congr_left fun d _ => sourceId_importedRow history d
  rw [fresh_rows hb hempty hdispatches hdb', dispatches_imported, hids,
    map_sourceId_stored, map_map,
    map_map, ← map_numbered db.dispatchSeq b.dispatches (MigrationDispatch.fingerprint _ ∘ _)]
  exact map_congr_left fun p _ => fingerprint_stored hb.dispatches db.dispatchSeq p

include hb hempty hdispatches in
theorem fresh_notes (codec : CwdCodec) (hintact : db.Intact) (hdb' : db'.Ok)
    (hnotes : db'.notes = db.notes ++
      (numbered db.noteSeq (importedBundle codec b history).notes).map
      (storedNote (idPairs db.dispatchSeq b.dispatches))) :
    (sortOn MigrationNote.rank (notesForDispatches db'
        ((dispatchesForWorktree db' b.worktreePath).map MigrationDispatch.sourceId))).map
        (MigrationNote.fingerprint
          ((dispatchesForWorktree db' b.worktreePath).map MigrationDispatch.sourceId)) =
      (importedBundle codec b history).notes.map (MigrationNote.fingerprint
        ((importedBundle codec b history).dispatches.map MigrationDispatch.sourceId)) := by
  have hids : (b.dispatches.map (importedRow history)).map MigrationDispatch.sourceId =
      b.dispatches.map MigrationDispatch.sourceId := by
    rw [map_map]
    exact map_congr_left fun d _ => sourceId_importedRow history d
  have hnodup := (ascending_dispatchesForWorktree hdb' b.worktreePath).nodup_map
  rw [fresh_rows hb hempty hdispatches hdb', map_sourceId_stored] at hnodup ⊢
  rw [dispatches_imported, hids]
  have hi := fromSource_imported codec hb history
  -- the dispatch of a note has a new number
  have hdispatch : ∀ n ∈ (importedBundle codec b history).notes,
    ∃ p ∈ numbered db.dispatchSeq b.dispatches, p.1.sourceId = n.dispatchId ∧
        lookupId (idPairs db.dispatchSeq b.dispatches) n.dispatchId = some p.2 := by
    intro n hn
    obtain ⟨d, hd, hid⟩ := mem_map.mp
      (hb.noteDispatch n ((sublist_notes_imported codec b history).subset hn))
    obtain ⟨v, hv⟩ := exists_numbered db.dispatchSeq hd
    refine ⟨_, hv, hid, ?_⟩
    rw [← hid]
    exact lookupId_idPairs hb.dispatches db.dispatchSeq hv
  have hsorted : sortOn MigrationNote.rank (notesForDispatches db'
      ((numbered db.dispatchSeq b.dispatches).map Prod.snd)) =
        (numbered db.noteSeq (importedBundle codec b history).notes).map
          (storedNote (idPairs db.dispatchSeq b.dispatches)) := by
    refine eq_of_ascending (ascending_notes hdb' hnodup) ?_ ?_
    · refine pairwise_map.mpr ((pairwise_numbered hi.notes db.noteSeq).imp_of_mem ?_)
      intro m n hm hn hlt
      obtain ⟨p, hp, hpid, hplookup⟩ := hdispatch m.1 (mem_of_mem_numbered hm)
      obtain ⟨q, hq, hqid, hqlookup⟩ := hdispatch n.1 (mem_of_mem_numbered hn)
      obtain ⟨hrank, hnumber⟩ := hlt
      unfold MigrationNote.rank storedNote at *
      rw [Prod.Lex.toLex_lt_toLex, Prod.Lex.toLex_lt_toLex] at hrank ⊢
      dsimp only at hrank ⊢
      rw [hplookup, hqlookup, Option.getD_some, Option.getD_some]
      rcases hrank with hlt | ⟨heq, hlt | ⟨hcreated, -⟩⟩
      · rw [← hpid, ← hqid] at hlt
        exact .inl (number_lt hb.dispatches db.dispatchSeq hp hq hlt)
      · rw [eq_of_sourceId hb.dispatches db.dispatchSeq hp hq (hpid.trans (heq.trans hqid.symm))]
        exact .inr ⟨rfl, .inl hlt⟩
      · rw [eq_of_sourceId hb.dispatches db.dispatchSeq hp hq (hpid.trans (heq.trans hqid.symm))]
        exact .inr ⟨rfl, .inr ⟨hcreated, hnumber⟩⟩
    · intro n
      rw [mem_sortOn, mem_notesForDispatches, hnotes, mem_append]
      constructor
      · rintro ⟨hold | hnew, hid⟩
        · -- the notes that were there belong to older dispatches
          obtain ⟨p, hp, heq⟩ := mem_map.mp hid
          have hle := hintact.notes n hold
          have hlt := lt_of_mem_numbered hp
          omega
        · exact hnew
      · intro hnew
        refine ⟨.inr hnew, ?_⟩
        obtain ⟨m, hm, rfl⟩ := mem_map.mp hnew
        obtain ⟨p, hp, -, hplookup⟩ := hdispatch m.1 (mem_of_mem_numbered hm)
        unfold storedNote
        dsimp only
        rw [hplookup, Option.getD_some]
        exact mem_map_of_mem hp
  rw [hsorted, map_map, ← map_numbered db.noteSeq _ (MigrationNote.fingerprint _)]
  refine map_congr_left fun m hm => ?_
  obtain ⟨p, hp, hpid, hplookup⟩ := hdispatch m.1 (mem_of_mem_numbered hm)
  simp only [Function.comp_apply, MigrationNote.fingerprint, storedNote, hplookup, Option.getD_some]
  rw [indexIn_number hb.dispatches db.dispatchSeq hp, hpid]

end FreshRows

end Thegn.Migration

import Thegn.Migration.Bundle
import Thegn.Resume.Structure

set_option autoImplicit false

/-! # Dropped history leaks nothing

Two bundles that differ only in their history, in locators of the source and in working directories
outside the moved worktree are imported alike, up to notes of one of five fixed texts
(`drop_leaks_nothing`).
-/

namespace Thegn.Migration

open Text Dispatch List

/-! ## Notes of parked rows -/

/-- The notes that survive without history. -/
def migrationNotes : List Text :=
  ["[migrated while queued: not resumed]".toList, "[migrated while spawning: not resumed]".toList,
   "[migrated while running: not resumed]".toList,
   "[migrated while waiting_human: not resumed]".toList,
   "[migrated while pr_open: not resumed]".toList]

theorem migratedNote_none_mem {status : Text}
    (h : (AgentDispatchStatus.parse status).isActive = true) :
    migratedNote status none ∈ migrationNotes := by
  have hnote : migratedNote status none =
      migratedHead ++ (AgentDispatchStatus.parse status).asStr ++ migratedTail := by
    rw [AgentDispatchStatus.asStr_parse h]
    rfl
  rw [hnote]
  cases hst : AgentDispatchStatus.parse status with
  | queued | spawning | running | waitingHuman | prOpen => decide +kernel
  | merged | abandoned | done | failed | unknown =>
    rw [hst] at h
    cases h

theorem isMigrationPrefix_of_mem {note : Text} (h : note ∈ migrationNotes) :
    isMigrationPrefix note = true := by
  have hall : ∀ note ∈ migrationNotes, isMigrationPrefix note = true := by decide +kernel
  exact hall note h

theorem mem_of_isMigrationPrefix {note : Text} (h : isMigrationPrefix note = true) :
    note ∈ migrationNotes := by
  unfold isMigrationPrefix at h
  split at h
  · cases h
  · rename_i status _
    rw [Bool.and_eq_true, beq_iff_eq] at h
    rw [← h.2]
    exact migratedNote_none_mem h.1

/-! ## Rows without history -/

/-- The form of a row that is stored without history. -/
def droppedDispatch (source : MigrationDispatch) : MigrationDispatch :=
  { importedDispatch source with report := none, note := droppedNote source }

theorem dispatches_drop (codec : CwdCodec) (b : MigrationBundle) :
    (importedBundle codec b .drop).dispatches = b.dispatches.map droppedDispatch := by
  unfold importedBundle
  dsimp only
  rw [zip_map_right, map_map]
  induction b.dispatches with
  | nil => rfl
  | cons row rows ih =>
    rw [zip_cons_cons, map_cons, map_cons, ih]
    rfl

theorem droppedNote_mem {source : MigrationDispatch} {note : Text}
    (h : droppedNote source = some note) : note ∈ migrationNotes := by
  unfold droppedNote at h
  split_ifs at h with hactive hkept
  · cases h
    exact migratedNote_none_mem hactive
  · have hprefix := hkept.2
    rw [h, Option.any_some] at hprefix
    exact mem_of_isMigrationPrefix hprefix

theorem not_isActive_abandoned :
    (AgentDispatchStatus.parse AgentDispatchStatus.abandoned.asStr).isActive = false := by
  rw [AgentDispatchStatus.parse_asStr]
  rfl

theorem importedDispatch_idem (row : MigrationDispatch) :
    importedDispatch (importedDispatch row) = importedDispatch row := by
  unfold importedDispatch
  dsimp only
  by_cases hactive : (AgentDispatchStatus.parse row.status).isActive = true
  · simp only [if_pos hactive, not_isActive_abandoned, Bool.false_eq_true, if_false]
  · simp only [if_neg hactive]

/-- A note that was kept is kept again. -/
theorem droppedNote_idem (source : MigrationDispatch) :
    droppedNote (droppedDispatch source) = droppedNote source := by
  have hnote : (droppedDispatch source).note = droppedNote source := rfl
  by_cases hactive : (AgentDispatchStatus.parse source.status).isActive = true
  · have hstatus : (droppedDispatch source).status = AgentDispatchStatus.abandoned.asStr := by
      unfold droppedDispatch importedDispatch
      rw [if_pos hactive]
    have hkept : droppedNote source = some (migratedNote source.status none) := by
      unfold droppedNote
      rw [if_pos hactive]
    have hprefix := isMigrationPrefix_of_mem (migratedNote_none_mem hactive)
    unfold droppedNote at ⊢
    rw [hstatus, hnote, not_isActive_abandoned, if_neg Bool.false_ne_true, hkept, Option.any_some,
      if_pos ⟨rfl, hprefix⟩]
    rw [if_pos hactive]
  · have hstatus : (droppedDispatch source).status = source.status := by
      unfold droppedDispatch importedDispatch
      rw [if_neg hactive]
    unfold droppedNote
    rw [hstatus, if_neg hactive, if_neg hactive, hnote]
    unfold droppedNote
    rw [if_neg hactive]
    by_cases hkept : source.status = AgentDispatchStatus.abandoned.asStr ∧
        source.note.any isMigrationPrefix = true
    · rw [if_pos hkept, if_pos hkept]
    · rw [if_neg hkept, if_neg (by simp)]

theorem droppedDispatch_idem (source : MigrationDispatch) :
    droppedDispatch (droppedDispatch source) = droppedDispatch source := by
  have himported : importedDispatch (droppedDispatch source) =
      { importedDispatch source with report := none, note := droppedNote source } := by
    by_cases hactive : (AgentDispatchStatus.parse source.status).isActive = true
    · unfold droppedDispatch importedDispatch
      simp only [if_pos hactive, not_isActive_abandoned, Bool.false_eq_true, if_false]
    · unfold droppedDispatch importedDispatch
      simp only [if_neg hactive]
  rw [droppedDispatch, himported, droppedNote_idem]
  rfl

/-! ## Working directories -/

/-- The working directories of a tab that lie inside the worktree, if the tab has a map of them. -/
def insideCwds (codec : CwdCodec) (worktreePath paneCwds : Text) : Option PaneCwds :=
  if paneCwds = [] then none else (codec.decode paneCwds).map
    (·.filter (insideWorktree worktreePath))

theorem scopedPaneCwds_eq (codec : CwdCodec) (paneCwds worktreePath : Text) :
    scopedPaneCwds codec paneCwds worktreePath =
      ((insideCwds codec worktreePath paneCwds).map codec.encode).getD [] := by
  unfold scopedPaneCwds insideCwds
  split_ifs
  · rfl
  · cases codec.decode paneCwds with
    | none => rfl
    | some m => rfl

theorem PaneCwds.filter_idem (m : PaneCwds) (p : Text → Bool) :
    (m.filter p).filter p = m.filter p := by
  unfold PaneCwds.filter
  congr 1
  rw [filter_filter]
  congr 1
  funext e
  rw [Bool.and_self]

theorem scopedPaneCwds_idem {codec : CwdCodec} (hcodec : codec.RoundTrips)
    (paneCwds worktreePath : Text) :
    scopedPaneCwds codec (scopedPaneCwds codec paneCwds worktreePath) worktreePath =
      scopedPaneCwds codec paneCwds worktreePath := by
  rw [scopedPaneCwds_eq codec paneCwds]
  cases hinside : insideCwds codec worktreePath paneCwds with
  | none => rfl
  | some m =>
    rw [Option.map_some, Option.getD_some]
    -- the map that is written has been filtered
    have hfilter : m.filter (insideWorktree worktreePath) = m := by
      unfold insideCwds at hinside
      split_ifs at hinside
      obtain ⟨m', -, rfl⟩ := Option.map_eq_some_iff.mp hinside
      exact m'.filter_idem _
    unfold scopedPaneCwds
    split_ifs with hempty
    · exact hempty.symm
    · rw [hcodec m]
      dsimp only
      rw [hfilter]

/-! ## The imported form is imported as it is -/

theorem MigrationTab.scoped_idem {codec : CwdCodec} (hcodec : codec.RoundTrips)
    (worktreePath : Text)
    (tab : MigrationTab) : (tab.scoped codec worktreePath).scoped codec worktreePath =
      tab.scoped codec worktreePath := by
  unfold MigrationTab.scoped
  rw [scopedPaneCwds_idem hcodec]

theorem MigrationTab.dropped_idem {codec : CwdCodec} (hcodec : codec.RoundTrips)
    (worktreePath : Text) (tab : MigrationTab) :
    ((tab.scoped codec worktreePath).dropHistory.scoped codec worktreePath).dropHistory =
      (tab.scoped codec worktreePath).dropHistory := by
  unfold MigrationTab.scoped MigrationTab.dropHistory
  rw [scopedPaneCwds_idem hcodec]

theorem MigrationGroup.mapTabs_mapTabs (f g : MigrationTab → MigrationTab)
    (group : MigrationGroup) : (group.mapTabs f).mapTabs g = group.mapTabs (g ∘ f) := by
  unfold MigrationGroup.mapTabs
  rw [map_map]

theorem groups_drop (codec : CwdCodec) (b : MigrationBundle) :
    (importedBundle codec b .drop).groups =
      b.groups.map (.mapTabs fun tab => (tab.scoped codec b.worktreePath).dropHistory) := by
  unfold importedBundle
  dsimp only
  rw [map_map]
  exact map_congr_left fun group _ => group.mapTabs_mapTabs _ _

/-- A form that tabs keep is kept by the groups. -/
theorem map_mapTabs_idem {f : MigrationTab → MigrationTab} (hf : ∀ tab, f (f tab) = f tab)
    (groups : List MigrationGroup) :
    (groups.map (MigrationGroup.mapTabs f)).map (MigrationGroup.mapTabs f) =
      groups.map (MigrationGroup.mapTabs f) := by
  rw [map_map]
  refine map_congr_left fun group _ => ?_
  rw [Function.comp_apply, MigrationGroup.mapTabs_mapTabs]
  congr 1
  funext tab
  exact hf tab

theorem importedBundle_idem {codec : CwdCodec} (hcodec : codec.RoundTrips) (b : MigrationBundle)
    (history : HistoryPolicy) :
    importedBundle codec (importedBundle codec b history) history =
      importedBundle codec b history := by
  cases history with
  | included =>
    unfold importedBundle
    dsimp only
    rw [map_mapTabs_idem (MigrationTab.scoped_idem hcodec b.worktreePath), map_map]
    congr 1
    exact map_congr_left fun row _ => importedDispatch_idem row
  | drop =>
    have hgroups : (importedBundle codec (importedBundle codec b .drop) .drop).groups =
        (importedBundle codec b .drop).groups := by
      rw [groups_drop codec (importedBundle codec b .drop), groups_drop codec b]
      exact map_mapTabs_idem (MigrationTab.dropped_idem hcodec b.worktreePath) b.groups
    have hdispatches : (importedBundle codec (importedBundle codec b .drop) .drop).dispatches =
        (importedBundle codec b .drop).dispatches := by
      rw [dispatches_drop codec (importedBundle codec b .drop), dispatches_drop codec b, map_map]
      exact map_congr_left fun row _ => droppedDispatch_idem row
    calc importedBundle codec (importedBundle codec b .drop) .drop
        = { importedBundle codec b .drop with
            groups := (importedBundle codec (importedBundle codec b .drop) .drop).groups
            dispatches :=
              (importedBundle codec (importedBundle codec b .drop) .drop).dispatches } := rfl
      _ = importedBundle codec b .drop := by rw [hgroups, hdispatches]

/-! ## Agreement -/

/-- A tab without its history, its daemon sessions and its working directories. -/
def MigrationTab.withoutPrivate (tab : MigrationTab) : MigrationTab :=
  { tab with paneCwds := [], paneCmds := [], paneSessions := [], scrollbackSnapshot := [] }

/-- A row without its history and the locators of its source. -/
def MigrationDispatch.withoutPrivate (row : MigrationDispatch) : MigrationDispatch :=
  { row with
    sessionId := none, artifactPath := none, note := none, chunkPath := none, report := none }

structure MigrationTab.Agrees (codec : CwdCodec) (worktreePath : Text) (a b : MigrationTab) :
    Prop where
  rest : a.withoutPrivate = b.withoutPrivate
  cwds : insideCwds codec worktreePath a.paneCwds = insideCwds codec worktreePath b.paneCwds

structure MigrationGroup.Agrees (codec : CwdCodec) (worktreePath : Text) (a b : MigrationGroup) :
    Prop where
  rest : { a with tabs := [] } = { b with tabs := [] }
  tabs : List.Forall₂ (MigrationTab.Agrees codec worktreePath) a.tabs b.tabs

/-- Bundles that differ only in what is private. -/
structure MigrationBundle.Agrees (codec : CwdCodec) (a b : MigrationBundle) : Prop where
  rest : { a with groups := [], dispatches := [], notes := [] } =
    { b with groups := [], dispatches := [], notes := [] }
  groups : List.Forall₂ (MigrationGroup.Agrees codec a.worktreePath) a.groups b.groups
  dispatches : List.Forall₂ (fun x y => x.withoutPrivate = y.withoutPrivate) a.dispatches
    b.dispatches

/-- The importer writes no session of a pane. -/
def MigrationTab.withoutSessions (tab : MigrationTab) : MigrationTab :=
  { tab with paneSessions := [] }

def MigrationBundle.withoutSessions (b : MigrationBundle) : MigrationBundle :=
  { b with groups := b.groups.map (.mapTabs .withoutSessions) }

/-- Lists that are related are mapped alike when related values are. -/
theorem map_eq_of_forall₂ {α β : Type} {R : α → α → Prop} {f g : α → β}
    (hfg : ∀ x y, R x y → f x = g y)
    {xs ys : List α} (h : List.Forall₂ R xs ys) : xs.map f = ys.map g := by
  induction h with
  | nil => rfl
  | cons hxy _ ih => rw [map_cons, map_cons, hfg _ _ hxy, ih]

theorem MigrationTab.Agrees.imported {codec : CwdCodec} {worktreePath : Text} {a b : MigrationTab}
    (h : a.Agrees codec worktreePath b) :
    ((a.scoped codec worktreePath).dropHistory).withoutSessions =
      ((b.scoped codec worktreePath).dropHistory).withoutSessions := by
  have hcwds : scopedPaneCwds codec a.paneCwds worktreePath =
      scopedPaneCwds codec b.paneCwds worktreePath := by
    rw [scopedPaneCwds_eq, scopedPaneCwds_eq, h.cwds]
  have hrest := h.rest
  unfold MigrationTab.withoutPrivate at hrest
  rw [MigrationTab.mk.injEq] at hrest
  obtain ⟨h1, h2, h3, h4, h5, h6, -⟩ := hrest
  unfold MigrationTab.scoped MigrationTab.dropHistory MigrationTab.withoutSessions
  rw [hcwds, h1, h2, h3, h4, h5, h6]

theorem MigrationGroup.Agrees.imported {codec : CwdCodec} {worktreePath : Text}
    {a b : MigrationGroup} (h : a.Agrees codec worktreePath b) :
    (a.mapTabs fun tab => (tab.scoped codec worktreePath).dropHistory).mapTabs .withoutSessions =
      (b.mapTabs fun tab => (tab.scoped codec worktreePath).dropHistory).mapTabs
      .withoutSessions := by
  rw [MigrationGroup.mapTabs_mapTabs, MigrationGroup.mapTabs_mapTabs]
  have htabs := map_eq_of_forall₂ (fun _ _ htab => MigrationTab.Agrees.imported htab) h.tabs
  have hrest := h.rest
  rw [MigrationGroup.mk.injEq] at hrest
  obtain ⟨h1, h2, h3, h4, h5, h6, -⟩ := hrest
  unfold MigrationGroup.mapTabs
  rw [h1, h2, h3, h4, h5, h6]
  exact congrArg _ htabs

/-- Rows that agree are stored alike, but for a note, and the note too unless the row was
abandoned. -/
theorem droppedDispatch_agree {a b : MigrationDispatch} (h : a.withoutPrivate = b.withoutPrivate) :
    { droppedDispatch a with note := none } = { droppedDispatch b with note := none } ∧
      (a.status ≠ AgentDispatchStatus.abandoned.asStr →
        (droppedDispatch a).note = (droppedDispatch b).note) := by
  unfold MigrationDispatch.withoutPrivate at h
  rw [MigrationDispatch.mk.injEq] at h
  obtain ⟨h1, h2, h3, h4, h5, hstatus, h7, h8, -, -, -, -, -, h14⟩ := h
  refine ⟨?_, ?_⟩
  · unfold droppedDispatch importedDispatch
    rw [hstatus]
    split_ifs
    · simp only [h1, h2, h3, h4, h5, h7, h8, h14]
    · simp only [h1, h2, h3, h4, h5, h7, h8, h14]
  · intro hne
    have hkept : ∀ row : MigrationDispatch, row.status = a.status → droppedNote row =
        if (AgentDispatchStatus.parse a.status).isActive then some (migratedNote a.status none)
        else none := by
      intro row hrow
      unfold droppedNote
      rw [hrow]
      congr 1
      exact if_neg fun h => hne h.1
    exact (hkept a rfl).trans (hkept b hstatus.symm).symm

/-- **Dropped history leaks nothing.** -/
theorem drop_leaks_nothing (codec : CwdCodec) (hcodec : codec.RoundTrips) :
    (∀ a b : MigrationBundle, a.Agrees codec b →
      { (importedBundle codec a .drop).withoutSessions with dispatches := [] } =
        { (importedBundle codec b .drop).withoutSessions with dispatches := [] } ∧
      (importedBundle codec a .drop).dispatches.length =
        (importedBundle codec b .drop).dispatches.length ∧
      ∀ (i : Nat) (source row row' : MigrationDispatch), a.dispatches[i]? = some source →
        (importedBundle codec a .drop).dispatches[i]? = some row →
        (importedBundle codec b .drop).dispatches[i]? = some row' →
        { row with note := none } = { row' with note := none } ∧
        (source.status ≠ AgentDispatchStatus.abandoned.asStr → row.note = row'.note) ∧
        ∀ note, row.note = some note → note ∈ migrationNotes) ∧
    ∀ (b : MigrationBundle) (history : HistoryPolicy),
      importedBundle codec (importedBundle codec b history) history =
        importedBundle codec b history := by
  refine ⟨fun a b h => ⟨?_, ?_, ?_⟩, importedBundle_idem hcodec⟩
  · have hrest := h.rest
    rw [MigrationBundle.mk.injEq] at hrest
    obtain ⟨h1, h2, h3, hworktree, h5, -, h7, -, -, h10, h11⟩ := hrest
    have hgroups : (importedBundle codec a .drop).groups.map
      (MigrationGroup.mapTabs .withoutSessions) =
        (importedBundle codec b .drop).groups.map (MigrationGroup.mapTabs .withoutSessions) := by
      rw [groups_drop, groups_drop, map_map, map_map, ← hworktree]
      exact map_eq_of_forall₂ (fun _ _ hgroup => MigrationGroup.Agrees.imported hgroup) h.groups
    unfold MigrationBundle.withoutSessions
    rw [hgroups]
    unfold importedBundle
    dsimp only
    rw [h1, h2, h3, hworktree, h5, h7, h10, h11]
  · rw [dispatches_drop, dispatches_drop, length_map, length_map, h.dispatches.length_eq]
  · intro i source row row' hsource hrow hrow'
    rw [dispatches_drop, List.getElem?_map, hsource] at hrow
    cases hrow
    rw [dispatches_drop, List.getElem?_map] at hrow'
    obtain ⟨source', hsource', rfl⟩ := Option.map_eq_some_iff.mp hrow'
    have hagree : source.withoutPrivate = source'.withoutPrivate := by
      obtain ⟨hi, rfl⟩ := List.getElem?_eq_some_iff.mp hsource
      obtain ⟨hi', rfl⟩ := List.getElem?_eq_some_iff.mp hsource'
      exact h.dispatches.get hi hi'
    obtain ⟨hsame, hnote⟩ := droppedDispatch_agree hagree
    exact ⟨hsame, hnote, fun note hnote => droppedNote_mem hnote⟩

/-! ## A codec, and two bundles that agree -/

def readEntry : Text × Json → Option (UInt32 × Text)
  | (key, .str cwd) => (parseUnsigned (2 ^ 32) key).map fun n => (UInt32.ofNat n, cwd)
  | _ => none

def writeEntry (e : UInt32 × Text) : Text × Json := (ofNat e.1.toNat, .str e.2)

/-- `serde_json` on an object whose keys ascend. -/
def ascendingCodec : CwdCodec where
  encode := fun m => Json.render Resume.escapeChar (.obj (m.entries.map writeEntry))
  decode := fun t =>
    match Json.parse t with
    | some (.obj fields) =>
      match fields.mapM readEntry with
      | some entries =>
        if h : entries.Pairwise (fun a b => a.1 < b.1) then some ⟨entries, h⟩ else none
      | none => none
    | _ => none

theorem readEntry_writeEntry (e : UInt32 × Text) : readEntry (writeEntry e) = some e := by
  unfold writeEntry readEntry
  dsimp only
  rw [parseUnsigned_ofNat e.1.toNat_lt, Option.map_some, UInt32.ofNat_toNat]

theorem mapM_readEntry (entries : List (UInt32 × Text)) :
    (entries.map writeEntry).mapM readEntry = some entries := by
  induction entries with
  | nil => rfl
  | cons e entries ih =>
    rw [map_cons, mapM_cons, readEntry_writeEntry, ih]
    rfl

theorem ascendingCodec_roundTrips : ascendingCodec.RoundTrips := by
  intro m
  unfold ascendingCodec
  dsimp only
  rw [Json.parse_render Resume.readable_escapeChar]
  dsimp only
  rw [mapM_readEntry]
  dsimp only
  rw [dif_pos m.sorted]

/-- A bundle with a private text in every private field. -/
def sampleBundle (secret cwds : Text) : MigrationBundle :=
  { sourceProfile := "default".toList, targetProfile := "work".toList, sessionName := "s".toList,
    worktreePath := "/wt/api".toList, worktree := none,
    groups := [{
      sessionName := "s".toList, name := "api".toList, kind := "branch".toList,
      worktree := "/wt/api".toList, ordinal := 0, activeTab := 0,
      tabs := [{
        sessionName := "s".toList, groupName := "api".toList, ordinal := 0, title := "t".toList,
        paneTree := [], focusedPane := 0, paneCwds := cwds, paneCmds := secret,
        paneSessions := [], scrollbackSnapshot := secret }] }],
    uiState := [],
    dispatches := [{
      sourceId := 3, issueId := "i".toList, worktreePath := "/wt/api".toList,
      agentName := "a".toList, dispatchedAtMs := 0, status := "running".toList, stage := none,
      parentId := none, sessionId := some secret, artifactPath := some secret,
      note := some secret, chunkPath := some secret, report := some secret, chunkScope := none }],
    notes := [{ sourceId := 1, dispatchId := 3, createdAtMs := 0, text := secret }],
    pinState := none, pinUpdatedAt := none }

theorem sampleBundle_agrees {codec : CwdCodec} (secret secret' : Text) {cwds cwds' : Text}
    (h : insideCwds codec "/wt/api".toList cwds = insideCwds codec "/wt/api".toList cwds') :
    (sampleBundle secret cwds).Agrees codec (sampleBundle secret' cwds') where
  rest := rfl
  groups := .cons ⟨rfl, .cons ⟨rfl, h⟩ .nil⟩ .nil
  dispatches := .cons rfl .nil

theorem drop_leaks_nothing_sample :
    { (importedBundle ascendingCodec (sampleBundle "a".toList "\x7b\"1\":\"/home/a\"\x7d".toList)
        .drop).withoutSessions with dispatches := [] } =
      { (importedBundle ascendingCodec (sampleBundle "b".toList "\x7b\"2\":\"/home/b\"\x7d".toList)
        .drop).withoutSessions with dispatches := [] } :=
  ((drop_leaks_nothing ascendingCodec ascendingCodec_roundTrips).1 _ _
    (sampleBundle_agrees _ _ (by decide +kernel))).1

/-! ## A tab without a map of working directories

It is stored without one, and a tab whose map holds only directories outside the worktree is stored
with an empty map: agreement on the directories inside the worktree alone would not do.
-/

/-- The working directories of a tab that lie inside the worktree, none where it has no map of
them. -/
def insideEntries (codec : CwdCodec) (worktreePath paneCwds : Text) : List (UInt32 × Text) :=
  ((insideCwds codec worktreePath paneCwds).map PaneCwds.entries).getD []

def MigrationBundle.insideEntries (codec : CwdCodec) (b : MigrationBundle) :
    List (List (List (UInt32 × Text))) :=
  b.groups.map fun group =>
    group.tabs.map fun tab => Migration.insideEntries codec b.worktreePath tab.paneCwds

theorem drop_shows_map :
    ¬ ∀ a b : MigrationBundle,
      { a with groups := [], dispatches := [], notes := [] } =
        { b with groups := [], dispatches := [], notes := [] } →
      a.groups.map (MigrationGroup.mapTabs .withoutPrivate) =
        b.groups.map (MigrationGroup.mapTabs .withoutPrivate) →
      a.insideEntries ascendingCodec = b.insideEntries ascendingCodec →
      a.dispatches.map MigrationDispatch.withoutPrivate =
        b.dispatches.map MigrationDispatch.withoutPrivate →
      { (importedBundle ascendingCodec a .drop).withoutSessions with dispatches := [] } =
        { (importedBundle ascendingCodec b .drop).withoutSessions with dispatches := [] } := by
  intro h
  have hsame := h (sampleBundle "a".toList [])
    (sampleBundle "a".toList "\x7b\"1\":\"/home/a\"\x7d".toList) rfl rfl (by decide +kernel) rfl
  have hcwds := congrArg (fun b : MigrationBundle =>
    b.groups.map fun group => group.tabs.map MigrationTab.paneCwds) hsame
  revert hcwds
  decide +kernel

end Thegn.Migration

import Thegn.Migration.Snapshot
import Thegn.Migration.History

set_option autoImplicit false

/-! # What an import writes

The loops of the import in closed form, table by table: which rows are added, and under which
numbers.
-/

namespace Thegn.Migration

open Text Dispatch Rows List

/-! ## Numbering -/

/-- The values with the numbers that rows inserted for them get. -/
def numbered {α : Type} (seq : Int) : List α → List (α × Int)
  | [] => []
  | x :: xs => (x, seq + 1) :: numbered (seq + 1) xs

section Numbered

variable {α : Type}

theorem map_fst_numbered (seq : Int) (xs : List α) : (numbered seq xs).map Prod.fst = xs := by
  induction xs generalizing seq with
  | nil => rfl
  | cons x xs ih => rw [numbered, map_cons, ih]

theorem map_numbered {β : Type} (seq : Int) (xs : List α) (f : α → β) :
    (numbered seq xs).map (fun p => f p.1) = xs.map f := by
  calc (numbered seq xs).map (fun p => f p.1)
      = ((numbered seq xs).map Prod.fst).map f := by rw [map_map]; rfl
    _ = xs.map f := by rw [map_fst_numbered]

theorem lt_of_mem_numbered {seq : Int} {xs : List α} {p : α × Int} (h : p ∈ numbered seq xs) :
    seq < p.2 := by
  induction xs generalizing seq with
  | nil => cases h
  | cons x xs ih =>
    rcases mem_cons.mp h with rfl | h
    · exact Int.lt_succ seq
    · have hlt := ih h
      omega

theorem le_of_mem_numbered {seq : Int} {xs : List α} {p : α × Int} (h : p ∈ numbered seq xs) :
    p.2 ≤ seq + xs.length := by
  induction xs generalizing seq with
  | nil => cases h
  | cons x xs ih =>
    rw [length_cons, Int.natCast_add, Int.natCast_one]
    rcases mem_cons.mp h with rfl | h
    · dsimp only
      omega
    · have hle := ih h
      omega

theorem mem_of_mem_numbered {seq : Int} {xs : List α} {p : α × Int} (h : p ∈ numbered seq xs) :
    p.1 ∈ xs := by
  rw [← map_fst_numbered seq xs]
  exact mem_map_of_mem h

theorem exists_numbered (seq : Int) {xs : List α} {x : α} (h : x ∈ xs) :
    ∃ n, (x, n) ∈ numbered seq xs := by
  rw [← map_fst_numbered seq xs] at h
  obtain ⟨p, hp, rfl⟩ := mem_map.mp h
  exact ⟨p.2, hp⟩

theorem ascending_numbered (seq : Int) (xs : List α) : Ascending Prod.snd (numbered seq xs) := by
  induction xs generalizing seq with
  | nil => exact .nil
  | cons x xs ih => exact .cons (fun p hp => lt_of_mem_numbered hp) (ih _)

/-- Numbers follow the order of the values. -/
theorem pairwise_numbered {R : α → α → Prop} {xs : List α} (h : xs.Pairwise R) (seq : Int) :
    (numbered seq xs).Pairwise fun p q => R p.1 q.1 ∧ p.2 < q.2 := by
  rw [← map_fst_numbered seq xs, pairwise_map] at h
  exact h.and (ascending_numbered seq xs)

end Numbered

/-! ## Maps of numbers -/

theorem insertId_of_lt {k v : Int} {m : List (Int × Int)} (h : ∀ e ∈ m, e.1 < k) :
    insertId k v m = m ++ [(k, v)] := by
  induction m with
  | nil => rfl
  | cons e m ih =>
    have he := h e (.head _)
    rw [insertId, if_neg (by omega), if_neg (by omega), ih fun e' he' =>
      h e' (mem_cons_of_mem _ he'), cons_append]

/-- Pairs that are inserted in ascending order are stored in this order. -/
theorem foldl_insertId {ps : List (Int × Int)} (h : Ascending Prod.fst ps) {m : List (Int × Int)}
    (hm : ∀ e ∈ m, ∀ p ∈ ps, e.1 < p.1) : ps.foldl (fun m p => insertId p.1 p.2 m) m = m ++ ps := by
  induction ps generalizing m with
  | nil => rw [foldl_nil, append_nil]
  | cons p ps ih =>
    rw [foldl_cons, insertId_of_lt fun e he => hm e he p mem_cons_self]
    obtain ⟨hp, hps⟩ := pairwise_cons.mp h
    rw [ih hps, append_assoc, singleton_append]
    intro e he q hq
    rcases mem_append.mp he with he | he
    · exact hm e he q (.tail _ hq)
    · rw [mem_singleton.mp he]
      exact hp q hq

theorem lookupId_of_mem {m : List (Int × Int)} (h : (m.map Prod.fst).Nodup) {k v : Int}
    (hmem : (k, v) ∈ m) : lookupId m k = some v := by
  unfold lookupId
  cases hfind : m.find? fun e => e.1 = k with
  | none => exact absurd (decide_eq_true rfl) (List.find?_eq_none.mp hfind (k, v) hmem)
  | some e =>
    have hfound := List.find?_some hfind
    have hkey := of_decide_eq_true hfound
    rw [eq_of_key h (mem_of_find?_eq_some hfind) hmem hkey]
    rfl

theorem mem_of_lookupId {m : List (Int × Int)} {k v : Int} (h : lookupId m k = some v) :
    (k, v) ∈ m := by
  obtain ⟨e, hfind, rfl⟩ := Option.map_eq_some_iff.mp h
  have hfound := List.find?_some hfind
  rw [← of_decide_eq_true hfound]
  exact mem_of_find?_eq_some hfind

/-! ## Positions -/

theorem indexIn_map {α : Type} {f g : α → Int} {xs : List α} {x : α}
    (hfg : ∀ y ∈ xs, f y = f x ↔ g y = g x) :
    indexIn (xs.map f) (f x) = indexIn (xs.map g) (g x) := by
  have hindex : ∀ k : α → Int, indexIn (xs.map k) (k x) =
      ((xs.zipIdx.filter fun p => k p.1 = k x).getLast?).map Prod.snd := by
    intro k
    unfold indexIn
    rw [zipIdx_map, filter_map, List.getLast?_map, Option.map_map]
    rfl
  rw [hindex f, hindex g]
  congr 2
  refine filter_congr fun p hp => ?_
  have hmem : p.1 ∈ xs := fst_mem_of_mem_zipIdx hp
  rw [decide_eq_decide]
  exact hfg p.1 hmem

theorem indexIn_eq_none {ids : List Int} {id : Int} (h : id ∉ ids) : indexIn ids id = none := by
  unfold indexIn
  have hempty : (ids.zipIdx.filter fun p => p.1 = id) = [] := by
    refine filter_eq_nil_iff.mpr fun p hp => ?_
    rw [decide_eq_true_iff]
    rintro rfl
    exact h (fst_mem_of_mem_zipIdx hp)
  rw [hempty]
  rfl

/-! ## Imported rows -/

/-- A row in the form that is stored. -/
def importedRow : HistoryPolicy → MigrationDispatch → MigrationDispatch
  | .included => importedDispatch
  | .drop => droppedDispatch

theorem dispatches_imported (codec : CwdCodec) (b : MigrationBundle) (history : HistoryPolicy) :
    (importedBundle codec b history).dispatches = b.dispatches.map (importedRow history) := by
  cases history with
  | included => rfl
  | drop => exact dispatches_drop codec b

theorem importedDispatch_kept (d : MigrationDispatch) :
    importedDispatch d = { importedDispatch d with
      sourceId := d.sourceId, issueId := d.issueId, worktreePath := d.worktreePath,
      agentName := d.agentName, dispatchedAtMs := d.dispatchedAtMs, parentId := d.parentId,
      sessionId := none, artifactPath := none, chunkPath := none } := by
  unfold importedDispatch
  split_ifs
  · rfl
  · rfl

/-- What the stored form keeps of a row, and what it clears. -/
theorem importedRow_kept (history : HistoryPolicy) (d : MigrationDispatch) :
    importedRow history d = { importedRow history d with
      sourceId := d.sourceId, issueId := d.issueId, worktreePath := d.worktreePath,
      agentName := d.agentName, dispatchedAtMs := d.dispatchedAtMs, parentId := d.parentId,
      sessionId := none, artifactPath := none, chunkPath := none } := by
  cases history with
  | included => exact importedDispatch_kept d
  | drop =>
    exact congrArg (fun row : MigrationDispatch =>
      { row with report := none, note := droppedNote d })
      (importedDispatch_kept d)

theorem sourceId_importedRow (history : HistoryPolicy) (d : MigrationDispatch) :
    (importedRow history d).sourceId = d.sourceId := by
  rw [importedRow_kept]

theorem parentId_importedRow (history : HistoryPolicy) (d : MigrationDispatch) :
    (importedRow history d).parentId = d.parentId := by
  rw [importedRow_kept]

theorem worktreePath_importedRow (history : HistoryPolicy) (d : MigrationDispatch) :
    (importedRow history d).worktreePath = d.worktreePath := by
  rw [importedRow_kept]

/-! ## Groups and tabs -/

theorem insertAll_append {R K : Type} [DecidableEq K] {key : R → K} (rows xs ys : List R) :
    insertAll key rows (xs ++ ys) = insertAll key (insertAll key rows xs) ys :=
  foldl_append

theorem foldl_insertTab (db : Db) (tabs : List MigrationTab) :
    tabs.foldl insertTab db =
      { db with groupTabs := insertAll MigrationTab.key db.groupTabs (tabs.map persistedTab) } := by
  induction tabs generalizing db with
  | nil => rfl
  | cons t tabs ih =>
    rw [foldl_cons, ih]
    rfl

/-- The tabs of groups, as they are stored. -/
def storedTabs (groups : List MigrationGroup) : List MigrationTab :=
  groups.flatMap fun g => g.tabs.map persistedTab

theorem foldl_insertGroup (db : Db) (groups : List MigrationGroup) :
    groups.foldl insertGroup db =
      { db with
        tabGroups := insertAll TabGroupRow.key db.tabGroups (groups.map persistedGroup)
        groupTabs := insertAll MigrationTab.key db.groupTabs (storedTabs groups) } := by
  induction groups generalizing db with
  | nil => rfl
  | cons g groups ih =>
    have hcons : storedTabs (g :: groups) = g.tabs.map persistedTab ++ storedTabs groups :=
      List.flatMap_cons
    rw [foldl_cons, ih, insertGroup, foldl_insertTab, hcons, insertAll_append]
    rfl

/-! ## Dispatches -/

/-- The pairs of an old and a new number. -/
def idPairs (seq : Int) (ds : List MigrationDispatch) : List (Int × Int) :=
  (numbered seq ds).map fun p => (p.1.sourceId, p.2)

/-- A row as it is inserted. -/
def unparented (history : HistoryPolicy) (p : MigrationDispatch × Int) : MigrationDispatch :=
  { importedRow history p.1 with sourceId := p.2, parentId := none, sessionId := none }

theorem insertDispatch_importedRow (history : HistoryPolicy) (db : Db) (m : List (Int × Int))
    (d : MigrationDispatch) :
    insertDispatch (db, m) (d, importedRow history d) =
      ({ db with
          dispatches := db.dispatches ++ [unparented history (d, db.dispatchSeq + 1)]
          dispatchSeq := db.dispatchSeq + 1 },
        insertId d.sourceId (db.dispatchSeq + 1) m) := by
  unfold insertDispatch unparented
  rw [importedRow_kept]

theorem foldl_insertDispatch (history : HistoryPolicy) {ds : List MigrationDispatch}
    (h : Ascending MigrationDispatch.sourceId ds) (db : Db) {m : List (Int × Int)}
    (hm : ∀ e ∈ m, ∀ d ∈ ds, e.1 < d.sourceId) :
    (ds.map fun d => (d, importedRow history d)).foldl insertDispatch (db, m) =
      ({ db with
          dispatches := db.dispatches ++ (numbered db.dispatchSeq ds).map (unparented history)
          dispatchSeq := db.dispatchSeq + ds.length },
        m ++ idPairs db.dispatchSeq ds) := by
  induction ds generalizing db m with
  | nil =>
    simp only [map_nil, foldl_nil, numbered, idPairs, append_nil, length_nil,
      Int.natCast_zero, Int.add_zero]
  | cons d ds ih =>
    obtain ⟨hd, hds⟩ := pairwise_cons.mp h
    rw [map_cons, foldl_cons, insertDispatch_importedRow,
      insertId_of_lt fun e he => hm e he d (.head _), ih hds]
    · simp only [numbered, idPairs, map_cons, append_assoc, singleton_append,
        length_cons, Int.natCast_add, Int.natCast_one]
      congr 2
      omega
    · intro e he d' hd'
      rcases mem_append.mp he with he | he
      · exact hm e he d' (.tail _ hd')
      · rw [mem_singleton.mp he]
        exact hd d' hd'

/-- One update of a row. -/
def parented (ids : List (Int × Int)) (row d : MigrationDispatch) : MigrationDispatch :=
  if lookupId ids d.sourceId = some row.sourceId then
    { row with parentId := d.parentId.bind (lookupId ids), sessionId := none }
  else row

theorem setParent_eq (ids : List (Int × Int)) (rows : List MigrationDispatch)
    (d : MigrationDispatch) : setParent ids rows d = rows.map fun row => parented ids row d := by
  unfold setParent parented
  cases lookupId ids d.sourceId with
  | none =>
    refine ((map_congr_left fun row _ => ?_).trans (map_id _)).symm
    rw [if_neg (by simp)]
    rfl
  | some target =>
    refine map_congr_left fun row _ => ?_
    by_cases hrow : row.sourceId = target
    · rw [if_pos hrow, if_pos (congrArg some hrow.symm)]
    · rw [if_neg hrow, if_neg fun h => hrow (Option.some.inj h).symm]

theorem foldl_setParent (ids : List (Int × Int)) (rows ds : List MigrationDispatch) :
    ds.foldl (setParent ids) rows = rows.map fun row => ds.foldl (parented ids) row := by
  induction ds generalizing rows with
  | nil => exact (map_id _).symm
  | cons d ds ih =>
    rw [foldl_cons, ih, setParent_eq, map_map]
    rfl

/-- A row that no dispatch is stored as is left alone. -/
theorem foldl_parented_of_not {ids : List (Int × Int)} {row : MigrationDispatch}
    {ds : List MigrationDispatch} (h : ∀ d ∈ ds, lookupId ids d.sourceId ≠ some row.sourceId) :
    ds.foldl (parented ids) row = row := by
  induction ds with
  | nil => rfl
  | cons d ds ih =>
    rw [foldl_cons, parented, if_neg (h d mem_cons_self)]
    exact ih fun d' hd' => h d' (.tail _ hd')

/-- The row a dispatch is stored as gets its parent. -/
theorem foldl_parented_of_mem {ids : List (Int × Int)} {row d : MigrationDispatch}
    {ds : List MigrationDispatch} (hd : d ∈ ds) (hid : lookupId ids d.sourceId = some row.sourceId)
    (honly : ∀ d' ∈ ds, lookupId ids d'.sourceId = some row.sourceId → d' = d) :
    ds.foldl (parented ids) row =
      { row with parentId := d.parentId.bind (lookupId ids), sessionId := none } := by
  have hset : ∀ (ds : List MigrationDispatch) (row' : MigrationDispatch),
    row'.sourceId = row.sourceId →
      (∀ d' ∈ ds, lookupId ids d'.sourceId = some row.sourceId → d' = d) →
      { row' with parentId := d.parentId.bind (lookupId ids), sessionId := none } = row' →
      ds.foldl (parented ids) row' = row' := by
    intro ds
    induction ds with
    | nil => exact fun _ _ _ _ => rfl
    | cons d' ds ih =>
      intro row' hrow honly hfix
      have hstep : parented ids row' d' = row' := by
        unfold parented
        split_ifs with hlookup
        · rw [hrow] at hlookup
          rw [honly d' mem_cons_self hlookup]
          exact hfix
        · rfl
      rw [foldl_cons, hstep]
      exact ih row' hrow (fun d'' hd'' => honly d'' (.tail _ hd'')) hfix
  induction ds with
  | nil => cases hd
  | cons d' ds ih =>
    rw [foldl_cons]
    by_cases heq : d' = d
    · subst heq
      have hstep : parented ids row d' =
          { row with parentId := d'.parentId.bind (lookupId ids), sessionId := none } := by
        rw [parented, if_pos hid]
      rw [hstep]
      exact hset ds _ rfl (fun d'' hd'' => honly d'' (.tail _ hd'')) rfl
    · have hnot : lookupId ids d'.sourceId ≠ some row.sourceId := fun hlookup =>
        heq (honly d' (.head _) hlookup)
      rw [parented, if_neg hnot]
      exact ih ((mem_cons.mp hd).resolve_left fun h => heq h.symm)
        fun d'' hd'' => honly d'' (.tail _ hd'')

/-- A row as the import leaves it. -/
def storedDispatch (history : HistoryPolicy) (ids : List (Int × Int))
    (p : MigrationDispatch × Int) : MigrationDispatch :=
  { importedRow history p.1 with
    sourceId := p.2, parentId := p.1.parentId.bind (lookupId ids), sessionId := none }

section Ids

variable {ds : List MigrationDispatch} (h : Ascending MigrationDispatch.sourceId ds) (seq : Int)
include h

theorem ascending_idPairs : Ascending Prod.fst (idPairs seq ds) :=
  pairwise_map.mpr ((pairwise_numbered h seq).imp fun hpq => hpq.1)

theorem lookupId_idPairs {p : MigrationDispatch × Int} (hp : p ∈ numbered seq ds) :
    lookupId (idPairs seq ds) p.1.sourceId = some p.2 :=
  lookupId_of_mem (ascending_idPairs h seq).nodup_map (mem_map_of_mem hp)

omit h in
/-- A number that is looked up is the new one of a dispatch. -/
theorem exists_of_lookupId {k v : Int} (hlookup : lookupId (idPairs seq ds) k = some v) :
    ∃ p ∈ numbered seq ds, p.1.sourceId = k ∧ p.2 = v := by
  obtain ⟨p, hp, heq⟩ := mem_map.mp (mem_of_lookupId hlookup)
  rw [Prod.mk.injEq] at heq
  exact ⟨p, hp, heq⟩

/-- Numbered dispatches are told apart by either number. -/
theorem eq_of_sourceId {p q : MigrationDispatch × Int} (hp : p ∈ numbered seq ds)
    (hq : q ∈ numbered seq ds) (heq : p.1.sourceId = q.1.sourceId) : p = q := by
  have hnodup : ((numbered seq ds).map fun p => p.1.sourceId).Nodup := by
    rw [map_numbered seq ds MigrationDispatch.sourceId]
    exact h.nodup_map
  exact eq_of_key hnodup hp hq heq

end Ids

theorem eq_of_number {α : Type} {seq : Int} {xs : List α} {p q : α × Int} (hp : p ∈ numbered seq xs)
    (hq : q ∈ numbered seq xs) (heq : p.2 = q.2) : p = q :=
  eq_of_key (ascending_numbered seq xs).nodup_map hp hq heq

/-- Rows that were there keep their parents, and those inserted get theirs. -/
theorem foldl_setParent_inserted (history : HistoryPolicy) {ds rows : List MigrationDispatch}
    (h : Ascending MigrationDispatch.sourceId ds) {seq : Int}
    (hrows : ∀ row ∈ rows, row.sourceId ≤ seq) :
    ds.foldl (setParent (idPairs seq ds)) (rows ++ (numbered seq ds).map (unparented history)) =
      rows ++ (numbered seq ds).map (storedDispatch history (idPairs seq ds)) := by
  rw [foldl_setParent, map_append, map_map]
  congr 1
  · refine (map_congr_left fun row hrow => ?_).trans (map_id _)
    refine foldl_parented_of_not fun d _ hlookup => ?_
    obtain ⟨p, hp, -, hnew⟩ := exists_of_lookupId seq hlookup
    have hlt := lt_of_mem_numbered hp
    have hle := hrows row hrow
    omega
  · refine map_congr_left fun p hp => ?_
    have hself := lookupId_idPairs h seq hp
    refine foldl_parented_of_mem (mem_of_mem_numbered hp) hself ?_
    intro d hd hlookup
    obtain ⟨q, hq, hqd, hqn⟩ := exists_of_lookupId seq hlookup
    obtain ⟨n, hn⟩ := exists_numbered seq hd
    have hsame := eq_of_sourceId h seq hq hn hqd
    rw [eq_of_number hq hp hqn] at hsame
    rw [hsame]

/-! ## Notes -/

def storedNote (ids : List (Int × Int)) (p : MigrationNote × Int) : MigrationNote :=
  { sourceId := p.2, dispatchId := (lookupId ids p.1.dispatchId).getD 0,
    createdAtMs := p.1.createdAtMs, text := p.1.text }

theorem foldl_insertNote {ids : List (Int × Int)} {notes : List MigrationNote}
    (h : ∀ n ∈ notes, (lookupId ids n.dispatchId).isSome = true) (db : Db) :
    notes.foldl (insertNote ids) db =
      { db with
        notes := db.notes ++ (numbered db.noteSeq notes).map (storedNote ids)
        noteSeq := db.noteSeq + notes.length } := by
  induction notes generalizing db with
  | nil =>
    simp only [foldl_nil, numbered, map_nil, append_nil, length_nil, Int.natCast_zero, Int.add_zero]
  | cons n notes ih =>
    obtain ⟨v, hv⟩ := Option.isSome_iff_exists.mp (h n (.head _))
    rw [foldl_cons, ih fun n' hn' => h n' (mem_cons_of_mem _ hn')]
    unfold insertNote
    rw [hv]
    simp only [numbered, map_cons, append_assoc, singleton_append, length_cons,
      Int.natCast_add, Int.natCast_one, storedNote, hv, Option.getD_some]
    congr 1
    omega

/-! ## The whole import -/

def pinnedSessions (db : Db) (b : MigrationBundle) : List SessionRow :=
  ((b.pinState.map fun pin => setPin db b.sessionName pin b.pinUpdatedAt).getD db).sessionState

def registered (db : Db) (b : MigrationBundle) : List MigrationWorktree :=
  ((b.worktree.map (insertWorktree db)).getD db).worktrees

theorem getD_setPin (db : Db) (b : MigrationBundle) :
    (b.pinState.map fun pin => setPin db b.sessionName pin b.pinUpdatedAt).getD db =
      { db with sessionState := pinnedSessions db b } := by
  unfold pinnedSessions
  cases b.pinState with
  | none => rfl
  | some pin => rfl

theorem getD_insertWorktree (db : Db) (b : MigrationBundle) :
    (b.worktree.map (insertWorktree db)).getD db = { db with worktrees := registered db b } := by
  unfold registered
  cases b.worktree with
  | none => rfl
  | some w => rfl

theorem pinnedSessions_congr {db db' : Db} (h : db.sessionState = db'.sessionState)
    (b : MigrationBundle) : pinnedSessions db b = pinnedSessions db' b := by
  unfold pinnedSessions
  cases b.pinState with
  | none => exact h
  | some pin =>
    simp only [Option.map_some, Option.getD_some, setPin]
    rw [h]

theorem importRows_eq (codec : CwdCodec) {db : Db} (hdb : db.Ok) {b : MigrationBundle}
    (hb : FromSource b) (history : HistoryPolicy) :
    importRows codec db b history =
      ({ worktrees := registered db b
         tabGroups := insertAll TabGroupRow.key db.tabGroups
           ((importedBundle codec b history).groups.map persistedGroup)
         groupTabs := insertAll MigrationTab.key db.groupTabs
           (storedTabs (importedBundle codec b history).groups)
         uiState := insertAll MigrationUiState.rowKey db.uiState b.uiState
         sessionState := pinnedSessions db b
         dispatches := db.dispatches ++ (numbered db.dispatchSeq b.dispatches).map
           (storedDispatch history (idPairs db.dispatchSeq b.dispatches))
         dispatchSeq := db.dispatchSeq + b.dispatches.length
         notes := db.notes ++ (numbered db.noteSeq (importedBundle codec b history).notes).map
           (storedNote (idPairs db.dispatchSeq b.dispatches))
         noteSeq := db.noteSeq + (importedBundle codec b history).notes.length },
        idPairs db.dispatchSeq b.dispatches) := by
  have hzip : b.dispatches.zip (importedBundle codec b history).dispatches =
      b.dispatches.map fun d => (d, importedRow history d) := by
    rw [dispatches_imported, zip_map_right]
    induction b.dispatches with
    | nil => rfl
    | cons d ds ih =>
      rw [zip_cons_cons, map_cons, map_cons, ih]
      rfl
  have hnotes : ∀ n ∈ (importedBundle codec b history).notes,
      (lookupId (idPairs db.dispatchSeq b.dispatches) n.dispatchId).isSome = true := by
    intro n hn
    have hn' : n ∈ b.notes := by
      cases history with
      | included => exact hn
      | drop => cases hn
    obtain ⟨d, hd, hid⟩ := mem_map.mp (hb.noteDispatch n hn')
    obtain ⟨v, hv⟩ := exists_numbered db.dispatchSeq hd
    rw [← hid, lookupId_idPairs hb.dispatches db.dispatchSeq hv]
    rfl
  unfold importRows
  dsimp only
  rw [hzip, foldl_insertDispatch history hb.dispatches _ fun e he => absurd he not_mem_nil]
  dsimp only
  rw [nil_append, getD_insertWorktree, foldl_insertGroup, getD_setPin,
    foldl_setParent_inserted history hb.dispatches hdb.dispatchSeq, foldl_insertNote hnotes]
  rw [Prod.mk.injEq, Db.mk.injEq]
  refine ⟨⟨rfl, rfl, rfl, rfl, ?_, rfl, rfl, rfl, rfl⟩, rfl⟩
  refine pinnedSessions_congr ?_ b
  rfl

end Thegn.Migration

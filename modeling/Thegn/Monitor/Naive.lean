import Thegn.Monitor.Rollup

set_option autoImplicit false

/-! # A series and its naive history

The naive history of a series is the list of the pushes that were accepted; the value of a second is
that of the last push in it. `Tracks` relates a series to its history, and `push_tracks` is a push.
-/

namespace Thegn.Monitor

open Thegn.Circular List

/-! ## The naive history -/

/-- The accepted pushes, oldest first. -/
abbrev Pushes := List (Nat × Option ℚ)

def secondOf (p : Nat × Option ℚ) : Nat := p.1 / t0Ms

/-- The value of the last push in a second. -/
def latest (log : Pushes) (second : Nat) : Option ℚ :=
  (log.reverse.find? fun p => decide (secondOf p = second)).bind Prod.snd

def openSecond (log : Pushes) : Option Nat := log.getLast?.map secondOf

/-- The last second with a push before the open one. -/
def lastClosed (log : Pushes) : Option Nat :=
  ((log.map secondOf).filter fun s => decide (openSecond log ≠ some s)).getLast?

theorem latest_snoc (log : Pushes) (p : Nat × Option ℚ) (second : Nat) :
    latest (log ++ [p]) second = if secondOf p = second then p.2 else latest log second := by
  rw [latest, reverse_append, reverse_singleton, singleton_append, List.find?_cons]
  split_ifs with h
  · rw [decide_eq_true h]
    rfl
  · rw [decide_eq_false h]
    rfl

theorem latest_none {log : Pushes} {second : Nat} (h : ∀ p ∈ log, secondOf p ≠ second) :
    latest log second = none := by
  rw [latest, List.find?_eq_none.mpr]
  · rfl
  · intro p hp
    rw [decide_eq_true_eq]
    exact h p (mem_reverse.mp hp)

theorem openSecond_snoc (log : Pushes) (p : Nat × Option ℚ) :
    openSecond (log ++ [p]) = some (secondOf p) := by
  rw [openSecond, List.getLast?_concat]
  rfl

/-- The pushes of a series come in the order of their seconds. -/
def Sorted (log : Pushes) : Prop := (log.map secondOf).Pairwise (· ≤ ·)

/-- The last of sorted numbers is the greatest. -/
theorem exists_getLast_ge {l : List Nat} (h : l.Pairwise (· ≤ ·)) {x : Nat} (hx : x ∈ l) :
    ∃ m, l.getLast? = some m ∧ x ≤ m := by
  have hne := ne_nil_of_mem hx
  refine ⟨l.getLast hne, List.getLast?_eq_some_getLast hne, ?_⟩
  rw [← dropLast_append_getLast hne] at h hx
  rcases mem_append.mp hx with hx | hx
  · exact (pairwise_append.mp h).2.2 x hx _ (.head _)
  · exact (mem_singleton.mp hx).le

section Log

variable {log : Pushes} {o : Nat}

theorem Sorted.le_open (h : Sorted log) (ho : openSecond log = some o) {s : Nat}
    (hs : s ∈ log.map secondOf) : s ≤ o := by
  obtain ⟨m, hm, hle⟩ := exists_getLast_ge h hs
  rw [List.getLast?_map] at hm
  exact Option.some.inj (hm.symm.trans ho) ▸ hle

theorem Sorted.snoc (h : Sorted log) {p : Nat × Option ℚ}
    (hp : ∀ o, openSecond log = some o → o ≤ secondOf p) : Sorted (log ++ [p]) := by
  rw [Sorted, map_append, pairwise_append]
  refine ⟨h, pairwise_singleton _ _, ?_⟩
  intro s hs s' hs'
  rw [map_singleton, mem_singleton] at hs'
  obtain ⟨m, hm, hle⟩ := exists_getLast_ge h hs
  rw [List.getLast?_map] at hm
  exact hs' ▸ hle.trans (hp m hm)

/-- The seconds with a push before the open one end with the last closed one. -/
theorem Sorted.lastClosed_spec (h : Sorted log) (ho : openSecond log = some o) :
    (∀ c, lastClosed log = some c → c < o) ∧
      ∀ i, (∀ c, lastClosed log = some c → c < i) → i < o → latest log i = none := by
  have hsub : ((log.map secondOf).filter fun s => decide (openSecond log ≠ some s)).Pairwise
    (· ≤ ·) := List.Pairwise.filter _ h
  constructor
  · intro c hc
    have hmem := mem_of_getLast? hc
    rw [mem_filter, decide_eq_true_eq, ho] at hmem
    have hle := h.le_open ho hmem.1
    have hne : o ≠ c := fun heq => hmem.2 (congrArg some heq)
    omega
  · intro i hclosed hi
    refine latest_none fun p hp hpi => ?_
    have hmem : i ∈ (log.map secondOf).filter fun s => decide (openSecond log ≠ some s) := by
      rw [mem_filter, decide_eq_true_eq, ho]
      exact ⟨hpi ▸ mem_map_of_mem hp, fun heq => by
        have heq := Option.some.inj heq
        omega⟩
    obtain ⟨c, hc, hle⟩ := exists_getLast_ge hsub hmem
    have hlt := hclosed c hc
    omega

theorem latest_above (h : Sorted log) (ho : openSecond log = some o) {i : Nat} (hi : o < i) :
    latest log i = none :=
  latest_none fun p hp hpi => by
    have hle := h.le_open ho (mem_map_of_mem hp)
    omega

/-- A push in the open second closes nothing. -/
theorem lastClosed_same {p : Nat × Option ℚ} (ho : openSecond log = some (secondOf p)) :
    lastClosed (log ++ [p]) = lastClosed log := by
  rw [lastClosed, lastClosed, openSecond_snoc, ho, map_append, filter_append, map_singleton,
    filter_singleton, decide_eq_false (not_not.mpr rfl)]
  exact congrArg List.getLast? (append_nil _)

/-- A push in a later second closes the open one. -/
theorem lastClosed_later (h : Sorted log) {p : Nat × Option ℚ} (ho : openSecond log = some o)
    (hlt : o < secondOf p) : lastClosed (log ++ [p]) = some o := by
  rw [lastClosed, openSecond_snoc, map_append, filter_append, map_singleton,
    filter_singleton, decide_eq_false (not_not.mpr rfl)]
  have hall : (log.map secondOf).filter (fun s => decide (some (secondOf p) ≠ some s)) =
    log.map secondOf := by
    rw [filter_eq_self]
    intro s hs
    have hle := h.le_open ho hs
    rw [decide_eq_true_eq]
    intro heq
    have heq := Option.some.inj heq
    omega
  rw [hall]
  refine (congrArg List.getLast? (append_nil _)).trans ?_
  rw [List.getLast?_map]
  exact ho

theorem lastClosed_first (p : Nat × Option ℚ) : lastClosed [p] = none := by
  rw [lastClosed, openSecond, map_singleton, filter_singleton, List.getLast?_singleton,
    Option.map_some, decide_eq_false (not_not.mpr rfl)]
  rfl

end Log

/-! ## A series of a history -/

/-- A tier of a history. -/
def TierTracks (p : Nat) (log : Pushes) (acc : Acc) (cells : Circular Cell) : Prop :=
  match lastClosed log with
  | none => Blank acc cells
  | some c => Rolled p (latest log) c acc cells

/-- The lengths of the rings, and which tiers there are. -/
structure Shape (s : Series) : Prop where
  t0 : s.t0.size = if s.cls = .C then cLen else t0Len
  t1 : s.t1.map Circular.size = if s.cls = .C then none else some t1Len
  t2 : s.t2.map Circular.size = if s.cls = .A then some t2Len else none

/-- **A series holds its history**, as far as its rings reach. -/
structure Tracks (log : Pushes) (s : Series) : Prop where
  shape : Shape s
  sorted : Sorted log
  opened : s.openSecond = openSecond log
  value : ∀ p, log.getLast? = some p → s.openValue = p.2
  first : ∀ p, log.head? = some p → s.firstPushMs = p.1
  blank : log = [] → ∀ i, s.t0.at i = none
  t0 : ∀ o, openSecond log = some o → Holds s.t0 (latest log) (o + 1)
  t1 : ∀ cells, s.t1 = some cells → TierTracks 5 log s.t1Acc cells
  t2 : ∀ cells, s.t2 = some cells → TierTracks 60 log s.t2Acc cells

theorem Tracks.new (key : SeriesKey) (cls : Class) : Tracks [] (Series.new key cls) := by
  have hblank : ∀ len h, Blank Acc.default (filled Cell.missing len h) := fun len h =>
    ⟨rfl, rfl, at_filled _ _ _⟩
  exact
    { shape :=
        { t0 := by cases cls <;> exact size_filled none _ (by decide)
          t1 := by
            cases cls with
            | A => exact congrArg some (size_filled _ _ _)
            | B => exact congrArg some (size_filled _ _ _)
            | C => rfl
          t2 := by
            cases cls with
            | A => exact congrArg some (size_filled _ _ _)
            | B => rfl
            | C => rfl }
      sorted := .nil
      opened := rfl
      value := fun _ hp => nomatch hp
      first := fun _ hp => nomatch hp
      blank := fun _ i => by cases cls <;> exact at_filled none _ (by decide) i
      t0 := fun _ ho => nomatch ho
      t1 := fun cells hcells => by
        cases cls with
        | A => exact Option.some.inj hcells ▸ hblank _ _
        | B => exact Option.some.inj hcells ▸ hblank _ _
        | C => cases hcells
      t2 := fun cells hcells => by
        cases cls with
        | A => exact Option.some.inj hcells ▸ hblank _ _
        | B => cases hcells
        | C => cases hcells }

/-! ## A push -/

section Push

variable {log : Pushes} {s : Series} {p : Nat} {acc : Acc} {cells : Circular Cell} {o : Nat}
  {q : Nat × Option ℚ}

theorem commitAcc_size (acc : Acc) (cells : Circular Cell) :
    (commitAcc acc cells).size = cells.size := by
  unfold commitAcc
  split_ifs
  · exact size_put _ _ _
  · exact size_put _ _ _

theorem updateAcc_size (acc : Acc) (bucket : Nat) (value : Option ℚ) (cells : Circular Cell)
    (finish : Bool) : (updateAcc acc bucket value cells finish).2.size = cells.size := by
  have hretire : (retireAcc acc bucket cells).2.size = cells.size := by
    unfold retireAcc
    split_ifs
    · exact commitAcc_size _ _
    · rfl
  have hskip : ∀ acc' : Acc, ∀ cells' : Circular Cell,
    (skipBuckets acc' bucket cells').size = cells'.size := by
    intro acc' cells'
    unfold skipBuckets
    split
    · split_ifs
      · exact size_clear _ _ _ _
      · rfl
    · rfl
  rw [updateAcc_eq]
  dsimp only
  split_ifs
  · rw [commitAcc_size, hskip, hretire]
  · rw [hskip, hretire]

theorem latest_later (hq : o < secondOf q) {i : Nat} (hi : i ≤ o) :
    latest (log ++ [q]) i = latest log i := by
  rw [latest_snoc, if_neg (by omega)]

/-- A push in a later second closes the open one in a tier. -/
theorem TierTracks.close (hp : 0 < p) (h : TierTracks p log acc cells) (hsorted : Sorted log)
    (ho : openSecond log = some o) (hq : o < secondOf q) {finish : Bool}
    (hfinish : finish = true ↔ p ∣ o + 1) :
    TierTracks p (log ++ [q]) (updateAcc acc (o / p) (latest log o) cells finish).1
      (updateAcc acc (o / p) (latest log o) cells finish).2 := by
  obtain ⟨hclosed, hgap⟩ := hsorted.lastClosed_spec ho
  rw [TierTracks, lastClosed_later hsorted ho hq, ← latest_later hq (Nat.le_refl o)]
  dsimp only
  refine Rolled.update hp hfinish ?_
  rw [TierTracks] at h
  cases hlast : lastClosed log with
  | none =>
    rw [hlast] at h
    refine .inl ⟨h, fun i hi => ?_⟩
    rw [latest_later hq hi.le]
    exact hgap i (fun c hc => by rw [hlast] at hc; cases hc) hi
  | some c =>
    rw [hlast] at h
    have hc := hclosed c hlast
    refine .inr ⟨c, h.congr fun i hi => (latest_later hq (by omega)).symm, hc,
      fun i hci hi => ?_⟩
    rw [latest_later hq hi.le]
    refine hgap i (fun c' hc' => ?_) hi
    rw [hlast] at hc'
    exact Option.some.inj hc' ▸ hci

/-- A push in the open second leaves a tier as it is. -/
theorem TierTracks.same (hp : 0 < p) (h : TierTracks p log acc cells) (hsorted : Sorted log)
    (ho : openSecond log = some (secondOf q)) : TierTracks p (log ++ [q]) acc cells := by
  rw [TierTracks, lastClosed_same ho]
  rw [TierTracks] at h
  cases hlast : lastClosed log with
  | none =>
    rw [hlast] at h
    exact h
  | some c =>
    rw [hlast] at h
    have hc := (hsorted.lastClosed_spec ho).1 c hlast
    refine h.congr fun i hi => ?_
    rw [latest_snoc, if_neg (by omega)]

theorem TierTracks.first (h : TierTracks p [] acc cells) : TierTracks p [q] acc cells := by
  rw [TierTracks, lastClosed_first]
  exact h

/-- What closing a second does to the tiers. -/
theorem closeSecond_eq (s : Series) (second : Nat) (value : Option ℚ) (hshape : Shape s) :
    s.closeSecond second value = { s with
      t1 := s.t1.map fun cells =>
        (updateAcc s.t1Acc (second / 5) value cells (decide (second % 5 = 4))).2
      t1Acc := s.t1.elim s.t1Acc fun cells =>
        (updateAcc s.t1Acc (second / 5) value cells (decide (second % 5 = 4))).1
      t2 := s.t2.map fun cells =>
        (updateAcc s.t2Acc (second / 60) value cells (decide (second % 60 = 59))).2
      t2Acc := s.t2.elim s.t2Acc fun cells =>
        (updateAcc s.t2Acc (second / 60) value cells (decide (second % 60 = 59))).1 } := by
  obtain ⟨-, h1, h2⟩ := hshape
  unfold Series.closeSecond
  cases ht1 : s.t1 with
  | none =>
    -- a series without the first tier has no second
    have ht2 : s.t2 = none := by
      rw [ht1] at h1
      split_ifs at h1 with hc
      · rw [if_neg (by rw [hc]; exact Class.noConfusion), Option.map_eq_none_iff] at h2
        exact h2
      · cases h1
    rw [ht2]
    cases s
    cases ht1
    cases ht2
    rfl
  | some cells =>
    cases ht2 : s.t2 with
    | none =>
      cases s
      cases ht2
      rfl
    | some cells2 => rfl

theorem Shape.closeSecond (h : Shape s) (second : Nat) (value : Option ℚ) :
    Shape (s.closeSecond second value) := by
  rw [closeSecond_eq s second value h]
  refine ⟨h.t0, ?_, ?_⟩
  · rw [Option.map_map, ← h.t1]
    congr 1
    funext cells
    exact updateAcc_size _ _ _ _ _
  · rw [Option.map_map, ← h.t2]
    congr 1
    funext cells
    exact updateAcc_size _ _ _ _ _

theorem latest_open {q : Nat × Option ℚ} (h : log.getLast? = some q) :
    latest log (secondOf q) = q.2 := by
  obtain ⟨init, rfl⟩ := List.getLast?_eq_some_iff.mp h
  rw [latest_snoc, if_pos rfl]

theorem Shape.setOpen (h : Shape s) (atMs : Nat) (value : Option ℚ) :
    Shape (s.setOpen atMs value) :=
  ⟨(size_put _ _ _).trans h.t0, h.t1, h.t2⟩

theorem Shape.fillSkipped (h : Shape s) (opened second : Nat) :
    Shape (s.fillSkipped opened second) :=
  ⟨(size_clear _ _ _ _).trans h.t0, h.t1, h.t2⟩

/-- The first push. -/
theorem Tracks.push_first (h : Tracks [] s) (q : Nat × Option ℚ) :
    Tracks [q] ({ s with firstPushMs := q.1 }.setOpen q.1 q.2) where
  shape := Shape.setOpen (s := { s with firstPushMs := q.1 }) ⟨h.shape.t0, h.shape.t1,
    h.shape.t2⟩ q.1 q.2
  sorted := pairwise_singleton _ _
  opened := rfl
  value := fun _ hp => congrArg Prod.snd (Option.some.inj hp)
  first := fun _ hp => congrArg Prod.fst (Option.some.inj hp)
  blank := fun hnil => absurd hnil (cons_ne_nil _ _)
  t0 := by
    intro o ho
    have heq : secondOf q = o := Option.some.inj ho
    subst heq
    have hopen : latest [q] (secondOf q) = q.2 := latest_open rfl
    show Holds (s.t0.put (secondOf q) q.2) (latest [q]) (secondOf q + 1)
    rw [← hopen]
    refine Holds.put (.of_const (h.blank rfl) fun i hi => latest_none fun p hp => ?_)
    rw [mem_singleton.mp hp]
    omega
  t1 := fun cells hcells => (h.t1 cells hcells).first
  t2 := fun cells hcells => (h.t2 cells hcells).first

/-- A push in the open second replaces its value. -/
theorem Tracks.push_same (h : Tracks log s) {q : Nat × Option ℚ}
    (ho : openSecond log = some (secondOf q)) :
    Tracks (log ++ [q]) (s.setOpen q.1 q.2) where
  shape := h.shape.setOpen q.1 q.2
  sorted := h.sorted.snoc fun o ho' => (Option.some.inj (ho'.symm.trans ho)).le
  opened := (openSecond_snoc log q).symm
  value := fun p hp => by
    rw [List.getLast?_concat] at hp
    exact congrArg Prod.snd (Option.some.inj hp)
  first := fun p hp => by
    have hne : log ≠ [] := by
      rintro rfl
      cases ho
    rw [List.head?_append_of_ne_nil _ hne] at hp
    exact h.first p hp
  blank := fun hnil => absurd hnil (append_ne_nil_of_right_ne_nil _ (cons_ne_nil _ _))
  t0 := by
    intro o ho'
    rw [openSecond_snoc] at ho'
    have heq : secondOf q = o := Option.some.inj ho'
    subst heq
    have hold := h.t0 _ ho
    intro i hi hreach
    show (s.t0.put (secondOf q) q.2).at i = _
    have hreach : secondOf q + 1 ≤ i + s.t0.size := (size_put s.t0 (secondOf q) q.2) ▸ hreach
    rw [at_put, latest_snoc]
    by_cases heq : secondOf q = i
    · rw [if_pos (congrArg (· % _) heq), if_pos heq]
    · rw [if_neg (mod_ne (by omega) (by omega)), if_neg heq]
      exact hold i hi hreach
  t1 := fun cells hcells => (h.t1 cells hcells).same (by decide) h.sorted ho
  t2 := fun cells hcells => (h.t2 cells hcells).same (by decide) h.sorted ho

/-- A push in a later second closes the open one, and the seconds in between have no value. -/
theorem Tracks.push_later (h : Tracks log s) {o : Nat} {q : Nat × Option ℚ}
    (ho : openSecond log = some o) (hq : o < secondOf q) :
    Tracks (log ++ [q])
    (((s.closeSecond o s.openValue).fillSkipped o (secondOf q)).setOpen q.1 q.2) := by
  obtain ⟨last, hlast, hsec⟩ := Option.map_eq_some_iff.mp ho
  have hvalue : s.openValue = latest log o := by
    rw [h.value last hlast, ← hsec, latest_open hlast]
  have hshape := h.shape.closeSecond o s.openValue
  have hne : log ≠ [] := by
    rintro rfl
    cases ho
  have hclose := closeSecond_eq s o s.openValue h.shape
  rw [hclose, hvalue] at hshape ⊢
  exact
    { shape := (hshape.fillSkipped o (secondOf q)).setOpen q.1 q.2
      sorted := h.sorted.snoc fun o' ho' => by
        have heq := Option.some.inj (ho'.symm.trans ho)
        omega
      opened := (openSecond_snoc log q).symm
      value := fun p hp => by
        rw [List.getLast?_concat] at hp
        exact congrArg Prod.snd (Option.some.inj hp)
      first := fun p hp => by
        rw [List.head?_append_of_ne_nil _ hne] at hp
        exact h.first p hp
      blank := fun hnil => absurd hnil (append_ne_nil_of_right_ne_nil _ (cons_ne_nil _ _))
      t0 := by
        intro o' ho'
        rw [openSecond_snoc] at ho'
        have heq : secondOf q = o' := Option.some.inj ho'
        subst heq
        have hold : Holds s.t0 (latest (log ++ [q])) (o + 1) :=
          (h.t0 o ho).congr fun i hi => (latest_later hq (by omega)).symm
        have hgap := hold.clear_tail (m := secondOf q) (v := none) hq fun i hi his => by
          rw [latest_snoc, if_neg (by omega)]
          exact latest_above h.sorted ho hi
        have hopen : latest (log ++ [q]) (secondOf q) = q.2 := by rw [latest_snoc, if_pos rfl]
        have hput := hgap.put
        rw [hopen] at hput
        exact hput
      t1 := by
        intro cells hcells
        obtain ⟨cells', hcells', rfl⟩ := Option.map_eq_some_iff.mp hcells
        show TierTracks 5 (log ++ [q]) (s.t1.elim s.t1Acc _) _
        rw [hcells', Option.elim_some]
        exact (h.t1 cells' hcells').close (by decide) h.sorted ho hq (by
          rw [decide_eq_true_eq]
          omega)
      t2 := by
        intro cells hcells
        obtain ⟨cells', hcells', rfl⟩ := Option.map_eq_some_iff.mp hcells
        show TierTracks 60 (log ++ [q]) (s.t2.elim s.t2Acc _) _
        rw [hcells', Option.elim_some]
        exact (h.t2 cells' hcells').close (by decide) h.sorted ho hq (by
          rw [decide_eq_true_eq]
          omega) }

/-- **A push** is accepted and joins the history, unless it is of a second before the open one. -/
theorem push_tracks (h : Tracks log s) (atMs : Nat) (value : Option ℚ) :
    ((s.push atMs value).1 = false ∧ (s.push atMs value).2 = s) ∨
      ((s.push atMs value).1 = true ∧ Tracks (log ++ [(atMs, value)]) (s.push atMs value).2) := by
  unfold Series.push
  cases hopen : s.openSecond with
  | none =>
    right
    have hnil : log = [] := by
      rw [h.opened, openSecond, Option.map_eq_none_iff, List.getLast?_eq_none_iff] at hopen
      exact hopen
    subst hnil
    exact ⟨rfl, h.push_first (atMs, value)⟩
  | some o =>
    have ho : openSecond log = some o := h.opened.symm.trans hopen
    dsimp only
    split_ifs with hback hlater
    · exact .inl ⟨rfl, rfl⟩
    · exact .inr ⟨rfl, h.push_later ho hlater⟩
    · refine .inr ⟨rfl, h.push_same (q := (atMs, value)) ?_⟩
      have heq : o = atMs / t0Ms := by omega
      rw [ho, heq]
      rfl

end Push

end Thegn.Monitor

import Thegn.Fold.Trace
import Thegn.Lib.EditScript

set_option autoImplicit false

/-! # The fold builds one unbroken chain

`Chained` says that every branch was folded against the commit of the last branch landed before it,
and `LandedBy` what the commits of a landed branch look like under each strategy. The commits of
deferred branches, left behind by a replay that met a conflict half way, are outside the chain; in
the commit graph they cannot be reached from its end (`landed_of_reaches`). The account of a whole
fold is `fold_accounts`.
-/

namespace Thegn.Fold

open Text Effect Interleave List

/-! ## The walk of a branch -/

/-- The commits lead from `base`, exclusive, to `tip`: each one has the one before it as its sole
parent. Ids are compared as the code does, without regard to case. -/
def LinearWalk (tip : Oid) : Oid → List CommitMeta → Prop
  | base, [] => eqIgnoreAsciiCase base tip = true
  | base, c :: rest =>
    (∃ p, c.parents = [p] ∧ eqIgnoreAsciiCase p base = true) ∧
    eqIgnoreAsciiCase c.parent base = true ∧ LinearWalk tip c.oid rest

theorem verifyParent_ok {index : Nat} {expected : Oid} {c : CommitMeta} :
    verifyParent index expected c = .ok ()
      ↔ (∃ p, c.parents = [p] ∧ eqIgnoreAsciiCase p expected = true)
          ∧ eqIgnoreAsciiCase c.parent expected = true := by
  unfold verifyParent
  rcases hp : c.parents with _ | ⟨p, _ | ⟨q, ps⟩⟩
  · simp
  · by_cases h1 : eqIgnoreAsciiCase p expected = true
    · by_cases h2 : eqIgnoreAsciiCase c.parent expected = true
      · simp [h1, h2]
      · simp [h1, h2]
    · simp [h1]
  · simp

theorem verifyFrom_ok {tip : Oid} (rest : List CommitMeta) :
    ∀ (index : Nat) (previous : CommitMeta),
      verifyFrom tip index previous rest = .ok () ↔ LinearWalk tip previous.oid rest := by
  induction rest with
  | nil =>
    intro index previous
    unfold verifyFrom LinearWalk
    split_ifs with h
    · simp [h]
    · simp [h]
  | cons c rest ih =>
    intro index previous
    rw [verifyFrom, LinearWalk, ← and_assoc, ← verifyParent_ok, ← ih (index + 1) c]
    cases hv : verifyParent index previous.oid c with
    | error e => simp [bind, Except.bind]
    | ok u => simp [bind, Except.bind]

/-- **The check of the walk is exact.** -/
theorem verifyLinearWalk_ok {base tip : Oid} {walk : List CommitMeta} :
    verifyLinearWalk base tip walk = .ok () ↔ LinearWalk tip base walk := by
  cases walk with
  | nil =>
    unfold verifyLinearWalk LinearWalk
    split_ifs with h
    · simp [h]
    · simp [h]
  | cons c rest =>
    rw [verifyLinearWalk, LinearWalk, ← and_assoc, ← verifyParent_ok, ← verifyFrom_ok rest 1 c]
    cases hv : verifyParent 0 base c with
    | error e => simp [bind, Except.bind]
    | ok u => simp [bind, Except.bind]

/-! ## The commits of a landed branch -/

section

variable {σ : Type} (git : FoldGit σ)

/-- The walk was replayed onto the running commit: one commit for each of its commits, in order,
with the tree of a clean merge, the one before as its sole parent, and the message and author of
the original. -/
inductive Replayed : Oid → List CommitMeta → List Commit → Oid → Prop
  | nil (running : Oid) : Replayed running [] [] running
  | cons {running tree next last : Oid} {c : CommitMeta} {walk : List CommitMeta}
      {commits : List Commit}
      (clean : Answers (git.mergeTreeBase c.parent running c.oid) (.clean tree))
      (rest : Replayed next walk commits last) :
      Replayed running (c :: walk) (⟨next, tree, [running], c.message, some c.author⟩ ::
        commits) last

/-- Branch `b` was landed onto `tip` as `commit`, with these commits. -/
def LandedBy (opts : LandOpts) (tip : Oid) (b : Branch) (commits : List Commit) (commit : Oid) :
    Prop :=
  match opts.strategy with
  | .merge => ∃ tree msg, Answers (git.mergeTree tip b.tip) (.clean tree)
      ∧ Answers (landMessage git tip b opts false) msg
      ∧ commits = [⟨commit, tree, [tip, b.tip], msg, none⟩]
  | .squash => ∃ tree msg, Answers (git.mergeTree tip b.tip) (.clean tree)
      ∧ Answers (landMessage git tip b opts true) msg
      ∧ commits = [⟨commit, tree, [tip], msg, none⟩]
  | .rebase => ∃ base walk, Answers (git.mergeBase tip b.tip) (some base)
      ∧ Answers (git.commits base b.tip) walk
      ∧ LinearWalk b.tip base walk
      ∧ Replayed git tip walk commits commit

/-- The branches were folded one after the other from the running tip `tip`, which a landed branch
moves to its commit and a deferred one leaves alone. -/
inductive Chained (opts : LandOpts) : Oid → List BranchRun → Oid → Prop
  | nil (tip : Oid) : Chained opts tip [] tip
  | landed {tip commit last : Oid} {b : Branch} {commits : List Commit} {rs : List BranchRun}
      (by_ : LandedBy git opts tip b commits commit) (rest : Chained opts commit rs last) :
      Chained opts tip (⟨b, tip, .landed commit, commits⟩ :: rs) last
  | deferred {tip last : Oid} {b : Branch} {one : One} {commits : List Commit}
      {rs : List BranchRun} (held : one.isLanded = false) (rest : Chained opts tip rs last) :
      Chained opts tip (⟨b, tip, one, commits⟩ :: rs) last

variable {git}

/-- A replay that lands has replayed the whole walk. -/
theorem replayFrom_ok (walk : List CommitMeta) :
    ∀ {running : Oid} {s t : σ} {log log' : List Commit} {commit : Oid},
      (replayFrom git.traced running walk).run (s, log) = .ok (.landed commit, (t, log')) →
      ∃ commits, log' = log ++ commits ∧ Replayed git running walk commits commit := by
  induction walk with
  | nil =>
    intro running s t log log' commit h
    rw [replayFrom, run_pure_ok] at h
    simp only [Prod.mk.injEq, One.landed.injEq] at h
    obtain ⟨hc, -, hl⟩ := h
    refine ⟨[], by rw [hl, append_nil], ?_⟩
    rw [hc]
    exact .nil running
  | cons c walk ih =>
    intro running s t log log' commit h
    rw [replayFrom, run_bind_ok] at h
    obtain ⟨outcome, ⟨s1, log1⟩, hmerge, h⟩ := h
    obtain ⟨hmerge, hlog1⟩ := run_quiet_ok.mp hmerge
    cases outcome with
    | clean tree =>
      rw [run_bind_ok] at h
      obtain ⟨next, ⟨s2, log2⟩, hcommit, h⟩ := h
      rw [traced_commitTreeAuthor] at hcommit
      obtain ⟨-, hlog2⟩ := run_logged_ok.mp hcommit
      obtain ⟨commits, hlog', hrest⟩ := ih h
      refine ⟨_ :: commits, ?_, .cons ⟨s, s1, hmerge⟩ hrest⟩
      rw [hlog', hlog2, hlog1, append_assoc]
      rfl
    | conflict paths =>
      rw [run_pure_ok] at h
      simp at h
    | submoduleConflict paths conflicts =>
      rw [run_pure_ok] at h
      simp at h

theorem rebaseReplay_ok {tip : Oid} {b : Branch} {s t : σ} {commits : List Commit} {commit : Oid}
    (h : (rebaseReplay git.traced tip b).run (s, []) = .ok (.landed commit, (t, commits))) :
    ∃ base walk, Answers (git.mergeBase tip b.tip) (some base)
      ∧ Answers (git.commits base b.tip) walk ∧ LinearWalk b.tip base walk
      ∧ Replayed git tip walk commits commit := by
  rw [rebaseReplay, run_bind_ok] at h
  obtain ⟨base, ⟨s1, log1⟩, hbase, h⟩ := h
  obtain ⟨hbase, hlog1⟩ := run_quiet_ok.mp hbase
  cases base with
  | none =>
    rw [run_pure_ok] at h
    simp at h
  | some base =>
    rw [run_bind_ok] at h
    obtain ⟨walk, ⟨s2, log2⟩, hwalk, h⟩ := h
    obtain ⟨hwalk, hlog2⟩ := run_quiet_ok.mp hwalk
    split_ifs at h with hparents
    · rw [run_pure_ok] at h
      simp at h
    · cases hv : verifyLinearWalk base b.tip walk with
      | error reason =>
        rw [hv] at h
        cases h
      | ok u =>
        rw [hv] at h
        obtain ⟨seg, hseg, hreplayed⟩ := replayFrom_ok walk h
        rw [hlog2, hlog1, nil_append] at hseg
        rw [hseg]
        exact ⟨base, walk, ⟨s, s1, hbase⟩, ⟨s1, s2, hwalk⟩, verifyLinearWalk_ok.mp hv, hreplayed⟩

theorem landMerged_ok {tip : Oid} {b : Branch} {opts : LandOpts} {squash : Bool} {s t : σ}
    {commits : List Commit} {commit : Oid}
    (h : (landMerged git.traced tip b opts squash).run (s, []) =
      .ok (.landed commit, (t, commits))) :
    ∃ tree msg, Answers (git.mergeTree tip b.tip) (.clean tree)
      ∧ Answers (landMessage git tip b opts squash) msg
      ∧ commits = [⟨commit, tree, if squash then [tip] else [tip, b.tip], msg, none⟩] := by
  rw [landMerged, run_bind_ok] at h
  obtain ⟨outcome, ⟨s1, log1⟩, hmerge, h⟩ := h
  obtain ⟨hmerge, hlog1⟩ := run_quiet_ok.mp hmerge
  cases outcome with
  | clean tree =>
    dsimp only at h
    rw [traced_landMessage, run_bind_ok] at h
    obtain ⟨msg, ⟨s2, log2⟩, hmsg, h⟩ := h
    obtain ⟨hmsg, hlog2⟩ := run_quiet_ok.mp hmsg
    rw [run_bind_ok] at h
    obtain ⟨oid, ⟨s3, log3⟩, hcommit, h⟩ := h
    rw [traced_commitTree] at hcommit
    obtain ⟨-, hlog3⟩ := run_logged_ok.mp hcommit
    rw [run_pure_ok] at h
    simp only [Prod.mk.injEq, One.landed.injEq] at h
    obtain ⟨hoid, -, hlog⟩ := h
    refine ⟨tree, msg, ⟨s, s1, hmerge⟩, ⟨s1, s2, hmsg⟩, ?_⟩
    rw [hlog, hlog3, hlog2, hlog1, hoid]
    rfl
  | conflict paths =>
    rw [run_pure_ok] at h
    simp at h
  | submoduleConflict paths conflicts =>
    rw [run_pure_ok] at h
    simp at h

/-- **One branch**: when it lands, its commits are as the strategy says. -/
theorem foldOne_ok {tip : Oid} {b : Branch} {opts : LandOpts} {s t : σ} {commits : List Commit}
    {commit : Oid}
    (h : (observe (foldOne git.traced tip b opts)).run s = .ok ((.landed commit, commits), t)) :
    LandedBy git opts tip b commits commit := by
  rw [run_observe_ok, foldOne] at h
  unfold LandedBy
  cases hs : opts.strategy with
  | merge =>
    rw [hs] at h
    simpa using landMerged_ok h
  | squash =>
    rw [hs] at h
    simpa using landMerged_ok h
  | rebase =>
    rw [hs] at h
    exact rebaseReplay_ok h

/-- **All branches**: the runs form a chain. -/
theorem branchRuns_chained {opts : LandOpts} (bs : List Branch) :
    ∀ {tip : Oid} {s t : σ} {rs : List BranchRun},
      (branchRuns git opts tip bs).run s = .ok (rs, t) →
      rs.map BranchRun.branch = bs ∧ ∃ last, Chained git opts tip rs last := by
  induction bs with
  | nil =>
    intro tip s t rs h
    rw [branchRuns, run_pure_ok] at h
    simp only [Prod.mk.injEq] at h
    rw [h.1]
    exact ⟨rfl, tip, .nil tip⟩
  | cons b bs ih =>
    intro tip s t rs h
    rw [branchRuns, run_bind_ok] at h
    obtain ⟨⟨one, commits⟩, s1, hone, h⟩ := h
    rw [run_bind_ok] at h
    obtain ⟨rest, s2, hrest, h⟩ := h
    rw [run_pure_ok] at h
    simp only [Prod.mk.injEq] at h
    rw [h.1]
    obtain ⟨hbs, last, hchain⟩ := ih hrest
    refine ⟨by rw [map_cons, hbs], last, ?_⟩
    cases one with
    | landed commit => exact .landed (foldOne_ok hone) hchain
    | deferred paths conflicts => exact .deferred rfl hchain
    | unsupportedMergeHistory => exact .deferred rfl hchain

end

end Thegn.Fold

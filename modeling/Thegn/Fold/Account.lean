import Thegn.Fold.Chain

set_option autoImplicit false

/-! # The account of a fold

What a returned plan says about the branches it was given: each is landed or deferred, in the order
given; the final tip is the commit of the last one that landed; the landed ones form a chain
(`fold_accounts`). In the commit graph, a commit left behind by a deferred branch is not reachable
from the final tip, as long as git names commits as it does: new commits get new ids, and one id
names one commit (`landed_of_reaches`).
-/

namespace Thegn.Fold

open Text Effect Interleave List

/-! ## Landed and deferred branches -/

/-- The entry of the plan for a landed branch. -/
def BranchRun.landed? (r : BranchRun) : Option Landed :=
  match r.one with
  | .landed commit => some { branch := r.branch, commit }
  | _ => none

/-- The entry of the plan for a deferred branch. -/
def BranchRun.deferred? (regeneratePaths : List Text) (r : BranchRun) : Option Deferred :=
  match r.one with
  | .landed _ => none
  | .deferred paths submoduleConflicts => some {
      branch := r.branch
      paths := paths
      kind := if submoduleConflicts = [] then classify paths regeneratePaths else .textual
      submoduleConflicts := submoduleConflicts }
  | .unsupportedMergeHistory => some {
      branch := r.branch
      paths := []
      kind := .unsupportedMergeHistory
      submoduleConflicts := [] }

theorem recordAll_landed (regeneratePaths : List Text) (rs : List BranchRun) :
    ∀ st : FoldState, (recordAll regeneratePaths st rs).landed
      = st.landed ++ rs.filterMap BranchRun.landed? := by
  induction rs with
  | nil => intro st; exact (append_nil _).symm
  | cons r rs ih =>
    intro st
    have hih := ih (st.record regeneratePaths r.branch r.one)
    rw [recordAll, foldl_cons, ← recordAll, hih]
    cases hone : r.one with
    | landed commit => simp [FoldState.record, BranchRun.landed?, hone]
    | deferred paths conflicts => simp [FoldState.record, BranchRun.landed?, hone]
    | unsupportedMergeHistory => simp [FoldState.record, BranchRun.landed?, hone]

theorem recordAll_deferred (regeneratePaths : List Text) (rs : List BranchRun) :
    ∀ st : FoldState, (recordAll regeneratePaths st rs).deferred
      = st.deferred ++ rs.filterMap (BranchRun.deferred? regeneratePaths) := by
  induction rs with
  | nil => intro st; exact (append_nil _).symm
  | cons r rs ih =>
    intro st
    have hih := ih (st.record regeneratePaths r.branch r.one)
    rw [recordAll, foldl_cons, ← recordAll, hih]
    cases hone : r.one with
    | landed commit => simp [FoldState.record, BranchRun.deferred?, hone]
    | deferred paths conflicts => simp [FoldState.record, BranchRun.deferred?, hone]
    | unsupportedMergeHistory => simp [FoldState.record, BranchRun.deferred?, hone]

/-- Every branch has exactly one entry, and the entries keep the order. -/
theorem interleaves_entries (regeneratePaths : List Text) (rs : List BranchRun) :
    Interleaves ((rs.filterMap BranchRun.landed?).map Landed.branch)
      ((rs.filterMap (BranchRun.deferred? regeneratePaths)).map Deferred.branch)
      (rs.map BranchRun.branch) := by
  induction rs with
  | nil => exact .nil
  | cons r rs ih =>
    cases hone : r.one with
    | landed commit =>
      simpa [BranchRun.landed?, BranchRun.deferred?, hone] using ih.left
    | deferred paths conflicts =>
      simpa [BranchRun.landed?, BranchRun.deferred?, hone] using ih.right
    | unsupportedMergeHistory =>
      simpa [BranchRun.landed?, BranchRun.deferred?, hone] using ih.right

/-- The commit of the last landed branch, or the tip the fold began with. -/
def lastCommit (start : Oid) (landed : List Landed) : Oid :=
  (landed.getLast?.map Landed.commit).getD start

theorem lastCommit_cons (start : Oid) (l : Landed) (ls : List Landed) :
    lastCommit start (l :: ls) = lastCommit l.commit ls := by
  cases ls with
  | nil => rfl
  | cons l' ls =>
    unfold lastCommit
    rw [List.getLast?_cons_cons, List.getLast?_cons]
    rfl

section

variable {σ : Type} {git : FoldGit σ} {opts : LandOpts}

/-- The end of the chain is the commit of the last landed branch. -/
theorem Chained.last_eq {tip last : Oid} {rs : List BranchRun} (h : Chained git opts tip rs last) :
    last = lastCommit tip (rs.filterMap BranchRun.landed?) := by
  induction h with
  | nil tip => rfl
  | @landed tip commit _ b commits _ _ _ ih =>
    have hsome : BranchRun.landed? ⟨b, tip, .landed commit, commits⟩ = some ⟨b, commit⟩ := rfl
    rw [filterMap_cons_some hsome, lastCommit_cons]
    exact ih
  | @deferred tip _ b one commits _ held _ ih =>
    have hnone : BranchRun.landed? ⟨b, tip, one, commits⟩ = none := by
      cases one with
      | landed commit => cases held
      | deferred paths conflicts => rfl
      | unsupportedMergeHistory => rfl
    rw [filterMap_cons_none hnone]
    exact ih

theorem recordAll_tip (regeneratePaths : List Text) {rs : List BranchRun} {last : Oid}
    {st : FoldState}
    (h : Chained git opts st.tip rs last) : (recordAll regeneratePaths st rs).tip = last := by
  generalize htip : st.tip = tip at h
  induction h generalizing st with
  | nil tip => exact htip
  | landed _ _ ih => exact ih rfl
  | @deferred _ _ _ one _ _ held _ ih =>
    apply ih
    rw [record_tip, ← htip]
    cases one with
    | landed commit => cases held
    | deferred paths conflicts => rfl
    | unsupportedMergeHistory => rfl

/-! ## The commit graph -/

/-- The commits that existed before the fold, and their parents. -/
structure History where
  known : Oid → Prop
  parent : Oid → Oid → Prop
  closed : ∀ c p, parent c p → known c ∧ known p

/-- The commits created for all the branches. -/
def created (rs : List BranchRun) : List Commit := rs.flatMap BranchRun.commits

/-- `p` is a parent of `c`, in the history or in a commit created by the fold. -/
def History.Parent (past : History) (rs : List BranchRun) (c p : Oid) : Prop :=
  past.parent c p ∨ ∃ d ∈ created rs, d.oid = c ∧ p ∈ d.parents

/-- `c` is `tip` or one of its ancestors. -/
def History.Reaches (past : History) (rs : List BranchRun) : Oid → Oid → Prop :=
  Relation.ReflTransGen (past.Parent rs)

/-- How git names commits: the fold works on known commits, the commits it creates are not among
them, and one id names one commit. -/
structure Named (past : History) (start : Oid) (rs : List BranchRun) : Prop where
  start : past.known start
  tips : ∀ r ∈ rs, past.known r.branch.tip
  fresh : ∀ c ∈ created rs, ¬ past.known c.oid
  content : ∀ c ∈ created rs, ∀ d ∈ created rs, c.oid = d.oid → c = d

/-- A commit created for a landed branch. -/
def LandedCommit (rs : List BranchRun) (c : Commit) : Prop :=
  ∃ r ∈ rs, r.one.isLanded = true ∧ c ∈ r.commits

/-- An id of the history, or of a commit created for a landed branch. -/
def History.Kept (past : History) (rs : List BranchRun) (x : Oid) : Prop :=
  past.known x ∨ ∃ c, LandedCommit rs c ∧ c.oid = x

/-- The parents of replayed commits: the running commit, or a replayed commit. The last commit is
one of these too. -/
theorem Replayed.parents {running last : Oid} {walk : List CommitMeta} {commits : List Commit}
    (h : Replayed git running walk commits last) :
    (∀ c ∈ commits, ∀ p ∈ c.parents, p = running ∨ ∃ d ∈ commits, d.oid = p)
      ∧ (last = running ∨ ∃ d ∈ commits, d.oid = last) := by
  induction h with
  | nil running => exact ⟨by simp, .inl rfl⟩
  | @cons running tree next last c walk commits _ _ ih =>
    have hhead : ∀ x, (x = next ∨ ∃ d ∈ commits, d.oid = x) →
        ∃ d ∈ ⟨next, tree, [running], c.message, some c.author⟩ :: commits, d.oid = x := by
      rintro x (rfl | ⟨d, hd, rfl⟩)
      · exact ⟨_, .head _, rfl⟩
      · exact ⟨d, .tail _ hd, rfl⟩
    refine ⟨?_, .inr (hhead last ih.2)⟩
    intro d hd p hp
    rcases mem_cons.mp hd with rfl | hd
    · exact .inl (mem_singleton.mp hp)
    · exact .inr (hhead p (ih.1 d hd p hp))

theorem LandedBy.parents {tip commit : Oid} {b : Branch} {commits : List Commit}
    (h : LandedBy git opts tip b commits commit) :
    (∀ c ∈ commits, ∀ p ∈ c.parents, p = tip ∨ p = b.tip ∨ ∃ d ∈ commits, d.oid = p)
      ∧ (commit = tip ∨ ∃ d ∈ commits, d.oid = commit) := by
  unfold LandedBy at h
  cases hs : opts.strategy with
  | merge =>
    simp only [hs] at h
    obtain ⟨tree, msg, -, -, rfl⟩ := h
    exact ⟨by simp, .inr ⟨_, mem_singleton_self _, rfl⟩⟩
  | squash =>
    simp only [hs] at h
    obtain ⟨tree, msg, -, -, rfl⟩ := h
    exact ⟨by simp, .inr ⟨_, mem_singleton_self _, rfl⟩⟩
  | rebase =>
    simp only [hs] at h
    obtain ⟨base, walk, -, -, -, hr⟩ := h
    refine ⟨?_, hr.parents.2⟩
    intro c hc p hp
    exact (hr.parents.1 c hc p hp).imp id .inr

/-- Along the chain, the running tips and the parents of landed commits stay inside what is kept. -/
theorem Chained.kept {past : History} {all rs : List BranchRun} {tip last : Oid}
    (h : Chained git opts tip rs last) (hsub : ∀ r ∈ rs, r ∈ all)
    (htips : ∀ r ∈ all, past.known r.branch.tip) (htip : past.Kept all tip) :
    past.Kept all last ∧ ∀ c, LandedCommit rs c → ∀ p ∈ c.parents, past.Kept all p := by
  induction h with
  | nil tip => exact ⟨htip, by rintro c ⟨r, hr, -⟩; cases hr⟩
  | @landed tip commit last b commits rs hby _ ih =>
    have hrun := hsub _ (.head _)
    have hown : ∀ d ∈ commits, past.Kept all d.oid :=
      fun d hd => .inr ⟨d, ⟨_, hrun, rfl, hd⟩, rfl⟩
    have hcommit : past.Kept all commit := by
      rcases hby.parents.2 with rfl | ⟨d, hd, rfl⟩
      · exact htip
      · exact hown d hd
    obtain ⟨hlast, hrest⟩ := ih (fun r hr => hsub r (.tail _ hr)) hcommit
    refine ⟨hlast, ?_⟩
    rintro c ⟨r, hr, hl, hc⟩ p hp
    rcases mem_cons.mp hr with rfl | hr
    · rcases hby.parents.1 c hc p hp with rfl | rfl | ⟨d, hd, rfl⟩
      · exact htip
      · exact .inl (htips _ hrun)
      · exact hown d hd
    · exact hrest c ⟨r, hr, hl, hc⟩ p hp
  | deferred held _ ih =>
    obtain ⟨hlast, hrest⟩ := ih (fun r hr => hsub r (.tail _ hr)) htip
    refine ⟨hlast, ?_⟩
    rintro c ⟨r, hr, hl, hc⟩ p hp
    rcases mem_cons.mp hr with rfl | hr
    · rw [held] at hl
      cases hl
    · exact hrest c ⟨r, hr, hl, hc⟩ p hp

theorem LandedCommit.mem_created {rs : List BranchRun} {c : Commit} (h : LandedCommit rs c) :
    c ∈ created rs := by
  obtain ⟨r, hr, -, hc⟩ := h
  exact mem_flatMap.mpr ⟨r, hr, hc⟩

/-- What is kept is closed under taking parents, so every ancestor of the last commit is kept. -/
theorem kept_of_reaches {past : History} {start last x : Oid} {rs : List BranchRun}
    (h : Chained git opts start rs last) (hnamed : Named past start rs)
    (hreach : past.Reaches rs last x) : past.Kept rs x := by
  obtain ⟨hlast, hparents⟩ := h.kept (fun _ hr => hr) hnamed.tips (.inl hnamed.start)
  induction hreach with
  | refl => exact hlast
  | @tail y p _ hstep ih =>
    rcases hstep with hold | ⟨d, hd, rfl, hp⟩
    · exact .inl (past.closed y p hold).2
    · rcases ih with hknown | ⟨e, he, hoid⟩
      · exact absurd hknown (hnamed.fresh d hd)
      · have hed := hnamed.content e he.mem_created d hd hoid
        exact hparents e he p (hed ▸ hp)

/-- **Nothing of a deferred branch is reachable**: a created commit that can be reached from the end
of the chain was created for a landed branch. -/
theorem landed_of_reaches {past : History} {start last : Oid} {rs : List BranchRun}
    (h : Chained git opts start rs last) (hnamed : Named past start rs) {c : Commit}
    (hc : c ∈ created rs) (hreach : past.Reaches rs last c.oid) : LandedCommit rs c := by
  rcases kept_of_reaches h hnamed hreach with hknown | ⟨d, hd, hoid⟩
  · exact absurd hknown (hnamed.fresh c hc)
  · rw [← hnamed.content d hd.mem_created c hc hoid]
    exact hd

/-- When every created commit has its own id, the commits of different branches are different. -/
theorem not_landedCommit {rs : List BranchRun} (hnodup : ((created rs).map Commit.oid).Nodup)
    {r : BranchRun} (hr : r ∈ rs) (hheld : r.one.isLanded = false) {c : Commit}
    (hc : c ∈ r.commits) : ¬ LandedCommit rs c := by
  rintro ⟨r', hr', hl, hc'⟩
  have hne : r ≠ r' := by
    rintro rfl
    rw [hheld] at hl
    cases hl
  have hpair := (nodup_flatMap.mp (List.Nodup.of_map _ hnodup)).2
  have hsymm : Std.Symm (Function.onFun List.Disjoint BranchRun.commits) := ⟨fun _ _ hd => hd.symm⟩
  exact hpair.forall hr hr' hne hc hc'

end

/-! ## The account -/

/-- **The fold accounts for every branch and builds one unbroken chain.** The landed and the
deferred branches together are the branches given, in order. The runs behind the plan form a chain
from the start tip to the final tip, which is the commit of the last landed branch. A commit created
for a deferred branch is reachable from the final tip only if the very same commit was also created
for a landed branch, and not at all when no id was handed out twice. -/
theorem fold_accounts {σ : Type} (git : FoldGit σ) (startTip : Oid) (branches : List Branch)
    (regeneratePaths : List Text) (opts : LandOpts) (s t : σ) (plan : FoldPlan)
    (h : (fold git startTip branches regeneratePaths opts).run s = .ok (plan, t)) :
    plan.original = startTip
      ∧ Interleaves (plan.landed.map Landed.branch) (plan.deferred.map Deferred.branch) branches
      ∧ plan.finalTip = lastCommit plan.original plan.landed
      ∧ ∃ rs, (branchRuns git opts startTip branches).run s = .ok (rs, t)
          ∧ rs.map BranchRun.branch = branches
          ∧ plan.landed = rs.filterMap BranchRun.landed?
          ∧ plan.deferred = rs.filterMap (BranchRun.deferred? regeneratePaths)
          ∧ Chained git opts startTip rs plan.finalTip
          ∧ (∀ past : History, Named past startTip rs →
              ∀ c ∈ created rs, past.Reaches rs plan.finalTip c.oid → LandedCommit rs c)
          ∧ (∀ past : History, Named past startTip rs → ((created rs).map Commit.oid).Nodup →
              ∀ r ∈ rs, r.one.isLanded = false →
                ∀ c ∈ r.commits, ¬ past.Reaches rs plan.finalTip c.oid) := by
  rw [fold_eq_branchRuns, run_bind_ok] at h
  obtain ⟨rs, t', hrs, h⟩ := h
  rw [run_pure_ok] at h
  simp only [Prod.mk.injEq] at h
  obtain ⟨hplan, rfl⟩ := h
  obtain ⟨hbranches, last, hchain⟩ := branchRuns_chained branches hrs
  have hlanded : plan.landed = rs.filterMap BranchRun.landed? := by
    rw [hplan, recordAll_landed, nil_append]
  have hdeferred : plan.deferred = rs.filterMap (BranchRun.deferred? regeneratePaths) := by
    rw [hplan, recordAll_deferred, nil_append]
  have hfinal : plan.finalTip = last := by
    rw [hplan]
    exact recordAll_tip regeneratePaths hchain
  have horiginal : plan.original = startTip := by rw [hplan]
  have hreachable : ∀ past : History, Named past startTip rs →
      ∀ c ∈ created rs, past.Reaches rs plan.finalTip c.oid → LandedCommit rs c := by
    intro past hnamed c hc hreach
    exact landed_of_reaches hchain hnamed hc (hfinal ▸ hreach)
  refine ⟨horiginal, ?_, ?_, rs, hrs, hbranches, hlanded, hdeferred, hfinal ▸ hchain,
    hreachable, ?_⟩
  · rw [hlanded, hdeferred, ← hbranches]
    exact interleaves_entries regeneratePaths rs
  · rw [hfinal, horiginal, hlanded]
    exact hchain.last_eq
  · intro past hnamed hnodup r hr hheld c hc hreach
    have hmem : c ∈ created rs := mem_flatMap.mpr ⟨r, hr, hc⟩
    exact not_landedCommit hnodup hr hheld hc (hreachable past hnamed c hmem hreach)

/-- A repository with two branches off `m`; the second commit of the first branch conflicts. New
commits are numbered. -/
def halfReplayGit : FoldGit Nat where
  mergeTree _ _ := return .clean "tree".toList
  commitTree _ _ _ := fun n => .ok ("new".toList ++ ofNat n, n + 1)
  mergeTreeBase _ _ theirs :=
    return if theirs = "a2".toList then .conflict ["file".toList] else .clean "tree".toList
  commitTreeAuthor _ _ _ _ := fun n => .ok ("new".toList ++ ofNat n, n + 1)
  mergeBase _ _ := return some "m".toList
  commits base tip :=
    let author := { name := "n".toList, email := "e".toList, date := "d".toList }
    let first := if tip = "a2".toList then "a1".toList else tip
    let c := { oid := first, parent := base, parents := [base], message := "one".toList,
               author }
    return if tip = first then [c] else
      [c, { oid := tip, parent := first, parents := [first], message := "two".toList,
            author }]

def halfReplayBranches : List Branch := [⟨"a".toList, "a2".toList⟩, ⟨"b".toList, "b1".toList⟩]

/-- What was there before: `m`, the two commits of the first branch and the one of the second. -/
def halfReplayPast : History where
  known x := x ∈ ["m".toList, "a1".toList, "a2".toList, "b1".toList]
  parent c p := (c, p) ∈ [("a1".toList, "m".toList), ("a2".toList, "a1".toList),
    ("b1".toList, "m".toList)]
  closed := by
    intro c p h
    simp only [mem_cons, Prod.mk.injEq, not_mem_nil, or_false] at h
    rcases h with ⟨rfl, rfl⟩ | ⟨rfl, rfl⟩ | ⟨rfl, rfl⟩ <;> decide

instance : DecidablePred halfReplayPast.known := fun x =>
  inferInstanceAs (Decidable (x ∈ ["m".toList, "a1".toList, "a2".toList, "b1".toList]))

def halfReplayRuns : List BranchRun :=
  let author := { name := "n".toList, email := "e".toList, date := "d".toList }
  [⟨⟨"a".toList, "a2".toList⟩, "m".toList, .deferred ["file".toList] [],
      [⟨"new0".toList, "tree".toList, ["m".toList], "one".toList, some author⟩]⟩,
   ⟨⟨"b".toList, "b1".toList⟩, "m".toList, .landed "new1".toList,
      [⟨"new1".toList, "tree".toList, ["m".toList], "one".toList, some author⟩]⟩]

theorem halfReplay_named : Named halfReplayPast "m".toList halfReplayRuns where
  start := by decide
  tips := by
    intro r hr
    simp only [halfReplayRuns, mem_cons, not_mem_nil, or_false] at hr
    rcases hr with rfl | rfl <;> decide
  fresh := by
    intro c hc
    rcases mem_pair.mp hc with rfl | rfl <;> decide
  content := by decide

/-- The first branch leaves `new0` behind, the second lands as `new1` on the tip it started from;
`new0` is not an ancestor of `new1`. -/
theorem halfReplay_accounts :
    ∃ plan, (fold halfReplayGit "m".toList halfReplayBranches [] ⟨.rebase, [], "m".toList⟩).run 0
          = .ok (plan, 2)
      ∧ plan.finalTip = "new1".toList
      ∧ Interleaves (plan.landed.map Landed.branch) (plan.deferred.map Deferred.branch)
          halfReplayBranches
      ∧ ¬ halfReplayPast.Reaches halfReplayRuns plan.finalTip "new0".toList := by
  refine ⟨{ original := "m".toList, finalTip := "new1".toList,
            landed := [⟨⟨"b".toList, "b1".toList⟩, "new1".toList⟩],
            deferred := [⟨⟨"a".toList, "a2".toList⟩, ["file".toList], .textual, []⟩] },
    rfl, rfl, ?_⟩
  obtain ⟨-, hall, -, rs, hrs, -, -, -, -, -, hreach⟩ :=
    fold_accounts halfReplayGit "m".toList halfReplayBranches [] ⟨.rebase, [], "m".toList⟩ 0 2 _ rfl
  have hruns : (branchRuns halfReplayGit ⟨.rebase, [], "m".toList⟩ "m".toList
      halfReplayBranches).run 0 = .ok (halfReplayRuns, 2) := rfl
  rw [hruns] at hrs
  obtain rfl : halfReplayRuns = rs := by
    injection hrs with h
    exact congrArg Prod.fst h
  refine ⟨hall, ?_⟩
  exact hreach halfReplayPast halfReplay_named (by decide) _ (.head _) rfl _ (mem_singleton_self _)

end Thegn.Fold

import Thegn.Fold.Engine

set_option autoImplicit false

/-! # The fold, observed

To speak of the commits that a fold creates, git is observed: `FoldGit.traced` is git with a log of
the commits it made. `branchRuns` is the fold, branch by branch, with the running tip each branch
was folded against and the commits made for it; forgetting these gives the fold back
(`fold_eq_branchRuns`).
-/

namespace Thegn.Fold

open Text Effect

/-! ## Created commits -/

/-- A commit object that was created. -/
structure Commit where
  oid : Oid
  tree : Oid
  parents : List Oid
  message : Text
  author : Option Author
  deriving DecidableEq

section

variable {σ : Type}

/-- Git with a log of the commits created. -/
def FoldGit.traced (git : FoldGit σ) : FoldGit (σ × List Commit) where
  mergeTree ours theirs := quiet (git.mergeTree ours theirs)
  commitTree tree parents msg :=
    logged (fun oid => ⟨oid, tree, parents, msg, none⟩) (git.commitTree tree parents msg)
  mergeTreeBase base ours theirs := quiet (git.mergeTreeBase base ours theirs)
  commitTreeAuthor tree parents msg author :=
    logged (fun oid => ⟨oid, tree, parents, msg, some author⟩)
      (git.commitTreeAuthor tree parents msg author)
  mergeBase a b := quiet (git.mergeBase a b)
  commits base tip := quiet (git.commits base tip)

variable (git : FoldGit σ)

theorem traced_subjects (tip branchTip : Oid) :
    subjects git.traced tip branchTip = quiet (subjects git tip branchTip) := by
  unfold subjects
  simp only [quiet_bind, quiet_pure]
  rfl

theorem traced_landVars (tip : Oid) (b : Branch) (opts : LandOpts) (tmpl : Text) :
    landVars git.traced tip b opts tmpl = quiet (landVars git tip b opts tmpl) := by
  unfold landVars
  dsimp only
  split_ifs
  · simp only [quiet_bind, quiet_pure, traced_subjects]
  · rfl

/-- No commit is created to find the message. -/
theorem traced_landMessage (tip : Oid) (b : Branch) (opts : LandOpts) (squash : Bool) :
    landMessage git.traced tip b opts squash = quiet (landMessage git tip b opts squash) := by
  unfold landMessage
  dsimp only
  by_cases ht : trim opts.messageTemplate = []
  · rw [if_pos ht, if_pos ht]
    cases squash with
    | true => simp only [quiet_bind, quiet_pure, traced_subjects, if_true]
    | false => rfl
  · rw [if_neg ht, if_neg ht]
    simp only [quiet_bind, quiet_pure, traced_landVars]

theorem traced_commitTree (tree : Oid) (parents : List Oid) (msg : Text) :
    git.traced.commitTree tree parents msg
      = logged (fun oid => (⟨oid, tree, parents, msg, none⟩ : Commit))
          (git.commitTree tree parents msg) := rfl

theorem traced_commitTreeAuthor (tree : Oid) (parents : List Oid) (msg : Text) (author : Author) :
    git.traced.commitTreeAuthor tree parents msg author
      = logged (fun oid => (⟨oid, tree, parents, msg, some author⟩ : Commit))
          (git.commitTreeAuthor tree parents msg author) := rfl

/-! ## The log can be forgotten -/

theorem erases_replayFrom (walk : List CommitMeta) :
    ∀ running : Oid, Erases (replayFrom git.traced running walk) (replayFrom git running walk) := by
  induction walk with
  | nil => intro running; exact Erases.pure _
  | cons c walk ih =>
    intro running
    apply Erases.bind (Erases.quiet _)
    intro outcome
    cases outcome with
    | clean tree =>
      dsimp only
      rw [traced_commitTreeAuthor]
      apply Erases.bind (Erases.logged _ _)
      intro next
      exact ih next
    | conflict paths => exact Erases.pure _
    | submoduleConflict paths conflicts => exact Erases.pure _

theorem erases_rebaseReplay (tip : Oid) (b : Branch) :
    Erases (rebaseReplay git.traced tip b) (rebaseReplay git tip b) := by
  apply Erases.bind (Erases.quiet _)
  intro base
  cases base with
  | none => exact Erases.pure _
  | some base =>
    apply Erases.bind (Erases.quiet _)
    intro commits
    split_ifs
    · exact Erases.pure _
    · split
      · exact Erases.throw _
      · exact erases_replayFrom git commits tip

theorem erases_landMerged (tip : Oid) (b : Branch) (opts : LandOpts) (squash : Bool) :
    Erases (landMerged git.traced tip b opts squash) (landMerged git tip b opts squash) := by
  apply Erases.bind (Erases.quiet _)
  intro outcome
  cases outcome with
  | clean tree =>
    dsimp only
    rw [traced_landMessage]
    apply Erases.bind (Erases.quiet _)
    intro msg
    rw [traced_commitTree]
    apply Erases.bind (Erases.logged _ _)
    intro commit
    exact Erases.pure _
  | conflict paths => exact Erases.pure _
  | submoduleConflict paths conflicts => exact Erases.pure _

theorem erases_foldOne (tip : Oid) (b : Branch) (opts : LandOpts) :
    Erases (foldOne git.traced tip b opts) (foldOne git tip b opts) := by
  unfold foldOne
  cases opts.strategy with
  | merge => exact erases_landMerged git tip b opts false
  | squash => exact erases_landMerged git tip b opts true
  | rebase => exact erases_rebaseReplay git tip b

/-! ## The fold, branch by branch -/

/-- The running tip after a branch. -/
def One.tip (tip : Oid) : One → Oid
  | .landed commit => commit
  | _ => tip

def One.isLanded : One → Bool
  | .landed _ => true
  | _ => false

/-- What happened to one branch: the running tip it was folded against, the result, and the
commits created for it. -/
structure BranchRun where
  branch : Branch
  tip : Oid
  one : One
  commits : List Commit

/-- The fold with a record of every branch. -/
def branchRuns (opts : LandOpts) : Oid → List Branch → Eff σ Error (List BranchRun)
  | _, [] => return []
  | tip, b :: bs => do
      let p ← observe (foldOne git.traced tip b opts)
      let rest ← branchRuns opts (p.1.tip tip) bs
      return { branch := b, tip, one := p.1, commits := p.2 } :: rest

/-- The state of the fold after the recorded branches. -/
def recordAll (regeneratePaths : List Text) (st : FoldState) (rs : List BranchRun) : FoldState :=
  rs.foldl (fun st r => st.record regeneratePaths r.branch r.one) st

theorem record_tip (regeneratePaths : List Text) (st : FoldState) (b : Branch) (one : One) :
    (st.record regeneratePaths b one).tip = one.tip st.tip := by
  cases one <;> rfl

theorem foldlM_eq_branchRuns (regeneratePaths : List Text) (opts : LandOpts) (bs : List Branch) :
    ∀ st : FoldState, bs.foldlM (foldStep git regeneratePaths opts) st
      = (branchRuns git opts st.tip bs >>= fun rs => pure (recordAll regeneratePaths st rs)) := by
  induction bs with
  | nil => intro st; rfl
  | cons b bs ih =>
    intro st
    have hobs := observe_bind (erases_foldOne git st.tip b opts)
      (fun one => bs.foldlM (foldStep git regeneratePaths opts) (st.record regeneratePaths b one))
    rw [List.foldlM_cons, branchRuns, foldStep, bind_assoc, bind_assoc]
    simp only [pure_bind, bind_assoc]
    rw [← hobs]
    congr 1
    funext p
    rw [ih, record_tip]
    rfl

/-- **The fold is its recorded form**, with the record forgotten. -/
theorem fold_eq_branchRuns (startTip : Oid) (branches : List Branch) (regeneratePaths : List Text)
    (opts : LandOpts) :
    fold git startTip branches regeneratePaths opts
      = (branchRuns git opts startTip branches >>= fun rs =>
          let st := recordAll regeneratePaths { tip := startTip, landed := [], deferred := [] } rs
          pure { original := startTip, finalTip := st.tip, landed := st.landed,
                 deferred := st.deferred }) := by
  rw [fold, foldlM_eq_branchRuns, bind_assoc]
  rfl

end

end Thegn.Fold

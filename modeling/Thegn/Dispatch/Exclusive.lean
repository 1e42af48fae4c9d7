import Thegn.Dispatch.Capacity
import Thegn.Dispatch.Gate
import Thegn.Resume.Structure

set_option autoImplicit false

/-! # Admitted scopes stay exclusive

The roster stores the files of an admitted scope; what the scope lists under `overlaps` is known
only when it is admitted. So a run carries, beside the roster, the scope that each row was admitted
with, and a resumed row has the scope of its source.
-/

namespace Thegn.Dispatch

open Text Pipeline List Option

/-! ## Stored scopes -/

theorem decodeFiles_strings (files : List Text) : decodeFiles (files.map Json.str) = .ok files := by
  induction files with
  | nil => rfl
  | cons f files ih =>
    rw [map_cons, decodeFiles, ih]
    rfl

/-- A stored scope is read back. -/
theorem decode_encodeChunkScope (files : List Text) :
    decodeChunkScope (encodeChunkScope files) = .ok files := by
  unfold decodeChunkScope encodeChunkScope
  rw [Json.parse_render Resume.readable_escapeChar]
  exact decodeFiles_strings files

/-! ## Runs -/

/-- The roster, and the scope that each row was admitted with. -/
structure Ledger where
  db : Db
  scopes : Int → Option ChunkScope

/-- The scope that a call admits. -/
def Ledger.admits (s : Ledger) : DispatchCall → Option ChunkScope
  | .claim a _ => a.prepared.map (·.scope)
  | .resume a _ => s.scopes a.sourceId
  | _ => none

def Ledger.step (s : Ledger) (call : DispatchCall) : Ledger where
  db := (perform s.db call).2
  scopes :=
    if (perform s.db call).1 && call.new?.isSome then
      Function.update s.scopes (perform s.db call).2.lastId (s.admits call)
    else s.scopes

/-- No claim overrides the scope gate. -/
def Unforced : DispatchCall → Prop
  | .claim a _ => a.allowScope = none
  | _ => True

/-- The chunk name of a row. -/
def rowName (r : AgentDispatch) : Text := chunkName (r.chunkPath.getD [])

/-- The rows whose scopes the code does not compare with the one it admits: a claim without a chunk
path passes no gate, the gate passes over rows without a chunk path, and a resumption passes no gate
(its source is closed). -/
def Uncompared (r : AgentDispatch) : DispatchCall → Prop
  | .claim a _ => a.new.chunkPath = none ∨ trim (r.chunkPath.getD []) = []
  | .resume a _ => r.id ≠ a.sourceId
  | _ => False

/-- The two scopes have no path in common, or the later one lists the earlier row. -/
def Exclusive (r : AgentDispatch) (scope other : ChunkScope) : Prop :=
  rowName r ∈ scope.overlaps ∨ Apart scope.files other.files

/-- The scope that a call admits is exclusive of the active rows that the code does not compare it
with. -/
def Unopposed (s : Ledger) (call : DispatchCall) : Prop :=
  ∀ new scope, call.new? = some new → s.admits call = some scope →
    ∀ r ∈ s.db.rows, Uncompared r call →
    r.status.isActive = true → sameIssue r.issueId new.issueId = true →
      r.worktreePath = new.worktreePath →
    ∀ other, s.scopes r.id = some other → Exclusive r scope other

inductive LedgerRun (leases : Lease.Db) : Ledger → Prop
  | start : LedgerRun leases ⟨Db.empty leases, fun _ => none⟩
  | step {s : Ledger} (call : DispatchCall) : LedgerRun leases s → ExpectsActive call →
      Unforced call → Unopposed s call → LedgerRun leases (s.step call)

/-! ## The invariant -/

structure LedgerInv (db : Db) (scopes : Int → Option ChunkScope) : Prop where
  wellFormed : db.WellFormed
  stored : ∀ r ∈ db.rows, r.chunkScope = (scopes r.id).map fun scope => encodeChunkScope scope.files
  exclusive : ∀ r1 ∈ db.rows, ∀ r2 ∈ db.rows, r1.id < r2.id → r1.status.isActive = true →
    r2.status.isActive = true →
    sameIssue r1.issueId r2.issueId = true → r1.worktreePath = r2.worktreePath →
    ∀ other scope, scopes r1.id = some other → scopes r2.id = some scope → Exclusive r1 scope other

variable {db db' : Db} {scopes : Int → Option ChunkScope} {r r' x : AgentDispatch}

/-- A row after a change was there before, active if it is now, with the columns that the gate
reads. -/
theorem Changes.before (h : Changes db db' r r') (haged : Aged r r') {y : AgentDispatch}
    (hy : y ∈ db'.rows) :
    ∃ x ∈ db.rows, y.id = x.id ∧ SameScope x y ∧
    (y.status.isActive = true → x.status.isActive = true) := by
  rcases h.mem_cases hy with rfl | ⟨hold, -⟩
  · exact ⟨r, h.mem, h.sameId, haged.scope, haged.active⟩
  · exact ⟨y, hold, rfl, ⟨rfl, rfl, rfl, rfl⟩, id⟩

theorem SameScope.rowName (h : SameScope r r') : rowName r' = rowName r := by
  unfold Dispatch.rowName
  rw [h.2.2.1]

theorem LedgerInv.changes (hinv : LedgerInv db scopes) (h : Changes db db' r r')
    (haged : Aged r r') : LedgerInv db' scopes := by
  refine ⟨h.wellFormed hinv.wellFormed, fun y hy => ?_,
    fun y1 hy1 y2 hy2 hlt ha1 ha2 hissue hworktree other scope
    hother hscope => ?_⟩
  · obtain ⟨x, hx, hid, hsame, -⟩ := h.before haged hy
    rw [hid, hsame.2.2.2]
    exact hinv.stored x hx
  · obtain ⟨x1, hx1, hid1, hsame1, hact1⟩ := h.before haged hy1
    obtain ⟨x2, hx2, hid2, hsame2, hact2⟩ := h.before haged hy2
    rw [hid1, hid2] at hlt
    rw [hsame1.1, hsame2.1] at hissue
    rw [hsame1.2.1, hsame2.2.1] at hworktree
    have hex :=
      hinv.exclusive x1 hx1 x2 hx2 hlt (hact1 ha1) (hact2 ha2) hissue hworktree other scope
      (hid1 ▸ hother) (hid2 ▸ hscope)
    unfold Exclusive at hex ⊢
    rwa [hsame1.rowName]

/-- A row is inserted whose scope is exclusive of the active rows. -/
theorem LedgerInv.inserted (hinv : LedgerInv db scopes) {new : NewDispatch}
    {scope : Option ChunkScope} {id : Int}
    (h : Inserted db db' new (scope.map fun s => encodeChunkScope s.files) id x)
    (hex : ∀ s, scope = some s → ∀ r ∈ db.rows, r.status.isActive = true →
      sameIssue r.issueId new.issueId = true →
      r.worktreePath = new.worktreePath → ∀ other, scopes r.id = some other → Exclusive r s other) :
    LedgerInv db' (Function.update scopes db'.lastId scope) := by
  have hold : ∀ r ∈ db.rows, r.id < x.id := by
    intro r hr
    have hle := hinv.wellFormed.le_last r hr
    rw [h.appends.newId]
    omega
  have hcases : ∀ y ∈ db'.rows, y ∈ db.rows ∧ y.id < x.id ∧
    Function.update scopes db'.lastId scope y.id = scopes y.id ∨
      y = x ∧ Function.update scopes db'.lastId scope y.id = scope := by
    intro y hy
    rw [h.appends.rows] at hy
    rw [h.appends.lastId]
    rcases mem_append.mp hy with hy | hy
    · exact .inl ⟨hy, hold y hy, Function.update_of_ne (hold y hy).ne _ _⟩
    · rw [mem_singleton.mp hy]
      exact .inr ⟨rfl, Function.update_self _ _ _⟩
  refine ⟨h.appends.wellFormed hinv.wellFormed, fun y hy => ?_,
    fun y1 hy1 y2 hy2 hlt ha1 ha2 hissue hworktree other s
    hother hs => ?_⟩
  · rcases hcases y hy with ⟨hy, -, heq⟩ | ⟨rfl, heq⟩
    · rw [heq]
      exact hinv.stored y hy
    · rw [heq]
      exact h.scope
  · rcases hcases y1 hy1 with ⟨hy1, -, heq1⟩ | ⟨rfl, -⟩
    · rcases hcases y2 hy2 with ⟨hy2, -, heq2⟩ | ⟨rfl, heq2⟩
      · exact hinv.exclusive y1 hy1 y2 hy2 hlt ha1 ha2 hissue hworktree other s (heq1 ▸ hother)
          (heq2 ▸ hs)
      · rw [h.admitted.issueId] at hissue
        rw [h.admitted.worktreePath] at hworktree
        exact hex s (heq2 ▸ hs) y1 hy1 ha1 hissue hworktree other (heq1 ▸ hother)
    · -- nothing is inserted after the new row
      rcases hcases y2 hy2 with ⟨-, hlt2, -⟩ | ⟨rfl, -⟩
      · exact absurd hlt (lt_asymm hlt2)
      · exact absurd hlt (lt_irrefl _)

/-- The gate has compared the scope with every active row of the issue and worktree that has a chunk
path. -/
theorem gate_exclusive {a : ClaimArgs} {p : PreparedChunkAdmission} {path : Text}
    (hinv : LedgerInv db scopes) (hpath : a.new.chunkPath = some path) (hp : a.prepared = some p)
    (hgate : chunkGate a.new a.prepared false (admissionRows db a.new.issueId a.new.worktreePath) =
      .ok ())
    (hr : r ∈ db.rows) (hactive : r.status.isActive = true)
    (hissue : sameIssue r.issueId a.new.issueId = true)
    (hworktree : r.worktreePath = a.new.worktreePath) (hnamed : trim (r.chunkPath.getD []) ≠ [])
    {other : ChunkScope} (hother : scopes r.id = some other) : Exclusive r p.scope other := by
  have hscope : scopeGate a.new p (admissionRows db a.new.issueId a.new.worktreePath) = .ok () := by
    unfold chunkGate at hgate
    rw [hpath, hp] at hgate
    dsimp only at hgate
    rw [if_neg Bool.false_ne_true] at hgate
    split_ifs at hgate
    exact hgate
  obtain ⟨active, hread, hclear, -⟩ := (scopeGate_ok p).mp hscope
  have hmem : r ∈ admissionRows db a.new.issueId a.new.worktreePath := by
    unfold admissionRows rosterRows
    rw [mem_filter, mem_reverse, Rows.mem_sortOn, hactive, Bool.true_or]
    exact ⟨hr, rfl⟩
  cases hown : r.chunkPath with
  | none =>
    rw [hown] at hnamed
    exact absurd rfl hnamed
  | some own =>
    rw [hown, getD_some] at hnamed
    have hsibling : siblingPath a.new r = some own := by
      unfold siblingPath
      rw [hissue, hworktree, decide_eq_true rfl, Bool.and_true, if_pos rfl, hown, filter_some,
        if_pos (decide_eq_true hnamed)]
    obtain ⟨raw, files, hraw, hfiles, hactive⟩ := mem_activeSiblings hread hmem hsibling hactive
    have hstored := hinv.stored r hr
    rw [hother, hraw] at hstored
    rw [some_inj.mp hstored, decode_encodeChunkScope] at hfiles
    cases hfiles
    unfold Exclusive rowName
    rw [hown]
    exact conflicts_nil hclear _ hactive

/-- **One call keeps the invariant.** -/
theorem step_ledgerInv {s : Ledger} {call : DispatchCall} (hinv : LedgerInv s.db s.scopes)
    (hactive : ExpectsActive call)
    (hforce : Unforced call) (hcover : Unopposed s call) :
    LedgerInv (s.step call).db (s.step call).scopes := by
  have hout := perform_outcome hinv.wellFormed hactive
  unfold Ledger.step
  dsimp only
  generalize (perform s.db call).1 = accepted at hout ⊢
  generalize (perform s.db call).2 = db' at hout ⊢
  cases hout with
  | refused => exact hinv
  | leases leases hcall =>
    rw [hcall]
    exact ⟨⟨hinv.wellFormed.nodup, hinv.wellFormed.le_last⟩, hinv.stored, hinv.exclusive⟩
  | changed r r' _ hcall hch hr' =>
    rw [hcall]
    exact hinv.changes hch hr'
  | claimed a now id x _ hcall hgrant hx =>
    subst hcall
    have hmap : (a.prepared.map fun p => encodeChunkScope p.scope.files)
        = (a.prepared.map (·.scope)).map fun scope => encodeChunkScope scope.files := by
      rw [Option.map_map]
      rfl
    rw [hmap] at hx
    refine hinv.inserted hx (fun scope hscope r hr hact hissue hworktree other hother => ?_)
    obtain ⟨p, hp, rfl⟩ := map_eq_some_iff.mp hscope
    by_cases hskipped : Uncompared r (.claim a now)
    · exact hcover a.new p.scope rfl hscope r hr hskipped hact hissue hworktree other hother
    · obtain ⟨hchunk, hnamed⟩ := not_or.mp hskipped
      obtain ⟨path, hpath⟩ := ne_none_iff_exists'.mp hchunk
      have hgate := (admission_granted hgrant).1
      have hunforced : a.allowScope = none := hforce
      rw [hunforced] at hgate
      exact gate_exclusive hinv hpath hp hgate hr hact hissue hworktree hnamed hother
  | resumed a now id source x db1 _ hcall hsource hclosed hgrant hx =>
    subst hcall
    obtain ⟨hmem, hid⟩ := Db.mem_of_getDispatch hsource
    have hstored := hinv.stored source hmem
    rw [hid] at hstored
    rw [hstored] at hx
    have hclosedInv : LedgerInv db1 s.scopes := by
      rcases hclosed with ⟨hact, hch⟩ | ⟨-, rfl⟩
      · exact hinv.changes hch (aged_of_active hact rfl ⟨rfl, rfl, rfl, rfl⟩)
      · exact hinv
    refine hclosedInv.inserted hx (fun scope hscope r hr hact hissue hworktree other hother => ?_)
    have hbefore : r ∈ s.db.rows ∧ r.id ≠ a.sourceId := by
      rcases hclosed with ⟨-, hch⟩ | ⟨hterminal, rfl⟩
      · rcases hch.mem_cases hr with rfl | ⟨hold, hne⟩
        · cases hact
        · exact ⟨hold, hid ▸ hne⟩
      · refine ⟨hr, fun heq => ?_⟩
        rw [Rows.eq_of_key hinv.wellFormed.nodup hr hmem (heq.trans hid.symm), hterminal] at hact
        cases hact
    exact hcover a.new scope rfl hscope r hbefore.1 hbefore.2 hact hissue hworktree other hother

theorem LedgerRun.inv {leases : Lease.Db} {s : Ledger} (h : LedgerRun leases s) :
    LedgerInv s.db s.scopes := by
  induction h with
  | start =>
    exact ⟨Db.wellFormed_empty leases, fun _ hr => absurd hr not_mem_nil,
      fun _ hr => absurd hr not_mem_nil⟩
  | step call _ hactive hforce hcover ih => exact step_ledgerInv ih hactive hforce hcover

/-- **Admitted scopes stay exclusive** in every run in which each scope that is admitted without a
comparison is exclusive of the active rows it was not compared with. -/
theorem scopes_stay_exclusive {leases : Lease.Db} {s : Ledger} (h : LedgerRun leases s)
    {r1 r2 : AgentDispatch}
    (hr1 : r1 ∈ s.db.rows) (hr2 : r2 ∈ s.db.rows) (hlater : r1.id < r2.id)
    (ha1 : r1.status.isActive = true)
    (ha2 : r2.status.isActive = true) (hissue : sameIssue r1.issueId r2.issueId = true)
    (hworktree : r1.worktreePath = r2.worktreePath) {raw1 raw2 : Text}
    (hraw1 : r1.chunkScope = some raw1) (hraw2 : r2.chunkScope = some raw2) :
    ∃ files1 scope2, decodeChunkScope raw1 = .ok files1 ∧ s.scopes r2.id = some scope2 ∧
      decodeChunkScope raw2 = .ok scope2.files ∧
      (rowName r1 ∈ scope2.overlaps ∨ Apart scope2.files files1) := by
  have hinv := h.inv
  have hstored1 := hinv.stored r1 hr1
  have hstored2 := hinv.stored r2 hr2
  rw [hraw1] at hstored1
  rw [hraw2] at hstored2
  obtain ⟨scope1, hscope1, rfl⟩ := map_eq_some_iff.mp hstored1.symm
  obtain ⟨scope2, hscope2, rfl⟩ := map_eq_some_iff.mp hstored2.symm
  exact ⟨scope1.files, scope2, decode_encodeChunkScope _, hscope2, decode_encodeChunkScope _,
    hinv.exclusive r1 hr1 r2 hr2 hlater ha1 ha2 hissue hworktree scope1 scope2 hscope1 hscope2⟩

/-! Chunk `p` is claimed; after it failed, chunk `q` is claimed over the same file; and then the
work of `p` is resumed. -/

def chunkRow (path : Text) : NewDispatch :=
  ⟨['X'], ['w'], ['a'], some ['s'], none, none, none, some path⟩

/-- A claim of the chunk at the path, with the file `f`. -/
def chunkClaim (path : Text) (overlaps : List Text) : ClaimArgs where
  new := chunkRow path
  limit := 5
  allowDuplicate := none
  prepared := some ⟨path, ⟨[['f']], overlaps, []⟩⟩
  allowScope := none
  proof := .unbound

def noLedger : Ledger := ⟨Db.empty ⟨∅, some 0⟩, fun _ => none⟩

/-- The chunk `p` is claimed. -/
def pClaimed : Ledger := noLedger.step (.claim (chunkClaim ['p'] []) 0)

/-- The chunk `q` is claimed beside it, with its blessing. -/
def sharedFile : Ledger := pClaimed.step (.claim (chunkClaim ['q'] [['p']]) 0)

/-- A claim with a chunk path, while every row has one. -/
theorem unopposed_claim {s : Ledger} {a : ClaimArgs} {now : Int} {path : Text}
    (hpath : a.new.chunkPath = some path)
    (hnamed : ∀ r ∈ s.db.rows, trim (r.chunkPath.getD []) ≠ []) : Unopposed s (.claim a now) := by
  intro new scope _ _ r hr hskipped
  rcases hskipped with hnone | hblank
  · rw [hpath] at hnone
    cases hnone
  · exact absurd hblank (hnamed r hr)

theorem scopes_stay_exclusive_sample :
    sharedFile.db.rows.length = 2 ∧
      ∀ r1 ∈ sharedFile.db.rows, ∀ r2 ∈ sharedFile.db.rows, r1.id < r2.id →
        ∃ files1 scope2, decodeChunkScope (encodeChunkScope [['f']]) = .ok files1 ∧
          sharedFile.scopes r2.id = some scope2 ∧
          (rowName r1 ∈ scope2.overlaps ∨ Apart scope2.files files1) := by
  have hrun : LedgerRun ⟨∅, some 0⟩ sharedFile := by
    refine .step _ (.step _ .start trivial rfl (unopposed_claim rfl ?_)) trivial rfl
      (unopposed_claim rfl ?_)
    · exact fun r hr => absurd hr not_mem_nil
    · decide +kernel
  have hrows : ∀ r ∈ sharedFile.db.rows, r.status.isActive = true ∧ r.issueId = ['X'] ∧
    r.worktreePath = ['w'] ∧ r.chunkScope = some (encodeChunkScope [['f']]) := by
    decide +kernel
  refine ⟨by decide +kernel, fun r1 hr1 r2 hr2 hlt => ?_⟩
  obtain ⟨ha1, hi1, hw1, hs1⟩ := hrows r1 hr1
  obtain ⟨ha2, hi2, hw2, hs2⟩ := hrows r2 hr2
  have hissue : sameIssue r1.issueId r2.issueId = true := by
    rw [hi1, hi2]
    exact sameIssue_refl _
  obtain ⟨files1, scope2, hfiles, hscope, -, hex⟩ :=
    scopes_stay_exclusive hrun hr1 hr2 hlt ha1 ha2 hissue (hw1.trans hw2.symm) hs1 hs2
  exact ⟨files1, scope2, hfiles, hscope, hex⟩

/-- The resumption of the row 1, which failed. -/
def resumeP : ResumeArgs where
  new := chunkRow ['p']
  limit := 5
  sourceId := 1
  expected := .failed
  proof := .unbound

/-- The chunk `p` failed, and the chunk `q` is claimed. -/
def qClaimed : Ledger :=
  (pClaimed.step (.setStatus 1 .queued .failed none .unbound 1)).step
    (.claim (chunkClaim ['q'] []) 2)

/-- What the resumption of a terminal row does when it is granted. -/
theorem resumeBody_terminal {a : ResumeArgs} {now : Int} {source : AgentDispatch}
    {audit : Option Text}
    (hsource : db.getDispatch a.sourceId = some source) (hlease : source.leadLease = none)
    (hlead : leadCheck db (activeBoundLeases db a.new.issueId) a.proof now = .ok audit)
    (hstatus : source.status = a.expected) (hterminal : source.status.isActive = false)
    (hparent : a.new.parentId = none)
    (hgrant : decideClaim (admissionRows db a.new.issueId a.new.worktreePath) a.new.request
      a.limit = .grant) :
    resumeBody a now db
      = (admitRow db a.new a.proof audit source.chunkScope now).map fun inserted =>
        (.ok inserted.1, inserted.2) := by
  have hclose : closeSource db source a.expected now = .ok db := by
    unfold closeSource
    rw [hterminal]
    rfl
  unfold resumeBody
  rw [hsource]
  dsimp only
  rw [hlease]
  dsimp only
  rw [hlead, hparent]
  simp only [bind, Except.bind, hstatus, ne_eq, not_true_eq_false, if_false, filter_none,
    checkParent, hclose, hgrant, ClaimDecision.granted, if_true, pure, Except.pure]
  cases admitRow db a.new a.proof audit source.chunkScope now <;> rfl

/-- The two active rows own the same file, and neither scope lists the other row. -/
theorem resumed_scope_overlaps :
    ((qClaimed.step (.resume resumeP 3)).db.rows.map fun r =>
      (r.id, r.status.isActive, r.chunkScope))
        = [(1, false, some (encodeChunkScope [['f']])), (2, true, some (encodeChunkScope [['f']])),
          (3, true, some (encodeChunkScope [['f']]))] ∧
      (∀ r ∈ (qClaimed.step (.resume resumeP 3)).db.rows, r.issueId = ['X'] ∧
        r.worktreePath = ['w']) ∧
      ((qClaimed.step (.resume resumeP 3)).scopes 3).map (·.overlaps) = some [] ∧
      ¬ Apart [['f']] [['f']] := by
  have hroster : rosterRows qClaimed.db = qClaimed.db.rows.reverse := by
    unfold rosterRows
    rw [Rows.sortOn_of_ascending]
    unfold Rows.Ascending
    decide +kernel
  have hgrant : decideClaim (admissionRows qClaimed.db ['X'] ['w']) (chunkRow ['p']).request 5 =
    .grant := by
    unfold admissionRows
    rw [hroster]
    decide +kernel
  have hlead : leadCheck qClaimed.db (activeBoundLeases qClaimed.db ['X']) .unbound 3 =
    .ok none := by decide +kernel
  have hsource : qClaimed.db.getDispatch 1 =
    some ((qClaimed.db.getDispatch 1).get (by decide +kernel)) := (some_get _).symm
  have hbody : resumeBody resumeP 3 qClaimed.db = _ :=
    resumeBody_terminal hsource (by decide +kernel) hlead (by decide +kernel) (by decide +kernel)
      rfl hgrant
  refine ⟨?_, ?_, ?_, fun hapart => ?_⟩
  · simp only [Ledger.step, perform, claimResumeDispatchLed, transact, hbody]
    decide +kernel
  · simp only [Ledger.step, perform, claimResumeDispatchLed, transact, hbody]
    decide +kernel
  · simp only [Ledger.step, perform, claimResumeDispatchLed, transact, hbody]
    decide +kernel
  · refine hapart ['f'] (mem_singleton.mpr rfl) ['f'] (mem_singleton.mpr rfl) ?_
    have hsegment : [102] ∈ segmentLanguage ['f'] := .one rfl .nil
    have htoken : pathToken ['f'] = .one (segmentLanguage ['f']) := if_neg (by decide)
    have hown : [102] ∈ language ['f'] := by
      change Wildcard.Accepts isSegment [pathToken ['f']] [[102]]
      rw [htoken]
      exact .one hsegment .nil
    exact ⟨[102], hown, [102], hown, rfl⟩

end Thegn.Dispatch

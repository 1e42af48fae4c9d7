import Thegn.Lease.Store

set_option autoImplicit false

/-! # Stale leaders are fenced

Owners and leaders call the operations in any order. A transaction commits at a time of a clock that
does not go back; the reading of the clock by which it decides may be older. The log notes what
happened to the leases and is ghost state, as is the clock.
-/

namespace Thegn.Lease

open Text Table List

/-- What happened to the lease `name`. -/
inductive Mark
  | granted (name owner : Text) (generation : Int)
  | removed (name : Text)
  | sawExpired (name : Text) (now : Int)
  deriving DecidableEq

/-- The database, with the rows that guarded operations change, and the log, the last mark first. -/
structure State (R : Type) where
  db : Db
  rows : R
  clock : Int
  log : List Mark

inductive Call (R : Type)
  | acquire (name owner : Text) (ttlSecs now : Int)
  | renew (name owner : Text) (ttlSecs now : Int)
  | releaseRow (name owner : Text)
  | release (name owner : Text)
  | holder (name : Text) (now : Int)
  | guarded (bound : List Text) (proof : LeadProof) (now : Int) (change : R → R)

variable {R : Type}

/-- The owner that calls. -/
def Call.owner : Call R → Option Text
  | .acquire _ owner _ _ => some owner
  | .renew _ owner _ _ => some owner
  | .releaseRow _ owner => some owner
  | .release _ owner => some owner
  | .holder _ _ => none
  | .guarded _ _ _ _ => none

/-- The reading of the clock is not later than `clock`. -/
def Call.readBy (clock : Int) : Call R → Prop
  | .acquire _ _ _ now => now ≤ clock
  | .renew _ _ _ now => now ≤ clock
  | .holder _ now => now ≤ clock
  | .guarded _ _ now _ => now ≤ clock
  | .releaseRow _ _ => True
  | .release _ _ => True

/-- The lease whose row a call reads, with its reading of the clock; none if it is refused
before. -/
def Call.reads : Call R → Option (Text × Int)
  | .acquire name owner ttl now => (leaseExpiry name owner ttl now).toOption.map fun _ =>
    (name, now)
  | .renew name owner ttl now => (leaseExpiry name owner ttl now).toOption.map fun _ => (name, now)
  | .releaseRow _ _ => none
  | .release _ _ => none
  | .holder name now => (validateLeaseText "name".toList name).toOption.map fun _ => (name, now)
  | .guarded bound (.lease name owner) now _ =>
    (leaseProofArgs bound name owner none).toOption.map fun _ => (name, now)
  | .guarded bound (.fenced name owner g) now _ =>
    (leaseProofArgs bound name owner (some g)).toOption.map fun _ => (name, now)
  | .guarded _ .unbound _ _ => none
  | .guarded _ (.admin _) _ _ => none

/-- A lease that the call finds expired. -/
def sawMarks (db : Db) (call : Call R) : List Mark :=
  match call.reads with
  | some (name, now) =>
    match db.leases.lookup name with
    | some row => if row.expiresAtMs ≤ now then [.sawExpired name now] else []
    | none => []
  | none => []

/-- The leases that are gone. -/
def removedMarks (db db' : Db) : List Mark :=
  (db.leases.keys.filter fun name => name ∉ db'.leases.keys).map .removed

/-- The database and the other rows after a call, and the generation it handed out. -/
def effect (s : State R) : Call R → Db × R × List Mark
  | .acquire name owner ttl now =>
    match acquirePipelineLeaseFenced s.db name owner ttl now with
    | .ok (.ok generation, db) => (db, s.rows, [.granted name owner generation])
    | .ok (.error _, db) => (db, s.rows, [])
    | .error _ => (s.db, s.rows, [])
  | .renew name owner ttl now =>
    match renewPipelineLease s.db name owner ttl now with
    | .ok (_, db) => (db, s.rows, [])
    | .error _ => (s.db, s.rows, [])
  | .releaseRow name owner =>
    match releasePipelineLeaseRow s.db name owner with
    | .ok (_, db) => (db, s.rows, [])
    | .error _ => (s.db, s.rows, [])
  | .release name owner =>
    match releasePipelineLease s.db name owner with
    | .ok (_, db) => (db, s.rows, [])
    | .error _ => (s.db, s.rows, [])
  | .holder _ _ => (s.db, s.rows, [])
  | .guarded bound proof now change =>
    match leadCheck s.db bound proof now with
    | .ok _ => (s.db, change s.rows, [])
    | .error _ => (s.db, s.rows, [])

/-- A call that commits at `clock`. -/
def step (s : State R) (clock : Int) (call : Call R) : State R :=
  let (db, rows, granted) := effect s call
  { db, rows, clock, log := granted ++ (removedMarks s.db db ++ (sawMarks s.db call ++ s.log)) }

/-- The marks since the last generation of the lease was handed out. -/
def sinceGrant (name : Text) (log : List Mark) : List Mark :=
  log.takeWhile fun
    | .granted n _ _ => decide (n ≠ name)
    | _ => true

/-- The owner of a lease that finds it live has a reading of the clock that is not older than one at
which the lease was found expired. -/
def Timely (s : State R) : Call R → Prop
  | .acquire name owner _ now =>
    ∀ row ∈ s.db.leases.lookup name, row.owner = owner → now < row.expiresAtMs →
      ∀ t, .sawExpired name t ∈ sinceGrant name s.log → t ≤ now
  | .renew name owner _ now =>
    ∀ row ∈ s.db.leases.lookup name, row.owner = owner → now < row.expiresAtMs →
      ∀ t, .sawExpired name t ∈ sinceGrant name s.log → t ≤ now
  | _ => True

/-- A database as the migration leaves it: older leases have generation zero. -/
def Fresh (db : Db) : Prop :=
  db.lastGeneration = some 0 ∧ ∀ name row, db.leases.lookup name = some row → row.generation = 0

inductive Reach : State R → Prop
  | start (db : Db) (rows : R) (clock : Int) : Fresh db → Reach ⟨db, rows, clock, []⟩
  | step {s : State R} (clock : Int) (call : Call R) : Reach s → s.clock ≤ clock →
      call.readBy clock → Timely s call → Reach (step s clock call)

/-! ## What a call does to the leases -/

/-- Everything that a call can do to the leases, with the generation it hands out. -/
inductive Outcome (db : Db) (call : Call R) : Db → List Mark → Prop
  | kept : Outcome db call db []
  | again (name owner : Text) (ttl now expires : Int) (row : Lease)
      (hcall : call = .acquire name owner ttl now)
      (hrow : db.leases.lookup name = some row) (howner : row.owner = owner)
        (hlive : now < row.expiresAtMs)
      (hpos : 0 < row.generation) :
      Outcome db call
        { db with leases := (pruneExpired db.leases now name).insert name ⟨owner, now, expires,
          row.generation⟩ }
        [.granted name owner row.generation]
  | fresh (name owner : Text) (ttl now expires last : Int)
      (hcall : call = .acquire name owner ttl now)
      (hfree : ∀ row, db.leases.lookup name = some row → row.owner = owner ∨ row.expiresAtMs ≤ now)
      (hlast : db.lastGeneration = some last) :
      Outcome db call
        ⟨(pruneExpired db.leases now name).insert name ⟨owner, now, expires, last + 1⟩,
          some (last + 1)⟩
        [.granted name owner (last + 1)]
  | renewed (name owner : Text) (ttl now expires : Int) (row : Lease)
      (hcall : call = .renew name owner ttl now)
      (hrow : db.leases.lookup name = some row) (howner : row.owner = owner)
        (hlive : now < row.expiresAtMs) :
      Outcome db call
        { db with leases := db.leases.insert name { row with
          acquiredAtMs := now, expiresAtMs := expires } } []
  | released (name owner : Text) (row : Lease) (hcall : call.owner = some owner)
      (hrow : db.leases.lookup name = some row) (howner : row.owner = owner) :
      Outcome db call { db with leases := db.leases.erase name } []

theorem nextGeneration_ok {last : Option Int} {g : Int} (h : nextGeneration last = .ok g) :
    ∃ l, last = some l ∧ g = l + 1 := by
  unfold nextGeneration at h
  split at h
  · cases h
  · rename_i l
    split_ifs at h
    cases h
    exact ⟨l, rfl, rfl⟩

theorem acquire_outcome (db : Db) (name owner : Text) (ttl now : Int) {r : Except Text Int}
    {db' : Db} (h : acquirePipelineLeaseFenced db name owner ttl now = .ok (r, db')) :
    Outcome (R := R) db (.acquire name owner ttl now) db'
      (match r with
        | .ok g => [.granted name owner g]
        | .error _ => []) := by
  unfold acquirePipelineLeaseFenced at h
  cases hexp : leaseExpiry name owner ttl now with
  | error e =>
    rw [hexp] at h
    cases h
  | ok expires =>
    rw [hexp] at h
    simp only [bind, Except.bind, pure, Except.pure] at h
    cases hrow : db.leases.lookup name with
    | none =>
      rw [hrow] at h
      dsimp only at h
      cases hg : nextGeneration db.lastGeneration with
      | error e =>
        rw [hg] at h
        cases h
      | ok g =>
        obtain ⟨l, hl, rfl⟩ := nextGeneration_ok hg
        rw [hg] at h
        cases h
        exact .fresh name owner ttl now expires l rfl
          (fun row hr => by rw [hrow] at hr; cases hr) hl
    | some row =>
      rw [hrow] at h
      dsimp only at h
      split_ifs at h with hheld hlive
      · cases h
        exact .kept
      · simp only [Bool.and_eq_true, decide_eq_true_eq, not_and, not_not] at hheld hlive
        cases h
        exact .again name owner ttl now expires row rfl hrow (hheld hlive.1) hlive.1 hlive.2
      · cases hg : nextGeneration db.lastGeneration with
        | error e =>
          rw [hg] at h
          cases h
        | ok g =>
          obtain ⟨l, hl, rfl⟩ := nextGeneration_ok hg
          rw [hg] at h
          cases h
          refine .fresh name owner ttl now expires l rfl (fun row' hr => ?_) hl
          rw [hrow] at hr
          cases hr
          simp only [Bool.and_eq_true, decide_eq_true_eq, not_and, not_not] at hheld
          by_cases hnow : now < row.expiresAtMs
          · exact .inl (hheld hnow)
          · exact .inr (not_lt.mp hnow)

theorem renew_outcome (db : Db) (name owner : Text) (ttl now : Int)
    {r : Except (Option (Text × Int)) Int} {db' : Db}
    (h : renewPipelineLease db name owner ttl now = .ok (r, db')) :
    Outcome (R := R) db (.renew name owner ttl now) db' [] := by
  unfold renewPipelineLease at h
  cases hexp : leaseExpiry name owner ttl now with
  | error e =>
    rw [hexp] at h
    cases h
  | ok expires =>
    rw [hexp] at h
    simp only [bind, Except.bind, pure, Except.pure] at h
    cases hrow : db.leases.lookup name with
    | none =>
      rw [hrow] at h
      cases h
      exact .kept
    | some row =>
      rw [hrow] at h
      dsimp only at h
      split_ifs at h with hlive
      · simp only [Bool.and_eq_true, decide_eq_true_eq] at hlive
        cases h
        exact .renewed name owner ttl now expires row rfl hrow hlive.1 hlive.2
      · cases h
        exact .kept

theorem delete_outcome (db : Db) (call : Call R) (name owner : Text)
    (hcall : call.owner = some owner) :
    Outcome db call { db with
      leases := (deleteWhere db.leases name fun r => decide (r.owner = owner)).1 } [] := by
  unfold deleteWhere
  cases hrow : db.leases.lookup name with
  | none => exact .kept
  | some row =>
    dsimp only
    split_ifs with howner
    · exact .released name owner row hcall hrow (of_decide_eq_true howner)
    · exact .kept

theorem effect_outcome (s : State R) (call : Call R) :
    Outcome s.db call (effect s call).1 (effect s call).2.2 := by
  cases call with
  | acquire name owner ttl now =>
    simp only [effect]
    cases h : acquirePipelineLeaseFenced s.db name owner ttl now with
    | error e => exact .kept
    | ok p =>
      obtain ⟨r, db'⟩ := p
      have ho := acquire_outcome (R := R) s.db name owner ttl now h
      cases r <;> exact ho
  | renew name owner ttl now =>
    simp only [effect]
    cases h : renewPipelineLease s.db name owner ttl now with
    | error e => exact .kept
    | ok p => exact renew_outcome s.db name owner ttl now h
  | releaseRow name owner =>
    simp only [effect, releasePipelineLeaseRow]
    cases validateLeaseText "name".toList name with
    | error e => exact .kept
    | ok _ =>
      cases validateLeaseText "owner".toList owner with
      | error e => exact .kept
      | ok _ => exact delete_outcome s.db _ name owner rfl
  | release name owner =>
    simp only [effect, releasePipelineLease]
    cases validateLeaseText "name".toList name with
    | error e => exact .kept
    | ok _ =>
      cases validateLeaseText "owner".toList owner with
      | error e => exact .kept
      | ok _ => exact delete_outcome s.db _ name owner rfl
  | holder name now => exact .kept
  | guarded bound proof now change =>
    simp only [effect]
    cases leadCheck s.db bound proof now <;> exact .kept

/-! ## Pruning -/

theorem lookup_of_pruneExpired {l : Table Text Lease} {now : Int} {name key : Text} {row : Lease}
    (h : (pruneExpired l now name).lookup key = some row) : l.lookup key = some row := by
  have hmem := AList.mem_lookup_iff.mp (Option.mem_def.mpr h)
  exact Option.mem_def.mp (AList.mem_lookup_iff.mpr (mem_filter.mp hmem).1)

/-- A lease that is live at the reading is not pruned. -/
theorem lookup_pruneExpired {l : Table Text Lease} {now : Int} {name key : Text} {row : Lease}
    (h : l.lookup key = some row) (hlive : now < row.expiresAtMs) :
    (pruneExpired l now name).lookup key = some row := by
  have hmem := AList.mem_lookup_iff.mp (Option.mem_def.mpr h)
  refine Option.mem_def.mp (AList.mem_lookup_iff.mpr (mem_filter.mpr ⟨hmem, ?_⟩))
  rw [decide_eq_true_eq]
  intro hkey
  obtain ⟨e, he, rfl⟩ := mem_map.mp hkey
  have he' := mem_filter.mp (Rows.mem_sortOn.mp (mem_of_mem_take he))
  simp only [Bool.and_eq_true, decide_eq_true_eq] at he'
  have hrow := Option.mem_def.mp (AList.mem_lookup_iff.mpr he'.1)
  rw [h] at hrow
  cases hrow
  omega

/-! ## The log -/

/-- The generations of a lease never decrease, and increase when the holder changes or the lease was
removed or found expired in between. -/
def Ordered (log : List Mark) : Prop :=
  ∀ newer name owner g between owner' g' older,
    log = newer ++ .granted name owner g :: (between ++ .granted name owner' g' :: older) →
      g' ≤ g ∧ (owner' ≠ owner ∨ .removed name ∈ between ∨
        (∃ t, .sawExpired name t ∈ between) → g' < g)

/-- No generation is handed out in these marks. -/
def NoGrant (log : List Mark) : Prop := ∀ name owner g, .granted name owner g ∉ log

theorem Ordered.nil : Ordered [] := by
  intro newer name owner g between owner' g' older h
  simp at h

theorem Ordered.cons_other {m : Mark} {log : List Mark} (h : Ordered log) (hm : NoGrant [m]) :
    Ordered (m :: log) := by
  intro newer name owner g between owner' g' older hsplit
  cases newer with
  | nil =>
    rw [nil_append, List.cons.injEq] at hsplit
    exact absurd (mem_singleton.mpr hsplit.1.symm) (hm name owner g)
  | cons x newer =>
    rw [cons_append, List.cons.injEq] at hsplit
    exact h newer name owner g between owner' g' older hsplit.2

theorem Ordered.append {p log : List Mark} (h : Ordered log) (hp : NoGrant p) :
    Ordered (p ++ log) := by
  induction p with
  | nil => exact h
  | cons m p ih =>
    refine (ih fun n o g hmem => hp n o g (.tail _ hmem)).cons_other ?_
    intro n o g hmem
    exact hp n o g (mem_singleton.mp hmem ▸ (.head _))

theorem Ordered.cons_granted {log : List Mark} (h : Ordered log) {name owner : Text} {g : Int}
    (hg : ∀ between owner' g' older, log = between ++ .granted name owner' g' :: older →
      g' ≤ g ∧ (owner' ≠ owner ∨ .removed name ∈ between ∨ (∃ t, .sawExpired name t ∈ between) →
        g' < g)) :
    Ordered (.granted name owner g :: log) := by
  intro newer n o g1 between owner' g' older hsplit
  cases newer with
  | nil =>
    rw [nil_append, List.cons.injEq, Mark.granted.injEq] at hsplit
    obtain ⟨⟨rfl, rfl, rfl⟩, hlog⟩ := hsplit
    exact hg between owner' g' older hlog
  | cons x newer =>
    rw [cons_append, List.cons.injEq] at hsplit
    exact h newer n o g1 between owner' g' older hsplit.2

/-- Two places in a list, the first of which is before any of the kind of the second. -/
theorem split_cases {α : Type} {a b c d : List α} {x y : α} (h : a ++ x :: b = c ++ y :: d)
    (hy : y ∉ a) : (c = a ∧ y = x ∧ d = b) ∨ ∃ e, c = a ++ x :: e ∧ b = e ++ y :: d := by
  induction a generalizing c with
  | nil =>
    cases c with
    | nil =>
      rw [nil_append, nil_append, List.cons.injEq] at h
      exact .inl ⟨rfl, h.1.symm, h.2.symm⟩
    | cons z c =>
      rw [nil_append, cons_append, List.cons.injEq] at h
      exact .inr ⟨c, by rw [h.1, nil_append], h.2⟩
  | cons w a ih =>
    cases c with
    | nil =>
      rw [cons_append, nil_append, List.cons.injEq] at h
      exact absurd (h.1 ▸ (.head _)) hy
    | cons z c =>
      rw [cons_append, cons_append, List.cons.injEq] at h
      rcases ih h.2 (fun hm => hy (.tail _ hm)) with ⟨rfl, hx, hd⟩ | ⟨e, rfl, hb⟩
      · exact .inl ⟨by rw [h.1], hx, hd⟩
      · exact .inr ⟨e, by rw [h.1, cons_append], hb⟩

/-- Nothing was handed out of the lease in these marks, it was not removed, and where it was found
expired, the row had expired. -/
structure Quiet (name : Text) (row : Lease) (marks : List Mark) : Prop where
  grant : ∀ owner g, .granted name owner g ∉ marks
  removed : .removed name ∉ marks
  expired : ∀ t, .sawExpired name t ∈ marks → row.expiresAtMs ≤ t

theorem Quiet.append {name : Text} {row : Lease} {p a : List Mark} (hp : Quiet name row p)
    (ha : Quiet name row a) :
    Quiet name row (p ++ a) where
  grant := fun o g h => (mem_append.mp h).elim (hp.grant o g) (ha.grant o g)
  removed := fun h => (mem_append.mp h).elim hp.removed ha.removed
  expired := fun t h => (mem_append.mp h).elim (hp.expired t) (ha.expired t)

/-- The generation of the row is the last that was handed out of its lease. -/
def LastGrant (name : Text) (row : Lease) (log : List Mark) : Prop :=
  ∃ since before, log = since ++ .granted name row.owner row.generation :: before ∧
    Quiet name row since

theorem LastGrant.append {name : Text} {row : Lease} {p log : List Mark}
    (h : LastGrant name row log) (hp : Quiet name row p) : LastGrant name row (p ++ log) := by
  obtain ⟨a, b, rfl, ha⟩ := h
  exact ⟨p ++ a, b, by rw [append_assoc], hp.append ha⟩

theorem sinceGrant_eq {name owner : Text} {g : Int} {a b : List Mark}
    (ha : ∀ o g, .granted name o g ∉ a) :
    sinceGrant name (a ++ .granted name owner g :: b) = a := by
  unfold sinceGrant
  rw [takeWhile_append_of_pos, takeWhile_cons_of_neg, append_nil]
  · simp
  · intro m hm
    cases m with
    | granted n o g' =>
      rw [decide_eq_true_eq]
      rintro rfl
      exact ha o g' hm
    | removed n => rfl
    | sawExpired n t => rfl

/-- No generation of the lease before the last one is greater. -/
theorem LastGrant.le {name : Text} {row : Lease} {log : List Mark} (h : LastGrant name row log)
    (hord : Ordered log)
    {owner : Text} {g : Int} (hg : .granted name owner g ∈ log) : g ≤ row.generation := by
  obtain ⟨a, b, rfl, ha⟩ := h
  rcases mem_append.mp hg with hin | hin
  · exact absurd hin (ha.grant owner g)
  · rcases mem_cons.mp hin with heq | hin
    · cases heq
      exact le_rfl
    · obtain ⟨c, d, rfl⟩ := append_of_mem hin
      exact (hord a name row.owner row.generation c owner g d rfl).1

/-- A generation that is handed out again, with nothing noted of the lease since. -/
theorem Ordered.again {log since before : List Mark} (h : Ordered log) {name owner : Text} {g : Int}
    (hlog : log = since ++ .granted name owner g :: before)
    (hgrant : ∀ o g', .granted name o g' ∉ since)
    (hremoved : .removed name ∉ since) (hexpired : ∀ t, .sawExpired name t ∉ since) :
    Ordered (.granted name owner g :: log) := by
  refine h.cons_granted (fun between owner' g' older hsplit => ?_)
  rcases split_cases (hlog.symm.trans hsplit) (hgrant owner' g') with ⟨rfl, heq, -⟩ | ⟨e, rfl, hb⟩
  · cases heq
    refine ⟨le_rfl, ?_⟩
    rintro (hne | hmem | ⟨t, hmem⟩)
    · exact absurd rfl hne
    · exact absurd hmem hremoved
    · exact absurd hmem (hexpired t)
  · obtain ⟨hle, hlt⟩ := h since name owner g e owner' g' older (hlog.trans (by rw [hb]))
    have hin : ∀ m, m ∉ since → m ≠ .granted name owner g →
      m ∈ since ++ .granted name owner g :: e → m ∈ e := by
      intro m hs hne hm
      exact (mem_cons.mp ((mem_append.mp hm).resolve_left hs)).resolve_left hne
    refine ⟨hle, ?_⟩
    rintro (hne | hmem | ⟨t, hmem⟩)
    · exact hlt (.inl hne)
    · exact hlt (.inr (.inl (hin _ hremoved (by simp) hmem)))
    · exact hlt (.inr (.inr ⟨t, hin _ (hexpired t) (by simp) hmem⟩))

/-! ## The invariant -/

structure Inv (s : State R) : Prop where
  /-- The counter is not behind what was handed out. -/
  counter : ∃ last, s.db.lastGeneration = some last ∧ 0 ≤ last ∧
    ∀ name owner g, .granted name owner g ∈ s.log → g ≤ last
  last : ∀ name row, s.db.leases.lookup name = some row → 0 < row.generation →
    LastGrant name row s.log
  ordered : Ordered s.log

/-- The marks of a call that come before a generation it hands out. -/
def callMarks (db db' : Db) (call : Call R) : List Mark := removedMarks db db' ++ sawMarks db call

theorem mem_removedMarks {db db' : Db} {m : Mark} (h : m ∈ removedMarks db db') :
    ∃ name, m = .removed name ∧ db'.leases.lookup name = none := by
  obtain ⟨name, hname, rfl⟩ := mem_map.mp h
  refine ⟨name, rfl, ?_⟩
  have hn := (mem_filter.mp hname).2
  rw [decide_eq_true_eq] at hn
  exact AList.lookup_eq_none.mpr (fun hmem => hn (AList.mem_keys.mp hmem))

theorem mem_sawMarks {db : Db} {call : Call R} {m : Mark} (h : m ∈ sawMarks db call) :
    ∃ name now row, m = .sawExpired name now ∧ call.reads = some (name, now) ∧
    db.leases.lookup name = some row ∧ row.expiresAtMs ≤ now := by
  unfold sawMarks at h
  split at h
  · rename_i name now hreads
    split at h
    · rename_i row hrow
      split_ifs at h with hexp
      · exact ⟨name, now, row, mem_singleton.mp h, hreads, hrow, hexp⟩
      · cases h
    · cases h
  · cases h

theorem callMarks_noGrant (db db' : Db) (call : Call R) : NoGrant (callMarks db db' call) := by
  intro name owner g h
  rcases mem_append.mp h with h | h
  · obtain ⟨n, hn, -⟩ := mem_removedMarks h
    cases hn
  · obtain ⟨n, t, row, hn, -⟩ := mem_sawMarks h
    cases hn

theorem callMarks_not_removed {db' : Db} {name : Text} {row' : Lease}
    (hrow' : db'.leases.lookup name = some row') (db : Db) (call : Call R) :
    .removed name ∉ callMarks db db' call := by
  intro h
  rcases mem_append.mp h with h | h
  · obtain ⟨n, hn, hnone⟩ := mem_removedMarks h
    cases hn
    rw [hrow'] at hnone
    cases hnone
  · obtain ⟨n, t, r, hn, -⟩ := mem_sawMarks h
    cases hn

theorem sawMarks_of_callMarks {db db' : Db} {call : Call R} {name : Text} {t : Int}
    (h : .sawExpired name t ∈ callMarks db db' call) : .sawExpired name t ∈ sawMarks db call := by
  rcases mem_append.mp h with h | h
  · obtain ⟨n, hn, -⟩ := mem_removedMarks h
    cases hn
  · exact h

/-- A lease that is still there as it was is quiet in the marks of a call. -/
theorem callMarks_quiet {db db' : Db} {call : Call R} {name : Text} {row : Lease}
    (hrow : db.leases.lookup name = some row) (hrow' : db'.leases.lookup name = some row) :
    Quiet name row (callMarks db db' call) where
  grant := callMarks_noGrant db db' call name
  removed := callMarks_not_removed hrow' db call
  expired := by
    intro t h
    obtain ⟨n, t', r, hn, -, hr, hle⟩ := mem_sawMarks (sawMarks_of_callMarks h)
    cases hn
    rw [hrow] at hr
    cases hr
    exact hle

/-- A call that finds its lease live notes no expiry of it. -/
theorem sawMarks_of_live {db : Db} {call : Call R} {name : Text} {now : Int} {row : Lease}
    (hreads : ∀ n t, call.reads = some (n, t) → n = name ∧ t = now)
    (hrow : db.leases.lookup name = some row)
    (hlive : now < row.expiresAtMs) : sawMarks db call = [] := by
  refine eq_nil_iff_forall_not_mem.mpr (fun m hm => ?_)
  obtain ⟨n, t, r, -, hread, hr, hle⟩ := mem_sawMarks hm
  obtain ⟨rfl, rfl⟩ := hreads n t hread
  rw [hrow] at hr
  cases hr
  omega

theorem reads_acquire {name owner : Text} {ttl now : Int} {n : Text} {t : Int}
    (h : (Call.acquire name owner ttl now : Call R).reads = some (n, t)) : n = name ∧ t = now := by
  obtain ⟨e, -, he⟩ := Option.map_eq_some_iff.mp h
  cases he
  exact ⟨rfl, rfl⟩

theorem reads_renew {name owner : Text} {ttl now : Int} {n : Text} {t : Int}
    (h : (Call.renew name owner ttl now : Call R).reads = some (n, t)) : n = name ∧ t = now := by
  obtain ⟨e, -, he⟩ := Option.map_eq_some_iff.mp h
  cases he
  exact ⟨rfl, rfl⟩

/-- By a timely reading a lease that is live was never found expired since its generation was handed
out. -/
theorem LastGrant.no_expiry {name : Text} {row : Lease} {log since before : List Mark} {now : Int}
    (hlog : log = since ++ .granted name row.owner row.generation :: before)
    (hq : Quiet name row since)
    (hlive : now < row.expiresAtMs) (htimely : ∀ t, .sawExpired name t ∈ sinceGrant name log →
      t ≤ now) (t : Int) :
    .sawExpired name t ∉ since := by
  intro hmem
  rw [hlog, sinceGrant_eq hq.grant] at htimely
  have h1 := htimely t hmem
  have h2 := hq.expired t hmem
  omega

theorem step_log (s : State R) (clock : Int) (call : Call R) :
    (step s clock call).log = (effect s call).2.2 ++
      (callMarks s.db (effect s call).1 call ++ s.log) := by
  rw [callMarks, append_assoc]
  rfl

theorem Quiet.nil (name : Text) (row : Lease) : Quiet name row [] :=
  ⟨fun _ _ => not_mem_nil, not_mem_nil, fun _ h => absurd h not_mem_nil⟩

theorem Quiet.other {name n o : Text} {g : Int} (hne : name ≠ n) (row : Lease) :
    Quiet name row [.granted n o g] where
  grant := by
    intro o' g' h
    cases mem_singleton.mp h
    exact hne rfl
  removed := fun h => nomatch mem_singleton.mp h
  expired := fun t h => nomatch mem_singleton.mp h

/-- A row that the call leaves keeps its last generation. -/
theorem Inv.last_of_kept {s : State R} (hs : Inv s) {db' : Db} {call : Call R} {marks : List Mark}
    {name : Text}
    {row : Lease} (hrow : s.db.leases.lookup name = some row)
    (hrow' : db'.leases.lookup name = some row)
    (hpos : 0 < row.generation) (hmarks : Quiet name row marks) :
    LastGrant name row (marks ++ (callMarks s.db db' call ++ s.log)) :=
  ((hs.last name row hrow hpos).append (callMarks_quiet hrow hrow')).append hmarks

theorem Inv.step_last {s : State R} (hs : Inv s) {call : Call R} (ht : Timely s call) {db' : Db}
    {marks : List Mark}
    (ho : Outcome s.db call db' marks) {name : Text} {row' : Lease}
    (hrow' : db'.leases.lookup name = some row')
    (hpos : 0 < row'.generation) :
    LastGrant name row' (marks ++ (callMarks s.db db' call ++ s.log)) := by
  cases ho with
  | kept => exact hs.last_of_kept hrow' hrow' hpos (Quiet.nil name row')
  | again n owner ttl now expires row hcall hrow howner hlive hg =>
    by_cases hn : name = n
    · subst hn
      rw [AList.lookup_insert] at hrow'
      cases hrow'
      exact ⟨[], _, rfl, Quiet.nil _ _⟩
    · have hold : s.db.leases.lookup name = some row' := by
        rw [AList.lookup_insert_ne hn] at hrow'
        exact lookup_of_pruneExpired hrow'
      exact hs.last_of_kept hold hrow' hpos (Quiet.other hn row')
  | fresh n owner ttl now expires l hcall hfree hl =>
    by_cases hn : name = n
    · subst hn
      rw [AList.lookup_insert] at hrow'
      cases hrow'
      exact ⟨[], _, rfl, Quiet.nil _ _⟩
    · have hold : s.db.leases.lookup name = some row' := by
        rw [AList.lookup_insert_ne hn] at hrow'
        exact lookup_of_pruneExpired hrow'
      exact hs.last_of_kept hold hrow' hpos (Quiet.other hn row')
  | renewed n owner ttl now expires row hcall hrow howner hlive =>
    subst hcall
    by_cases hn : name = n
    · subst hn
      have hsaw : sawMarks s.db (.renew name owner ttl now : Call R) = [] :=
        sawMarks_of_live (fun _ _ => reads_renew) hrow hlive
      have hremoved := callMarks_not_removed hrow' s.db (.renew name owner ttl now : Call R)
      rw [AList.lookup_insert] at hrow'
      cases hrow'
      obtain ⟨a, b, hlog, hq⟩ := hs.last name row hrow hpos
      have hno := LastGrant.no_expiry hlog hq hlive (ht row hrow howner hlive)
      have hlast : LastGrant name ⟨row.owner, now, expires, row.generation⟩ s.log :=
        ⟨a, b, hlog, hq.grant, hq.removed, fun t hmem => absurd hmem (hno t)⟩
      refine hlast.append ⟨callMarks_noGrant _ _ _ name, hremoved, fun t hmem => ?_⟩
      have hin := sawMarks_of_callMarks hmem
      rw [hsaw] at hin
      cases hin
    · have hold : s.db.leases.lookup name = some row' := by
        rwa [AList.lookup_insert_ne hn] at hrow'
      exact hs.last_of_kept hold hrow' hpos (Quiet.nil name row')
  | released n owner row hcall hrow howner =>
    by_cases hn : name = n
    · subst hn
      rw [AList.lookup_erase] at hrow'
      cases hrow'
    · have hold : s.db.leases.lookup name = some row' := by
        rwa [AList.lookup_erase_ne hn] at hrow'
      exact hs.last_of_kept hold hrow' hpos (Quiet.nil name row')

theorem Inv.step_ordered {s : State R} (hs : Inv s) {call : Call R} (ht : Timely s call) {db' : Db}
    {marks : List Mark} (ho : Outcome s.db call db' marks) :
    Ordered (marks ++ (callMarks s.db db' call ++ s.log)) := by
  have hord : Ordered (callMarks s.db db' call ++ s.log) :=
    hs.ordered.append (callMarks_noGrant _ _ _)
  cases ho with
  | kept => exact hord
  | renewed => exact hord
  | released => exact hord
  | fresh n owner ttl now expires l hcall hfree hl =>
    -- the counter is above every generation handed out
    refine hord.cons_granted (fun between owner' g' older hsplit => ?_)
    have hmem : Mark.granted n owner' g' ∈ s.log := by
      have h : Mark.granted n owner' g' ∈ between ++ .granted n owner' g' :: older := by simp
      rw [← hsplit] at h
      exact (mem_append.mp h).resolve_left (callMarks_noGrant _ _ _ _ _ _)
    obtain ⟨last, hlast, -, hle⟩ := hs.counter
    rw [hl] at hlast
    cases hlast
    have hlt := hle n owner' g' hmem
    exact ⟨by omega, fun _ => by omega⟩
  | again n owner ttl now expires row hcall hrow howner hlive hg =>
    subst howner
    -- the same generation was handed out last, and nothing happened to the lease since
    obtain ⟨a, b, hlog, hq⟩ := hs.last n row hrow hg
    have hno : ∀ t, .sawExpired n t ∉ a := by
      rw [hcall] at ht
      exact LastGrant.no_expiry hlog hq hlive (ht row hrow rfl hlive)
    have hsaw : sawMarks s.db call = [] := by
      rw [hcall]
      exact sawMarks_of_live (fun _ _ => reads_acquire) hrow hlive
    generalize hdb : ({ s.db with
      leases := (pruneExpired s.db.leases now n).insert n ⟨row.owner, now, expires,
        row.generation⟩ } : Db) = db'
      at hord ⊢
    have hrow' : db'.leases.lookup n = some ⟨row.owner, now, expires, row.generation⟩ := by
      rw [← hdb]
      exact AList.lookup_insert _
    have hlog' : callMarks s.db db' call ++ s.log
        = (callMarks s.db db' call ++ a) ++ .granted n row.owner row.generation :: b := by
      rw [hlog, append_assoc]
    refine hord.again hlog' (fun o g hmem => ?_) (fun hmem => ?_) (fun t hmem => ?_)
    · exact (mem_append.mp hmem).elim (callMarks_noGrant _ _ _ n o g) (hq.grant o g)
    · exact (mem_append.mp hmem).elim (callMarks_not_removed hrow' _ _) hq.removed
    · rcases mem_append.mp hmem with hmem | hmem
      · have hin := sawMarks_of_callMarks hmem
        rw [hsaw] at hin
        cases hin
      · exact hno t hmem

theorem Inv.step_counter {s : State R} (hs : Inv s) {call : Call R} {db' : Db} {marks : List Mark}
    (ho : Outcome s.db call db' marks) :
    ∃ last, db'.lastGeneration = some last ∧ 0 ≤ last ∧
      ∀ name owner g, .granted name owner g ∈ marks ++ (callMarks s.db db' call ++ s.log) →
      g ≤ last := by
  obtain ⟨last, hlast, hnonneg, hle⟩ := hs.counter
  have hold : ∀ name owner g, .granted name owner g ∈ callMarks s.db db' call ++ s.log →
    g ≤ last := by
    intro name owner g hmem
    exact hle name owner g ((mem_append.mp hmem).resolve_left (callMarks_noGrant _ _ _ _ _ _))
  cases ho with
  | kept => exact ⟨last, hlast, hnonneg, hold⟩
  | renewed => exact ⟨last, hlast, hnonneg, hold⟩
  | released => exact ⟨last, hlast, hnonneg, hold⟩
  | again n owner ttl now expires row hcall hrow howner hlive hg =>
    refine ⟨last, hlast, hnonneg, fun name owner g hmem => ?_⟩
    rcases mem_cons.mp hmem with heq | hmem
    · cases heq
      obtain ⟨a, b, hlog, -⟩ := hs.last n row hrow hg
      exact hle n row.owner row.generation (by rw [hlog]; simp)
    · exact hold name owner g hmem
  | fresh n owner ttl now expires l hcall hfree hl =>
    rw [hl] at hlast
    cases hlast
    refine ⟨last + 1, rfl, by omega, fun name owner g hmem => ?_⟩
    rcases mem_cons.mp hmem with heq | hmem
    · cases heq
      exact le_rfl
    · have hlt := hold name owner g hmem
      omega

theorem Inv.step {s : State R} (hs : Inv s) (clock : Int) {call : Call R} (ht : Timely s call) :
    Inv (step s clock call) := by
  have ho := effect_outcome s call
  refine ⟨?_, ?_, ?_⟩
  · rw [step_log]
    exact hs.step_counter ho
  · intro name row hrow hpos
    rw [step_log]
    exact hs.step_last ht ho hrow hpos
  · rw [step_log]
    exact hs.step_ordered ht ho

theorem Reach.inv {s : State R} (h : Reach s) : Inv s := by
  induction h with
  | start db rows clock hfresh =>
    refine ⟨⟨0, hfresh.1, le_rfl, fun _ _ _ h => absurd h not_mem_nil⟩,
      fun name row hrow hpos => ?_, Ordered.nil⟩
    rw [hfresh.2 name row hrow] at hpos
    exact absurd hpos (lt_irrefl 0)
  | step clock call _ _ _ ht ih => exact ih.step clock ht

/-! ## Live leases and stale leaders -/

/-- A lease that is live when a call of somebody else commits is left as it is. -/
theorem live_lease_kept (s : State R) {clock : Int} {call : Call R} (hread : call.readBy clock)
    {name : Text}
    {row : Lease} (hrow : s.db.leases.lookup name = some row) (hlive : clock < row.expiresAtMs)
    (hother : call.owner ≠ some row.owner) :
    (step s clock call).db.leases.lookup name = some row := by
  have ho := effect_outcome s call
  change (effect s call).1.leases.lookup name = some row
  generalize (effect s call).1 = db', (effect s call).2.2 = marks at ho ⊢
  cases ho with
  | kept => exact hrow
  | again n owner ttl now expires r hcall hr howner =>
    subst hcall
    have hnow : now ≤ clock := hread
    by_cases hn : name = n
    · subst hn
      rw [hrow] at hr
      cases hr
      exact absurd (congrArg some howner).symm hother
    · rw [AList.lookup_insert_ne hn]
      exact lookup_pruneExpired hrow (by omega)
  | fresh n owner ttl now expires l hcall hfree =>
    subst hcall
    have hnow : now ≤ clock := hread
    by_cases hn : name = n
    · subst hn
      rcases hfree row hrow with howner | hexp
      · exact absurd (congrArg some howner).symm hother
      · omega
    · rw [AList.lookup_insert_ne hn]
      exact lookup_pruneExpired hrow (by omega)
  | renewed n owner ttl now expires r hcall hr howner =>
    subst hcall
    by_cases hn : name = n
    · subst hn
      rw [hrow] at hr
      cases hr
      exact absurd (congrArg some howner).symm hother
    · rwa [AList.lookup_insert_ne hn]
  | released n owner r hcall hr howner =>
    by_cases hn : name = n
    · subst hn
      rw [hrow] at hr
      cases hr
      exact absurd (hcall.trans (congrArg some howner).symm) hother
    · rwa [AList.lookup_erase_ne hn]

theorem leaseProofArgs_pos {bound : List Text} {name owner : Text} {g : Int} {u : Unit}
    (h : leaseProofArgs bound name owner (some g) = .ok u) : 0 < g := by
  by_contra hle
  have hany : (some g).any (· ≤ 0) = true := by simpa using hle
  unfold leaseProofArgs at h
  cases hname : validateLeaseText "name".toList name with
  | error e =>
    rw [hname] at h
    cases h
  | ok _ =>
    rw [hname] at h
    cases howner : validateLeaseText "owner".toList owner with
    | error e =>
      rw [howner] at h
      cases h
    | ok _ =>
      rw [howner, hany] at h
      cases h

theorem leaseProofCheck_fenced {db : Db} {bound : List Text} {name owner : Text} {g now : Int}
    {note : Option Text} (h : leaseProofCheck db bound name owner (some g) now = .ok note) :
    0 < g ∧ ∃ row, db.leases.lookup name = some row ∧ row.generation = g := by
  unfold leaseProofCheck at h
  cases hargs : leaseProofArgs bound name owner (some g) with
  | error e =>
    rw [hargs] at h
    cases h
  | ok u =>
    have hpos := leaseProofArgs_pos hargs
    rw [hargs] at h
    simp only [bind, Except.bind] at h
    cases hrow : db.leases.lookup name with
    | none =>
      rw [hrow] at h
      cases h
    | some row =>
      rw [hrow] at h
      dsimp only at h
      split_ifs at h with hheld hgen
      · exact ⟨hpos, row, rfl, (not_not.mp hgen).symm⟩

/-- A leader with a generation older than one that was handed out changes nothing. -/
theorem stale_leader_refused {s : State R} (hs : Inv s) {name owner owner' : Text} {g g' : Int}
    (hg : .granted name owner' g' ∈ s.log) (hlt : g < g') (clock : Int) (bound : List Text)
    (now : Int) (change : R → R) :
    (step s clock (.guarded bound (.fenced name owner g) now change)).rows = s.rows ∧
      (step s clock (.guarded bound (.fenced name owner g) now change)).db = s.db := by
  have hrefused : ∃ e, leadCheck s.db bound (.fenced name owner g) now = .error e := by
    cases h : leadCheck s.db bound (.fenced name owner g) now with
    | error e => exact ⟨e, rfl⟩
    | ok note =>
      obtain ⟨hpos, row, hrow, hgen⟩ := leaseProofCheck_fenced h
      have hle := (hs.last name row hrow (hgen ▸ hpos)).le hs.ordered hg
      omega
  obtain ⟨e, he⟩ := hrefused
  simp [step, effect, he]

/-- In a run with timely readings the generations of a lease are ordered, live leases are left alone
by everybody else, and leaders with an older generation change nothing. -/
theorem leases_fence_stale_leaders {s : State R} (h : Reach s) :
    Ordered s.log ∧
      (∀ clock call name row, s.clock ≤ clock → call.readBy clock →
        s.db.leases.lookup name = some row →
        clock < row.expiresAtMs → call.owner ≠ some row.owner →
        (step s clock call).db.leases.lookup name = some row) ∧
      ∀ name owner owner' g g' clock bound now change, .granted name owner' g' ∈ s.log → g < g' →
        (step s clock (.guarded bound (.fenced name owner g) now change)).rows = s.rows ∧
          (step s clock (.guarded bound (.fenced name owner g) now change)).db = s.db := by
  refine ⟨h.inv.ordered, ?_, ?_⟩
  · intro clock call name row _ hread hrow hlive hother
    exact live_lease_kept s hread hrow hlive hother
  · intro name owner owner' g g' clock bound now change hg hlt
    exact stale_leader_refused h.inv hg hlt clock bound now change

/-- The start of the sample runs. -/
def emptyState : State Nat := ⟨⟨∅, some 0⟩, 0, 0, []⟩

def sampleLease : Text := ['l']

/-- The lease after the first owner, and then the second, acquired it. -/
def takenOver : State Nat :=
  step (step emptyState 0 (.acquire sampleLease ['a'] 5 0)) 6000 (.acquire sampleLease ['b'] 5 6000)

theorem leases_fence_stale_leaders_sample :
    .granted sampleLease ['a'] 1 ∈ takenOver.log ∧ .granted sampleLease ['b'] 2 ∈ takenOver.log ∧
      (step takenOver 6000 (.guarded [sampleLease] (.fenced sampleLease ['a'] 1) 6000
        (· + 1))).rows = 0 := by
  have hfresh : Fresh emptyState.db := ⟨rfl, fun name row hrow => by simp [emptyState] at hrow⟩
  have h1 : Reach (step emptyState 0 (.acquire sampleLease ['a'] 5 0)) := by
    refine Reach.step 0 _ (.start _ _ _ hfresh) le_rfl le_rfl (fun row hrow => ?_)
    simp [emptyState] at hrow
  have h2 : Reach takenOver := by
    refine Reach.step 6000 _ h1 (by decide) le_rfl (fun row hrow howner => ?_)
    have hlook : (step emptyState 0 (.acquire sampleLease ['a'] 5 0)).db.leases.lookup sampleLease
        = some ⟨['a'], 0, 5000, 1⟩ := by decide
    rw [hlook] at hrow
    cases hrow
    cases howner
  have hb : .granted sampleLease ['b'] 2 ∈ takenOver.log := by decide
  obtain ⟨-, -, hstale⟩ := leases_fence_stale_leaders h2
  exact ⟨by decide, hb, (hstale _ ['a'] ['b'] 1 2 6000 _ 6000 (· + 1) hb (by decide)).1⟩

/-- The second acquisition of the owner read the clock before the lease expired; a renewal that read
it later had found the lease expired, and committed before. -/
def revived : State Nat :=
  step (step (step emptyState 0 (.acquire sampleLease ['a'] 5 0)) 5000
    (.renew sampleLease ['a'] 5 5000)) 5001
    (.acquire sampleLease ['a'] 5 4999)

theorem expired_generation_handed_out_again :
    revived.log = [.granted sampleLease ['a'] 1, .sawExpired sampleLease 5000,
      .granted sampleLease ['a'] 1] ∧ ¬ Ordered revived.log := by
  have hlog : revived.log
      = [.granted sampleLease ['a'] 1, .sawExpired sampleLease 5000,
        .granted sampleLease ['a'] 1] := by
    decide
  refine ⟨hlog, fun h => ?_⟩
  have hlt := (h [] sampleLease ['a'] 1 [.sawExpired sampleLease 5000] ['a'] 1 [] hlog).2
    (.inr (.inr ⟨5000, mem_singleton.mpr rfl⟩))
  omega

end Thegn.Lease

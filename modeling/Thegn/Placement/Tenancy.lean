import Thegn.Lib.Text
import Thegn.Lib.SqlInt

set_option autoImplicit false

/-! # The host tenancy ledger

`thegn-core/src/db_placement.rs`: which sandbox holds how much of which host. A reservation is made
by a guarded insert, after an older, released row of the sandbox is deleted. Brokers run the
statements in any order; each is atomic.
-/

namespace Thegn.Placement

open Text SqlInt
open List hiding sum

inductive TenancyMode
  | packed
  | dedicated
  deriving DecidableEq

inductive TenancyState
  | reserved
  | active
  | released
  deriving DecidableEq

structure ResourceReq where
  cpuFloorMilli : UInt32
  memFloorMb : UInt64
  cpuCeilingMilli : Option UInt32
  memCeilingMb : Option UInt64
  deriving DecidableEq

/-- What a reservation is asked for. -/
structure Ask where
  sandbox : Text
  host : Text
  worktree : Text
  zone : Text
  mode : TenancyMode
  req : ResourceReq
  deriving DecidableEq

/-- A row of `host_tenancy`. -/
structure TenancyRow where
  sandbox : Text
  host : Text
  worktree : Text
  zone : Text
  mode : TenancyMode
  cpuFloorMilli : Int
  memFloorMb : Int
  cpuCeilingMilli : Option Int
  memCeilingMb : Option Int
  state : TenancyState
  reservedAt : Int
  activatedAt : Option Int
  releasedAt : Option Int
  deriving DecidableEq

/-- `LIVE`. -/
def TenancyRow.live (r : TenancyRow) : Bool := r.state != .released

/-- The table, with at most one row for a sandbox. -/
structure Tenancies where
  rows : List TenancyRow
  key : (rows.map TenancyRow.sandbox).Nodup

def Tenancies.empty : Tenancies := { rows := [], key := nodup_nil }

/-! ## Statements -/

/-- `DELETE … WHERE cond`. -/
def Tenancies.deleteWhere (t : Tenancies) (cond : TenancyRow → Bool) : Tenancies :=
  { rows := t.rows.filter fun r => !cond r
    key := t.key.sublist (filter_sublist.map _) }

/-- `UPDATE … SET … WHERE cond`, of columns other than the key. -/
def Tenancies.updateWhere (t : Tenancies) (cond : TenancyRow → Bool) (f : TenancyRow → TenancyRow)
    (hf : ∀ r, (f r).sandbox = r.sandbox) : Tenancies :=
  { rows := t.rows.map fun r => if cond r then f r else r
    key := by
      have hsame : (t.rows.map fun r => if cond r then f r else r).map TenancyRow.sandbox =
          t.rows.map TenancyRow.sandbox := by
        rw [map_map]
        refine map_congr_left fun r _ => ?_
        simp only [Function.comp_apply]
        split_ifs
        · exact hf r
        · rfl
      rw [hsame]
      exact t.key }

/-- `INSERT … ON CONFLICT(sandbox) DO NOTHING`, with the number of rows inserted. -/
def Tenancies.insert (t : Tenancies) (r : TenancyRow) : Tenancies × Nat :=
  if h : r.sandbox ∈ t.rows.map TenancyRow.sandbox then (t, 0)
  else
    ({ rows := t.rows ++ [r]
       key := by
        rw [map_append, map_singleton]
        exact List.Nodup.append t.key (nodup_singleton _) (disjoint_singleton.mpr h) }, 1)

def Tenancies.liveOn (t : Tenancies) (host : Text) : List TenancyRow :=
  t.rows.filter fun r => r.host = host && r.live

/-- The row a reservation inserts. -/
def Ask.row (a : Ask) (now : Int) : TenancyRow :=
  { sandbox := a.sandbox, host := a.host, worktree := a.worktree, zone := a.zone, mode := a.mode
    cpuFloorMilli := a.req.cpuFloorMilli.toNat
    memFloorMb := asI64 a.req.memFloorMb
    cpuCeilingMilli := a.req.cpuCeilingMilli.map fun v => (v.toNat : Int)
    memCeilingMb := a.req.memCeilingMb.map asI64
    state := .reserved, reservedAt := now, activatedAt := none, releasedAt := none }

/-- Another live tenant of the host that the ask cannot share it with. -/
def Ask.conflicts (a : Ask) (r : TenancyRow) : Bool :=
  r.zone != a.zone || r.mode == .dedicated || a.mode == .dedicated

/-- `COALESCE(SUM(floor), 0) + ?floor <= ?ceiling`; the statement fails when the sum overflows. -/
def fitsColumn (floors : List Int) (floor : Int) (ceiling : UInt64) : Option Bool :=
  (sum floors).map fun total => decide (add total floor ≤ asI64 ceiling)

/-- The first statement of `tenancy_reserve`. -/
def deleteHusk (t : Tenancies) (a : Ask) : Tenancies :=
  t.deleteWhere fun r => r.sandbox = a.sandbox && !r.live

/-- The guarded insert of `tenancy_reserve`, with the number of rows inserted. -/
def guardedInsert (t : Tenancies) (a : Ask) (ceilings : UInt64 × UInt64) (now : Int) :
    Option (Tenancies × Nat) :=
  let tenants := t.liveOn a.host
  if tenants.any a.conflicts then some (t, 0)
  else
    match fitsColumn (tenants.map TenancyRow.cpuFloorMilli) a.req.cpuFloorMilli.toNat ceilings.1
      with
    | none => none
    | some false => some (t, 0)
    | some true =>
      match fitsColumn (tenants.map TenancyRow.memFloorMb) (asI64 a.req.memFloorMb) ceilings.2 with
      | none => none
      | some false => some (t, 0)
      | some true => some (t.insert (a.row now))

inductive ReserveOutcome
  | reserved
  | alreadyPlaced (host : Text)
  | noCapacity
  | zoneConflict
  | dedicatedConflict
  deriving DecidableEq

/-- Why the insert was refused, as far as the rows read after it tell. -/
def classify (a : Ask) (existing : Option TenancyRow) (tenants : List TenancyRow) :
    ReserveOutcome :=
  match existing.filter TenancyRow.live with
  | some r => .alreadyPlaced r.host
  | none =>
    if tenants.any fun r => r.mode == .dedicated || a.mode == .dedicated then .dedicatedConflict
    else if tenants.any fun r => r.zone != a.zone then .zoneConflict
    else .noCapacity

/-- The answer of `tenancy_reserve` to the number of rows inserted; the refusal reads the table at
two later moments. -/
def answer (a : Ask) (inserted : Nat) (later later' : Tenancies) : ReserveOutcome :=
  if inserted = 1 then .reserved
  else classify a (later.rows.find? fun r => r.sandbox = a.sandbox) (later'.liveOn a.host)

def activate (t : Tenancies) (sandbox : Text) (now : Int) : Tenancies :=
  t.updateWhere (fun r => r.sandbox = sandbox && r.state == .reserved)
    (fun r => { r with state := .active, activatedAt := some now }) fun _ => rfl

def release (t : Tenancies) (sandbox : Text) (now : Int) : Tenancies :=
  t.updateWhere (fun r => r.sandbox = sandbox && r.live)
    (fun r => { r with state := .released, releasedAt := some now }) fun _ => rfl

def rebind (t : Tenancies) (sandbox worktree : Text) : Tenancies :=
  t.updateWhere (fun r => r.sandbox = sandbox && r.live)
    (fun r => { r with worktree := worktree }) fun _ => rfl

def sweepStale (t : Tenancies) (before : Int) : Tenancies :=
  t.updateWhere (fun r => r.state == .reserved && decide (r.reservedAt < before))
    (fun r => { r with state := .released, releasedAt := some r.reservedAt }) fun _ => rfl

/-! ## Brokers -/

/-- A reservation of a broker whose husk is deleted and whose insert is still to come. -/
structure Pending where
  ask : Ask
  now : Int
  deriving DecidableEq

structure World where
  table : Tenancies
  pending : List Pending

def World.new : World := { table := .empty, pending := [] }

inductive Stmt
  | deleteHusk (p : Pending)
  | guardedInsert (i : Nat)
  | activate (sandbox : Text) (now : Int)
  | release (sandbox : Text) (now : Int)
  | rebind (sandbox worktree : Text)
  | sweepStale (before : Int)
  deriving DecidableEq

/-- One statement of one broker, with the ceilings of the hosts. -/
def World.step (ceilings : Text → UInt64 × UInt64) (w : World) : Stmt → Option World
  | .deleteHusk p =>
    some { table := Placement.deleteHusk w.table p.ask, pending := w.pending ++ [p] }
  | .guardedInsert i =>
    match w.pending[i]? with
    | none => none
    | some p =>
      some
        { table :=
            match Placement.guardedInsert w.table p.ask (ceilings p.ask.host) p.now with
            | some r => r.1
            | none => w.table
          pending := w.pending.eraseIdx i }
  | .activate sandbox now => some { w with table := Placement.activate w.table sandbox now }
  | .release sandbox now => some { w with table := Placement.release w.table sandbox now }
  | .rebind sandbox worktree => some { w with table := Placement.rebind w.table sandbox worktree }
  | .sweepStale before => some { w with table := Placement.sweepStale w.table before }

end Thegn.Placement

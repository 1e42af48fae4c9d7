import Thegn.Lib.Rows
import Thegn.Lib.SqlInt
import Thegn.Lib.Table
import Thegn.Lib.Utf8

set_option autoImplicit false

/-! # Lead leases

`thegn-core/src/db_dispatch.rs`: who leads a pipeline holds a named lease for some time. An
acquisition hands out a generation, from a counter that outlives the rows, and a guarded operation
presents the generation it was given (`leadCheck`). Every operation reads the clock, takes the write
lock and then decides by that reading; a failed one is rolled back.
-/

namespace Thegn.Lease

open Text Table

structure Lease where
  owner : Text
  acquiredAtMs : Int
  expiresAtMs : Int
  generation : Int
  deriving DecidableEq

/-- The leases by name, and the counter of the generations, whose row a migration adds. -/
structure Db where
  leases : Table Text Lease
  lastGeneration : Option Int

def minLeaseTtlSecs : Int := 5
def maxLeaseTtlSecs : Int := 86400

inductive LeaseError
  | input (field reason : Text)
  | fenceRowMissing
  /-- A generation that is no 64-bit integer any more. -/
  | columnType
  deriving DecidableEq

def validateLeaseText (field value : Text) : Except LeaseError Unit :=
  if trim value = [] then .error (.input field "must not be empty".toList)
  else if 128 < byteLen value then .error (.input field "must be at most 128 bytes".toList)
  else if value.any isControl
    then .error (.input field "must not contain control characters".toList)
  else .ok ()

/-- The checks of an acquisition or a renewal, which give the new expiry. -/
def leaseExpiry (name owner : Text) (ttlSecs now : Int) : Except LeaseError Int := do
  validateLeaseText "name".toList name
  validateLeaseText "owner".toList owner
  if ttlSecs < minLeaseTtlSecs || maxLeaseTtlSecs < ttlSecs then
    throw (.input "ttl".toList "outside the admitted lease TTL range".toList)
  if SqlInt.inRange (now + ttlSecs * 1000) then pure (now + ttlSecs * 1000)
  else throw (.input "ttl".toList "expiry is outside the supported timestamp range".toList)

/-- The names of the at most 256 leases, other than `name`, that expired first. -/
def expiredNames (leases : Table Text Lease) (now : Int) (name : Text) : List Text :=
  ((Rows.sortOn (fun e => e.2.expiresAtMs)
    (leases.entries.filter fun e => decide (e.2.expiresAtMs ≤ now) &&
      decide (e.1 ≠ name))).take 256).map (·.1)

def pruneExpired (leases : Table Text Lease) (now : Int) (name : Text) : Table Text Lease :=
  ⟨leases.entries.filter fun e => e.1 ∉ expiredNames leases now name,
    leases.nodupKeys.sublist List.filter_sublist⟩

/-- The next generation, with the counter after it. -/
def nextGeneration : Option Int → Except LeaseError Int
  | none => .error .fenceRowMissing
  | some last => if SqlInt.inRange (last + 1) then .ok (last + 1) else .error .columnType

/-- The generation handed out, or the owner who holds the lease. -/
def acquirePipelineLeaseFenced (db : Db) (name owner : Text) (ttlSecs now : Int) :
    Except LeaseError (Except Text Int × Db) := do
  let expires ← leaseExpiry name owner ttlSecs now
  match db.leases.lookup name with
  | some row =>
    if now < row.expiresAtMs && row.owner ≠ owner then pure (.error row.owner, db)
    else
      let leases := pruneExpired db.leases now name
      if now < row.expiresAtMs && 0 < row.generation then
        pure (.ok row.generation, { db with
          leases := leases.insert name ⟨owner, now, expires, row.generation⟩ })
      else
        let generation ← nextGeneration db.lastGeneration
        pure (.ok generation, ⟨leases.insert name ⟨owner, now, expires, generation⟩,
          some generation⟩)
  | none =>
    let leases := pruneExpired db.leases now name
    let generation ← nextGeneration db.lastGeneration
    pure (.ok generation, ⟨leases.insert name ⟨owner, now, expires, generation⟩, some generation⟩)

/-- The new expiry, or the row that was found. -/
def renewPipelineLease (db : Db) (name owner : Text) (ttlSecs now : Int) :
    Except LeaseError (Except (Option (Text × Int)) Int × Db) := do
  let expires ← leaseExpiry name owner ttlSecs now
  match db.leases.lookup name with
  | some row =>
    if row.owner = owner && now < row.expiresAtMs then
      let renewed := { row with acquiredAtMs := now, expiresAtMs := expires }
      pure (.ok expires, { db with leases := db.leases.insert name renewed })
    else pure (.error (some (row.owner, row.expiresAtMs)), db)
  | none => pure (.error none, db)

/-- The row before the release. -/
def releasePipelineLeaseRow (db : Db) (name owner : Text) :
    Except LeaseError (Option (Text × Int) × Db) := do
  validateLeaseText "name".toList name
  validateLeaseText "owner".toList owner
  let row := db.leases.lookup name
  pure (row.map fun r => (r.owner, r.expiresAtMs),
    { db with leases := (deleteWhere db.leases name fun r => decide (r.owner = owner)).1 })

def releasePipelineLease (db : Db) (name owner : Text) : Except LeaseError (Bool × Db) := do
  validateLeaseText "name".toList name
  validateLeaseText "owner".toList owner
  let (leases, n) := deleteWhere db.leases name fun r => decide (r.owner = owner)
  pure (decide (0 < n), { db with leases })

/-! ## Guarded operations -/

inductive LeadProof
  | unbound
  | lease (name owner : Text)
  | fenced (name owner : Text) (generation : Int)
  | admin (why : Text)
  deriving DecidableEq

inductive LeadLeaseConflict
  | notHeld (lease : Text) (holder : Option Text)
  | required (lease : Text)
  | mismatch (bound presented : Text)
  | staleGeneration (lease : Text) (presented current : Int)
  deriving DecidableEq

inductive LeadError
  | lease (e : LeaseError)
  | conflict (c : LeadLeaseConflict)
  | adminWithoutWhy
  deriving DecidableEq

/-- The checks of a lease proof before the row is read. -/
def leaseProofArgs (bound : List Text) (name owner : Text) (generation : Option Int) :
    Except LeadError Unit := do
  (validateLeaseText "name".toList name).mapError .lease
  (validateLeaseText "owner".toList owner).mapError .lease
  if generation.any (· ≤ 0) then
    throw (.lease (.input "generation".toList "must be positive".toList))
  match bound.find? (· ≠ name) with
  | some other => throw (.conflict (.mismatch other name))
  | none => pure ()

def leaseProofCheck (db : Db) (bound : List Text) (name owner : Text) (generation : Option Int)
    (now : Int) :
    Except LeadError (Option Text) := do
  leaseProofArgs bound name owner generation
  match db.leases.lookup name with
  | none => throw (.conflict (.notHeld name none))
  | some row =>
    if row.owner = owner && now < row.expiresAtMs then
      match generation with
      | some presented =>
        if presented ≠ row.generation then
          throw (.conflict (.staleGeneration name presented row.generation))
        else pure none
      | none => pure none
    else
      throw (.conflict (.notHeld name (if now < row.expiresAtMs then some row.owner else none)))

/-- Whether an operation on rows with these leases may go on, with the note it then leaves. -/
def leadCheck (db : Db) (bound : List Text) (proof : LeadProof) (now : Int) :
    Except LeadError (Option Text) :=
  match proof with
  | .lease name owner => leaseProofCheck db bound name owner none now
  | .fenced name owner generation => leaseProofCheck db bound name owner (some generation) now
  | .unbound =>
    match bound with
    | [] => .ok none
    | lease :: _ => .error (.conflict (.required lease))
  | .admin why =>
    if trim why = [] then .error .adminWithoutWhy
    else if bound = [] then .ok none
    else .ok (some ("lead lease ".toList ++ join ", ".toList bound ++
      " bypassed by admin: ".toList ++ why))

end Thegn.Lease

import Thegn.Lib.Checked

set_option autoImplicit false

/-! # Admission of calendar events

`thegn-core/src/calendar/admission.rs`: how much one fetch may bring into memory. A pool counts what
all fetches hold together; a lease owns a part of it and gives it back when it is dropped; a meter
charges one account's fetch to its budget and to its lease.
-/

namespace Thegn.Calendar

open Checked

/-- Which ceiling stopped a fetch. -/
inductive AdmissionLimit
  | accountRecords
  | accountBytes
  | eventBytes
  | eventChildren
  | lineBytes
  | nesting
  | documentBytes
  | sourceDeadline
  | globalRecords
  | globalBytes
  | arithmetic
  deriving DecidableEq

def minMaxEvents : Nat := 1
def maxMaxEvents : Nat := 10000
def maxEventBytes : Nat := 2 ^ 20
def maxEventChildren : Nat := 16384
def accountBytesPerEvent : Nat := 8 * 2 ^ 10
def minAccountBytes : Nat := 32 * 2 ^ 20
def maxAccountBytes : Nat := 96 * 2 ^ 20
def maxSourceDocumentBytes : Nat := 32 * 2 ^ 20
def entryOverhead : Nat := 64

/-- The budget of an account; one outside the supported range cannot be built. -/
structure AdmissionBudget where
  maxEvents : Nat
  supported : minMaxEvents ≤ maxEvents ∧ maxEvents ≤ maxMaxEvents

def AdmissionBudget.new (n : Nat) : Option AdmissionBudget :=
  if h : minMaxEvents ≤ n ∧ n ≤ maxMaxEvents then some ⟨n, h⟩ else none

def AdmissionBudget.accountBytes (b : AdmissionBudget) : Nat :=
  max minAccountBytes (min (b.maxEvents * accountBytesPerEvent) maxAccountBytes)

/-- `usize::checked_add`. -/
def checkedAdd {σ : Type} (a b : Nat) : Prog σ AdmissionLimit Nat :=
  if a + b < 2 ^ 64 then pure (a + b) else throw .arithmetic

/-! ## The pool -/

structure AdmissionPool where
  maxRecords : Nat
  maxBytes : Nat
  records : Nat
  bytes : Nat
  /-- Not in the source: whether a release has ever asked for more than was there. -/
  saturated : Bool
  deriving DecidableEq

def AdmissionPool.new (maxRecords maxBytes : Nat) : AdmissionPool :=
  { maxRecords := maxRecords, maxBytes := maxBytes, records := 0, bytes := 0, saturated := false }

/-- The counter after `n` more, if that is allowed. -/
def tryAdd (counter max n : Nat) : Option Nat :=
  if n = 0 then some counter
  else if counter + n < 2 ^ 64 ∧ counter + n ≤ max then some (counter + n)
  else none

-- the source's `sub` saturates, which is what subtraction of natural numbers does
def AdmissionPool.subRecords (p : AdmissionPool) (n : Nat) : AdmissionPool :=
  { p with records := p.records - n, saturated := p.saturated || decide (p.records < n) }

def AdmissionPool.subBytes (p : AdmissionPool) (n : Nat) : AdmissionPool :=
  { p with bytes := p.bytes - n, saturated := p.saturated || decide (p.bytes < n) }

def AdmissionPool.tryReserve (records bytes : Nat) : Prog AdmissionPool AdmissionLimit Unit := do
  let pool ← get
  match tryAdd pool.records pool.maxRecords records with
  | none => throw .globalRecords
  | some next => set { pool with records := next }
  let pool ← get
  match tryAdd pool.bytes pool.maxBytes bytes with
  | none =>
    -- the records are given back
    modify (AdmissionPool.subRecords · records)
    throw .globalBytes
  | some next => set { pool with bytes := next }

def AdmissionPool.release (records bytes : Nat) : Prog AdmissionPool AdmissionLimit Unit := do
  modify (AdmissionPool.subRecords · records)
  modify (AdmissionPool.subBytes · bytes)

/-! ## Leases -/

/-- A reservation; a lease that holds nothing may be on no pool. -/
structure AdmissionLease where
  pooled : Bool
  records : Nat
  bytes : Nat
  deriving DecidableEq

def AdmissionLease.empty : AdmissionLease := { pooled := false, records := 0, bytes := 0 }

def AdmissionLease.withPool : AdmissionLease := { pooled := true, records := 0, bytes := 0 }

abbrev LeaseProg (α : Type) := Prog (AdmissionPool × AdmissionLease) AdmissionLimit α

/-- What a lease does with its pool. -/
def onPool {σ α : Type} (x : Prog AdmissionPool AdmissionLimit α) :
    Prog (AdmissionPool × σ) AdmissionLimit α :=
  zoom Prod.fst (fun pool s => (pool, s.2)) x

def AdmissionLease.reserve (records bytes : Nat) : LeaseProg Unit := do
  let lease := (← get).2
  if lease.pooled then
    let nextRecords ← checkedAdd lease.records records
    let nextBytes ← checkedAdd lease.bytes bytes
    onPool (AdmissionPool.tryReserve records bytes)
    modify fun s => (s.1, { s.2 with records := nextRecords, bytes := nextBytes })
  else if records = 0 ∧ bytes = 0 then pure ()
  else throw .globalBytes

def AdmissionLease.release (records bytes : Nat) : LeaseProg Unit := do
  let lease := (← get).2
  let records := min records lease.records
  let bytes := min bytes lease.bytes
  if lease.pooled then onPool (AdmissionPool.release records bytes) else pure ()
  let nextRecords ← subChecked lease.records records
  let nextBytes ← subChecked lease.bytes bytes
  modify fun s => (s.1, { s.2 with records := nextRecords, bytes := nextBytes })

def AdmissionLease.drop : LeaseProg Unit := do
  let lease := (← get).2
  AdmissionLease.release lease.records lease.bytes

/-! ## Meters -/

structure EventCharge where
  bytes : Nat
  children : Nat
  deriving DecidableEq

structure AdmissionCheckpoint where
  records : Nat
  retained : Nat
  deriving DecidableEq

structure AdmissionMeter where
  budget : AdmissionBudget
  lease : AdmissionLease
  records : Nat
  retained : Nat
  transient : Nat
  event : Option EventCharge

def AdmissionMeter.new (budget : AdmissionBudget) : AdmissionMeter :=
  { budget := budget, lease := .withPool, records := 0, retained := 0, transient := 0,
    event := none }

abbrev MeterProg (α : Type) := Prog (AdmissionPool × AdmissionMeter) AdmissionLimit α

/-- What a meter does with its lease. -/
def onLease {α : Type} (x : LeaseProg α) : MeterProg α :=
  zoom (fun s => (s.1, s.2.lease)) (fun t s => (t.1, { s.2 with lease := t.2 })) x

namespace AdmissionMeter

def reserveTransient (bytes : Nat) : MeterProg Unit := do
  if bytes > maxSourceDocumentBytes then throw .documentBytes
  onLease (AdmissionLease.reserve 0 bytes)
  let next ← addChecked (← get).2.transient bytes
  modify fun s => (s.1, { s.2 with transient := next })

def releaseTransient (bytes : Nat) : MeterProg Unit := do
  let bytes := min bytes (← get).2.transient
  onLease (AdmissionLease.release 0 bytes)
  let next ← subChecked (← get).2.transient bytes
  modify fun s => (s.1, { s.2 with transient := next })

def reserveRetained (bytes : Nat) : MeterProg Unit := do
  let m := (← get).2
  let next ← checkedAdd m.retained bytes
  if next > m.budget.accountBytes then throw .accountBytes
  onLease (AdmissionLease.reserve 0 bytes)
  modify fun s => (s.1, { s.2 with retained := next })

def reserveRecord : MeterProg Unit := do
  let m := (← get).2
  if m.records ≥ m.budget.maxEvents then throw .accountRecords
  onLease (AdmissionLease.reserve 1 0)
  let next ← addChecked (← get).2.records 1
  modify fun s => (s.1, { s.2 with records := next })

def abandonEvent : MeterProg Unit := do
  match (← get).2.event with
  | none => pure ()
  | some ev =>
    modify fun s => (s.1, { s.2 with event := none })
    let bytes := min ev.bytes (← get).2.retained
    onLease (AdmissionLease.release 0 bytes)
    let next ← subChecked (← get).2.retained bytes
    modify fun s => (s.1, { s.2 with retained := next })

def beginEvent : MeterProg Unit := do
  abandonEvent
  modify fun s => (s.1, { s.2 with event := some { bytes := 0, children := 0 } })

def chargeEvent (bytes children : Nat) : MeterProg Unit := do
  let cur := ((← get).2.event).getD { bytes := 0, children := 0 }
  let nextBytes ← checkedAdd cur.bytes bytes
  let nextChildren ← checkedAdd cur.children children
  if nextBytes > maxEventBytes then throw .eventBytes
  if nextChildren > maxEventChildren then throw .eventChildren
  reserveRetained bytes
  modify fun s => (s.1, { s.2 with event := some { bytes := nextBytes, children := nextChildren } })

def admitEvent : MeterProg Unit := do
  reserveRecord
  modify fun s => (s.1, { s.2 with event := none })

def admitDeletion (idLen : Nat) : MeterProg Unit := do
  let bytes ← checkedAdd idLen entryOverhead
  reserveRecord
  reserveRetained bytes

def chargeRetained (bytes : Nat) : MeterProg Unit := reserveRetained bytes

def reserveDecoded : MeterProg Unit := reserveRecord

/-- The footprint is what `event_footprint` says of the event. -/
def chargeDecoded (footprint : Except AdmissionLimit (Nat × Nat)) : MeterProg Unit := do
  match footprint with
  | .error e => throw e
  | .ok (bytes, children) =>
    if bytes > maxEventBytes then throw .eventBytes
    if children > maxEventChildren then throw .eventChildren
    reserveRetained bytes

def admitMaterialized (footprint : Except AdmissionLimit (Nat × Nat)) : MeterProg Unit := do
  reserveDecoded
  chargeDecoded footprint

def checkpoint (m : AdmissionMeter) : AdmissionCheckpoint :=
  { records := m.records, retained := m.retained }

def rollback (cp : AdmissionCheckpoint) : MeterProg Unit := do
  abandonEvent
  let m := (← get).2
  let records := m.records - cp.records
  let bytes := m.retained - cp.retained
  onLease (AdmissionLease.release records bytes)
  let nextRecords ← subChecked m.records records
  let nextRetained ← subChecked m.retained bytes
  modify fun s => (s.1, { s.2 with records := nextRecords, retained := nextRetained })

/-- The lease a finished fetch leaves. -/
def intoLease : MeterProg AdmissionLease := do
  abandonEvent
  releaseTransient (← get).2.transient
  let lease := (← get).2.lease
  modify fun s => (s.1, { s.2 with lease := .empty })
  -- the meter is dropped, and its empty lease with it
  onLease AdmissionLease.drop
  pure lease

end AdmissionMeter

/-! ## Any number of fetches on one pool -/

/-- Who holds a part of the pool. -/
inductive Holder
  | meter (m : AdmissionMeter)
  | lease (l : AdmissionLease)

def Holder.held : Holder → AdmissionLease
  | .meter m => m.lease
  | .lease l => l

/-- What can be asked of a meter; a checkpoint may be of any time and any meter. -/
inductive MeterOp
  | reserveTransient (bytes : Nat)
  | releaseTransient (bytes : Nat)
  | beginEvent
  | chargeEvent (bytes children : Nat)
  | admitEvent
  | abandonEvent
  | admitDeletion (idLen : Nat)
  | chargeRetained (bytes : Nat)
  | reserveDecoded
  | chargeDecoded (footprint : Except AdmissionLimit (Nat × Nat))
  | admitMaterialized (footprint : Except AdmissionLimit (Nat × Nat))
  | rollback (cp : AdmissionCheckpoint)

def MeterOp.prog : MeterOp → MeterProg Unit
  | .reserveTransient bytes => AdmissionMeter.reserveTransient bytes
  | .releaseTransient bytes => AdmissionMeter.releaseTransient bytes
  | .beginEvent => AdmissionMeter.beginEvent
  | .chargeEvent bytes children => AdmissionMeter.chargeEvent bytes children
  | .admitEvent => AdmissionMeter.admitEvent
  | .abandonEvent => AdmissionMeter.abandonEvent
  | .admitDeletion idLen => AdmissionMeter.admitDeletion idLen
  | .chargeRetained bytes => AdmissionMeter.chargeRetained bytes
  | .reserveDecoded => AdmissionMeter.reserveDecoded
  | .chargeDecoded footprint => AdmissionMeter.chargeDecoded footprint
  | .admitMaterialized footprint => AdmissionMeter.admitMaterialized footprint
  | .rollback cp => AdmissionMeter.rollback cp

/-- What can be asked of a holder. -/
inductive HolderOp
  | meter (op : MeterOp)
  | intoLease
  | reserve (records bytes : Nat)
  | drop

inductive AdmissionOp
  | newMeter (budget : AdmissionBudget)
  | emptyLease
  | holder (i : Nat) (op : HolderOp)

/-- The pool after an operation, and what is left of the holder: nothing when it was dropped. A
failed operation leaves behind what it has done; one that the type of the holder does not have is
not made. -/
def HolderOp.act (pool : AdmissionPool) :
    HolderOp → Holder → Option (AdmissionPool × Option Holder)
  | .meter op, .meter m => (exec op.prog (pool, m)).map fun r => (r.2.1, some (.meter r.2.2))
  | .intoLease, .meter m =>
    (exec AdmissionMeter.intoLease (pool, m)).map fun r =>
      match r.1 with
      | .ok lease => (r.2.1, some (.lease lease))
      | .error _ => (r.2.1, none)
  | .reserve records bytes, .lease l =>
    (exec (AdmissionLease.reserve records bytes) (pool, l)).map fun r =>
      (r.2.1, some (.lease r.2.2))
  | .drop, h => (exec AdmissionLease.drop (pool, h.held)).map fun r => (r.2.1, none)
  | _, h => some (pool, some h)

structure AdmissionWorld where
  pool : AdmissionPool
  holders : List Holder

def AdmissionWorld.new (maxRecords maxBytes : Nat) : AdmissionWorld :=
  { pool := .new maxRecords maxBytes, holders := [] }

/-- No world is left when an operation panics. -/
def AdmissionWorld.step (w : AdmissionWorld) : AdmissionOp → Option AdmissionWorld
  | .newMeter budget => some { w with holders := w.holders ++ [Holder.meter (.new budget)] }
  | .emptyLease => some { w with holders := w.holders ++ [Holder.lease .empty] }
  | .holder i op =>
    match w.holders[i]? with
    | none => some w
    | some h =>
      (op.act w.pool h).map fun r =>
        { pool := r.1
          holders :=
            match r.2 with
            | some h => w.holders.set i h
            | none => w.holders.eraseIdx i }

end Thegn.Calendar

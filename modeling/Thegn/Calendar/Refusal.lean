import Thegn.Calendar.Ledger

set_option autoImplicit false

/-! # What a refused admission leaves behind

A reservation is made in whole or not at all (`runs_reserve_room`), so an operation of a meter that
makes one reservation charges nothing when it is refused. `admit_deletion` and `admit_materialized`
make two: when the record fits and the bytes do not, the record stays charged. `HalfCharged` says
when that is, and `refused_charges_nothing` that nothing else is ever left behind.
-/

namespace Thegn.Calendar

open Checked

/-- The operations that charge or admit. -/
def MeterOp.Charges : MeterOp → Prop
  | .chargeEvent _ _ => True
  | .admitEvent => True
  | .admitDeletion _ => True
  | .chargeRetained _ => True
  | .reserveTransient _ => True
  | .chargeDecoded _ => True
  | .admitMaterialized _ => True
  | _ => False

/-- If the operation is refused, the meter and its pool are as before. -/
def ChargesNothing (op : MeterOp) (pool : AdmissionPool) (m : AdmissionMeter) : Prop :=
  ∀ e t, exec op.prog (pool, m) = some (.error e, t) → t = (pool, m)

/-- A counter can take `n` more. -/
def Fits (counter max n : Nat) : Prop := n = 0 ∨ counter + n < 2 ^ 64 ∧ counter + n ≤ max

/-- A lease on the pool can reserve. -/
structure LeaseRoom (pool : AdmissionPool) (lease : AdmissionLease) (records bytes : Nat) :
    Prop where
  leaseRecords : lease.records + records < 2 ^ 64
  leaseBytes : lease.bytes + bytes < 2 ^ 64
  poolRecords : Fits pool.records pool.maxRecords records
  poolBytes : Fits pool.bytes pool.maxBytes bytes

/-- One more record is within the budget and the pool. -/
def RecordRoom (pool : AdmissionPool) (m : AdmissionMeter) : Prop :=
  m.records < m.budget.maxEvents ∧ LeaseRoom pool m.lease 1 0

/-- So many more bytes are within the budget and the pool. -/
def BytesRoom (pool : AdmissionPool) (m : AdmissionMeter) (bytes : Nat) : Prop :=
  m.retained + bytes < 2 ^ 64 ∧ m.retained + bytes ≤ m.budget.accountBytes ∧
    LeaseRoom pool m.lease 0 bytes

/-- A footprint is within the limits of an event, and its bytes have room. -/
def FootprintRoom (pool : AdmissionPool) (m : AdmissionMeter)
    (footprint : Except AdmissionLimit (Nat × Nat)) : Prop :=
  ∃ size, footprint = .ok size ∧ size.1 ≤ maxEventBytes ∧ size.2 ≤ maxEventChildren ∧
    BytesRoom pool m size.1

/-- The operation takes a record before it is refused for its bytes. -/
def HalfCharged (pool : AdmissionPool) (m : AdmissionMeter) : MeterOp → Prop
  | .admitDeletion idLen =>
    idLen + entryOverhead < 2 ^ 64 ∧ RecordRoom pool m ∧ ¬ BytesRoom pool m (idLen + entryOverhead)
  | .admitMaterialized footprint => RecordRoom pool m ∧ ¬ FootprintRoom pool m footprint
  | _ => False

/-! ## Reservations -/

theorem tryAdd_of_fits {counter max n : Nat} (h : Fits counter max n) :
    tryAdd counter max n = some (counter + n) := by
  unfold tryAdd
  rcases h with rfl | h
  · rfl
  · split_ifs with hzero
    · rw [hzero, Nat.add_zero]
    · rfl

theorem tryAdd_of_not_fits {counter max n : Nat} (h : ¬ Fits counter max n) :
    tryAdd counter max n = none := by
  rw [Fits, not_or] at h
  rw [tryAdd, if_neg h.1, if_neg h.2]

/-- What a reservation does to the pool and the lease. -/
def reserved (pool : AdmissionPool) (lease : AdmissionLease) (records bytes : Nat) :
    AdmissionPool × AdmissionLease :=
  ({ pool with records := pool.records + records, bytes := pool.bytes + bytes },
    { lease with records := lease.records + records, bytes := lease.bytes + bytes })

theorem runs_tryReserve_room (pool : AdmissionPool) (records bytes : Nat) :
    Runs (AdmissionPool.tryReserve records bytes) pool (onOk
      (fun _ p => p = { pool with records := pool.records + records, bytes := pool.bytes + bytes } ∧
        Fits pool.records pool.maxRecords records ∧ Fits pool.bytes pool.maxBytes bytes)
      fun _ p => p = pool ∧ ¬ (Fits pool.records pool.maxRecords records ∧
        Fits pool.bytes pool.maxBytes bytes)) := by
  unfold AdmissionPool.tryReserve
  rw [runs_bind, runs_get, onOk_ok]
  by_cases hr : Fits pool.records pool.maxRecords records
  · rw [tryAdd_of_fits hr, runs_bind, runs_set, onOk_ok, runs_bind, runs_get, onOk_ok]
    dsimp only
    by_cases hb : Fits pool.bytes pool.maxBytes bytes
    · rw [tryAdd_of_fits hb, runs_set, onOk_ok]
      exact ⟨rfl, hr, hb⟩
    · rw [tryAdd_of_not_fits hb, runs_bind, runs_modify, onOk_ok, runs_throw, onOk_error]
      rw [AdmissionPool.subRecords, Nat.add_sub_cancel, decide_eq_false (by dsimp only; omega),
        Bool.or_false]
      exact ⟨rfl, fun h => hb h.2⟩
  · rw [tryAdd_of_not_fits hr, runs_bind]
    exact runs_throw.mpr ⟨rfl, fun h => hr h.1⟩

/-- **A reservation is made in whole or not at all.** -/
theorem runs_reserve_room {pool : AdmissionPool} {lease : AdmissionLease} (records bytes : Nat)
    (hpooled : lease.pooled = true) :
    Runs (AdmissionLease.reserve records bytes) (pool, lease) (onOk
      (fun _ t => t = reserved pool lease records bytes ∧ LeaseRoom pool lease records bytes)
      fun _ t => t = (pool, lease) ∧ ¬ LeaseRoom pool lease records bytes) := by
  unfold AdmissionLease.reserve
  rw [runs_bind, runs_get, onOk_ok]
  dsimp only
  rw [if_pos hpooled, runs_bind, checkedAdd]
  split_ifs with hrecords
  · rw [runs_pure, onOk_ok, runs_bind, checkedAdd]
    split_ifs with hbytes
    · rw [runs_pure, onOk_ok, runs_bind, onPool, runs_zoom]
      refine (runs_tryReserve_room pool records bytes).mono ?_
      rintro (e | _) p hp
      · rw [onOk_error] at hp ⊢
        obtain ⟨rfl, hfull⟩ := hp
        exact ⟨rfl, fun h => hfull ⟨h.poolRecords, h.poolBytes⟩⟩
      · rw [onOk_ok] at hp ⊢
        obtain ⟨rfl, hpr, hpb⟩ := hp
        rw [runs_modify, onOk_ok]
        exact ⟨rfl, hrecords, hbytes, hpr, hpb⟩
    · exact runs_throw.mpr ⟨rfl, fun h => hbytes h.leaseBytes⟩
  · exact runs_throw.mpr ⟨rfl, fun h => hrecords h.leaseRecords⟩

/-! ## One reservation of a meter -/

variable {pool : AdmissionPool} {m : AdmissionMeter}

theorem runs_reserveRecord (hpooled : m.lease.pooled = true) :
    Runs AdmissionMeter.reserveRecord (pool, m) (onOk
      (fun _ t => RecordRoom pool m ∧
        t = ((reserved pool m.lease 1 0).1,
          { m with lease := (reserved pool m.lease 1 0).2, records := m.records + 1 }))
      fun _ t => t = (pool, m) ∧ ¬ RecordRoom pool m) := by
  unfold AdmissionMeter.reserveRecord
  rw [runs_bind, runs_get, onOk_ok]
  dsimp only
  split_ifs with hfull
  · exact runs_throw.mpr ⟨rfl, fun h => absurd h.1 (Nat.not_lt.mpr hfull)⟩
  · rw [runs_bind, onLease, runs_zoom]
    refine (runs_reserve_room 1 0 hpooled).mono ?_
    rintro (e | _) t ht
    · rw [onOk_error] at ht ⊢
      obtain ⟨rfl, hroom⟩ := ht
      exact ⟨rfl, fun h => hroom h.2⟩
    · rw [onOk_ok] at ht ⊢
      obtain ⟨rfl, hroom⟩ := ht
      have hle := m.budget.supported.2
      have hlt : m.records < m.budget.maxEvents := Nat.not_le.mp hfull
      have hfits : m.records + 1 < 2 ^ 64 := by
        rw [maxMaxEvents] at hle
        omega
      rw [runs_bind, runs_get, onOk_ok, runs_bind, runs_addChecked hfits, onOk_ok,
        runs_modify, onOk_ok]
      exact ⟨⟨hlt, hroom⟩, rfl⟩

theorem runs_reserveRetained (hpooled : m.lease.pooled = true) (bytes : Nat) :
    Runs (AdmissionMeter.reserveRetained bytes) (pool, m) (onOk
      (fun _ _ => BytesRoom pool m bytes) fun _ t => t = (pool, m) ∧ ¬ BytesRoom pool m bytes) := by
  unfold AdmissionMeter.reserveRetained
  rw [runs_bind, runs_get, onOk_ok, runs_bind, checkedAdd]
  split_ifs with hfits
  · rw [runs_pure, onOk_ok]
    split_ifs with hover
    · exact runs_throw.mpr ⟨rfl, fun h => absurd h.2.1 (Nat.not_le.mpr hover)⟩
    · rw [runs_bind, onLease, runs_zoom]
      refine (runs_reserve_room 0 bytes hpooled).mono ?_
      rintro (e | _) t ht
      · rw [onOk_error] at ht ⊢
        obtain ⟨rfl, hroom⟩ := ht
        exact ⟨rfl, fun h => hroom h.2.2⟩
      · rw [onOk_ok] at ht ⊢
        rw [runs_modify, onOk_ok]
        exact ⟨hfits, Nat.not_lt.mp hover, ht.2⟩
  · exact runs_throw.mpr ⟨rfl, fun h => hfits h.1⟩

theorem runs_chargeDecoded (hpooled : m.lease.pooled = true)
    (footprint : Except AdmissionLimit (Nat × Nat)) :
    Runs (AdmissionMeter.chargeDecoded footprint) (pool, m) (onOk
      (fun _ _ => FootprintRoom pool m footprint) fun _ t => t = (pool, m) ∧
      ¬ FootprintRoom pool m footprint) := by
  unfold AdmissionMeter.chargeDecoded
  cases footprint with
  | error e =>
    refine runs_throw.mpr ⟨rfl, ?_⟩
    rintro ⟨size, h, -⟩
    cases h
  | ok size =>
    have hroom : FootprintRoom pool m (.ok size) ↔
        size.1 ≤ maxEventBytes ∧ size.2 ≤ maxEventChildren ∧ BytesRoom pool m size.1 := by
      constructor
      · rintro ⟨size', h, hroom⟩
        cases h
        exact hroom
      · exact fun h => ⟨size, rfl, h⟩
    rw [hroom]
    dsimp only
    by_cases hbytes : maxEventBytes < size.1
    · rw [if_pos hbytes]
      exact runs_throw.mpr ⟨rfl, fun h => absurd h.1 (Nat.not_le.mpr hbytes)⟩
    · by_cases hchildren : maxEventChildren < size.2
      · rw [if_neg hbytes, if_pos hchildren]
        exact runs_throw.mpr ⟨rfl, fun h => absurd h.2.1 (Nat.not_le.mpr hchildren)⟩
      · rw [if_neg hbytes, if_neg hchildren]
        refine (runs_reserveRetained hpooled size.1).mono ?_
        rintro (e | _) t ht
        · exact ⟨ht.1, fun h => ht.2 h.2.2⟩
        · exact ⟨Nat.not_lt.mp hbytes, Nat.not_lt.mp hchildren, ht⟩

/-! ## Refusals -/

/-- The record of a first reservation does not change what bytes have room. -/
theorem bytesRoom_reserved (hroom : RecordRoom pool m) (bytes : Nat) :
    BytesRoom (reserved pool m.lease 1 0).1
        { m with lease := (reserved pool m.lease 1 0).2, records := m.records + 1 } bytes ↔
      BytesRoom pool m bytes := by
  constructor
  · rintro ⟨hfits, hle, -, hbytes, -, hpool⟩
    exact ⟨hfits, hle, Nat.lt_of_succ_lt hroom.2.leaseRecords, hbytes, .inl rfl, hpool⟩
  · rintro ⟨hfits, hle, -, hbytes, -, hpool⟩
    exact ⟨hfits, hle, hroom.2.leaseRecords, hbytes, .inl rfl, hpool⟩

/-- Whether an operation charges nothing when it is refused, from how it ends. -/
theorem chargesNothing_iff {op : MeterOp} {P : Prop}
    (h : Runs op.prog (pool, m) (onOk (fun _ _ => ¬ P) fun _ t => t = (pool, m) ↔ ¬ P)) :
    ChargesNothing op pool m ↔ ¬ P := by
  obtain ⟨r, t, hx, hpost⟩ := h
  cases r with
  | ok _ =>
    refine ⟨fun _ => hpost, fun _ e t' hx' => ?_⟩
    rw [hx] at hx'
    cases hx'
  | error e =>
    refine ⟨fun hnothing => hpost.mp (hnothing e t hx), fun hP e' t' hx' => ?_⟩
    rw [hx] at hx'
    cases hx'
    exact hpost.mpr hP

/-- An operation that leaves everything as before when it is refused. -/
theorem chargesNothing_of_runs {op : MeterOp}
    (h : Runs op.prog (pool, m) (onOk (fun _ _ => True) fun _ t => t = (pool, m))) :
    ChargesNothing op pool m ↔ ¬ False := by
  refine chargesNothing_iff (h.mono ?_)
  rintro (e | _) t ht
  · exact ⟨fun _ => not_false, fun _ => ht⟩
  · exact not_false

theorem chargesNothing_admitDeletion (hpooled : m.lease.pooled = true) (idLen : Nat) :
    ChargesNothing (.admitDeletion idLen) pool m ↔ ¬ HalfCharged pool m (.admitDeletion idLen) := by
  refine chargesNothing_iff ?_
  show Runs (AdmissionMeter.admitDeletion idLen) _ _
  unfold AdmissionMeter.admitDeletion HalfCharged
  rw [runs_bind, checkedAdd]
  split_ifs with hfits
  · rw [runs_pure, onOk_ok, runs_bind]
    refine (runs_reserveRecord hpooled).mono ?_
    rintro (e | _) t ht
    · obtain ⟨rfl, hroom⟩ := ht
      exact ⟨fun _ h => hroom h.2.1, fun _ => rfl⟩
    · rw [onOk_ok] at ht ⊢
      obtain ⟨hroom, rfl⟩ := ht
      refine Runs.mono (runs_reserveRetained ?_ _) ?_
      · exact hpooled
      rintro (e | _) t ht
      · -- the record stays charged
        obtain ⟨rfl, hbytes⟩ := ht
        rw [bytesRoom_reserved hroom] at hbytes
        refine ⟨fun heq => ?_, fun h => absurd ⟨hfits, hroom, hbytes⟩ h⟩
        have hrecords : m.records + 1 = m.records := congrArg (fun s => s.2.records) heq
        omega
      · rw [onOk_ok, bytesRoom_reserved hroom] at ht
        exact fun h => h.2.2 ht
  · exact runs_throw.mpr ⟨fun _ h => hfits h.1, fun _ => rfl⟩

theorem footprintRoom_reserved (hroom : RecordRoom pool m)
    (footprint : Except AdmissionLimit (Nat × Nat)) :
    FootprintRoom (reserved pool m.lease 1 0).1
        { m with lease := (reserved pool m.lease 1 0).2, records := m.records + 1 } footprint ↔
      FootprintRoom pool m footprint := by
  simp only [FootprintRoom, bytesRoom_reserved hroom]

theorem chargesNothing_admitMaterialized (hpooled : m.lease.pooled = true)
    (footprint : Except AdmissionLimit (Nat × Nat)) :
    ChargesNothing (.admitMaterialized footprint) pool m ↔
    ¬ HalfCharged pool m (.admitMaterialized footprint) := by
  refine chargesNothing_iff ?_
  show Runs (AdmissionMeter.admitMaterialized footprint) _ _
  unfold AdmissionMeter.admitMaterialized AdmissionMeter.reserveDecoded HalfCharged
  rw [runs_bind]
  refine (runs_reserveRecord hpooled).mono ?_
  rintro (e | _) t ht
  · obtain ⟨rfl, hroom⟩ := ht
    exact ⟨fun _ h => hroom h.1, fun _ => rfl⟩
  · rw [onOk_ok] at ht ⊢
    obtain ⟨hroom, rfl⟩ := ht
    refine Runs.mono (runs_chargeDecoded ?_ footprint) ?_
    · exact hpooled
    rintro (e | _) t ht
    · -- the record stays charged
      obtain ⟨rfl, hbytes⟩ := ht
      rw [footprintRoom_reserved hroom] at hbytes
      refine ⟨fun heq => ?_, fun h => absurd ⟨hroom, hbytes⟩ h⟩
      have hrecords : m.records + 1 = m.records := congrArg (fun s => s.2.records) heq
      omega
    · rw [onOk_ok, footprintRoom_reserved hroom] at ht
      exact fun h => h.2 ht

theorem runs_checkedAdd_refused {a b : Nat} {f : Nat → MeterProg Unit}
    (hf : a + b < 2 ^ 64 → Runs (f (a + b)) (pool, m) (onOk (fun _ _ => True) fun _ t =>
      t = (pool, m))) :
    Runs (checkedAdd a b >>= f) (pool, m) (onOk (fun _ _ => True) fun _ t => t = (pool, m)) := by
  rw [runs_bind]
  exact runs_checkedAdd (fun h => hf h) rfl

theorem chargesNothing_chargeEvent (hpooled : m.lease.pooled = true) (bytes children : Nat) :
    ChargesNothing (.chargeEvent bytes children) pool m ↔ ¬ False := by
  refine chargesNothing_of_runs ?_
  show Runs (AdmissionMeter.chargeEvent bytes children) _ _
  unfold AdmissionMeter.chargeEvent
  rw [runs_bind, runs_get, onOk_ok]
  refine runs_checkedAdd_refused fun _ => runs_checkedAdd_refused fun _ => ?_
  dsimp only
  by_cases hbytes : maxEventBytes < (m.event.getD { bytes := 0, children := 0 }).bytes + bytes
  · rw [if_pos hbytes]
    exact runs_throw.mpr rfl
  · by_cases hchildren : maxEventChildren <
      (m.event.getD { bytes := 0, children := 0 }).children + children
    · rw [if_neg hbytes, if_pos hchildren]
      exact runs_throw.mpr rfl
    · rw [if_neg hbytes, if_neg hchildren, runs_bind]
      refine (runs_reserveRetained hpooled bytes).mono ?_
      rintro (e | _) t ht
      · exact ht.1
      · rw [onOk_ok, runs_modify]
        trivial

theorem chargesNothing_reserveTransient (h : m.Exact) (bytes : Nat) :
    ChargesNothing (.reserveTransient bytes) pool m ↔ ¬ False := by
  refine chargesNothing_of_runs ?_
  show Runs (AdmissionMeter.reserveTransient bytes) _ _
  unfold AdmissionMeter.reserveTransient
  split_ifs with hover
  · exact runs_throw.mpr rfl
  · rw [runs_bind, onLease, runs_zoom]
    refine (runs_reserve_room 0 bytes h.pooled).mono ?_
    rintro (e | _) t ht
    · obtain ⟨rfl, -⟩ := ht
      rfl
    · rw [onOk_ok] at ht ⊢
      obtain ⟨rfl, hroom⟩ := ht
      have hfits : m.transient + bytes < 2 ^ 64 := by
        have hlt := hroom.leaseBytes
        rw [h.bytes_eq] at hlt
        omega
      rw [runs_bind, runs_get, onOk_ok, runs_bind, runs_addChecked hfits, onOk_ok, runs_modify]
      trivial

theorem chargesNothing_of_exact (h : m.Exact) {op : MeterOp} (hop : op.Charges) :
    ChargesNothing op pool m ↔ ¬ HalfCharged pool m op := by
  cases op with
  | chargeEvent bytes children => exact chargesNothing_chargeEvent h.pooled bytes children
  | admitEvent =>
    refine chargesNothing_of_runs ?_
    show Runs AdmissionMeter.admitEvent _ _
    unfold AdmissionMeter.admitEvent
    rw [runs_bind]
    refine (runs_reserveRecord h.pooled).mono ?_
    rintro (e | _) t ht
    · exact ht.1
    · rw [onOk_ok, runs_modify]
      trivial
  | admitDeletion idLen => exact chargesNothing_admitDeletion h.pooled idLen
  | chargeRetained bytes =>
    refine chargesNothing_of_runs ((runs_reserveRetained h.pooled bytes).mono ?_)
    rintro (e | _) t ht
    · exact ht.1
    · trivial
  | reserveTransient bytes => exact chargesNothing_reserveTransient h bytes
  | chargeDecoded footprint =>
    refine chargesNothing_of_runs ((runs_chargeDecoded h.pooled footprint).mono ?_)
    rintro (e | _) t ht
    · exact ht.1
    · trivial
  | admitMaterialized footprint => exact chargesNothing_admitMaterialized h.pooled footprint
  | releaseTransient bytes => exact hop.elim
  | beginEvent => exact hop.elim
  | abandonEvent => exact hop.elim
  | reserveDecoded => exact hop.elim
  | rollback cp => exact hop.elim

/-- **A refused admission charges nothing**, unless it is a deletion or a materialized event whose
record fits and whose bytes do not: its record stays charged. -/
theorem refused_charges_nothing {maxRecords maxBytes : Nat} {ops : List AdmissionOp}
    {w : AdmissionWorld}
    (hrun : Run.run AdmissionWorld.step (.new maxRecords maxBytes) ops = some w)
    {m : AdmissionMeter} (hm : .meter m ∈ w.holders) {op : MeterOp} (hop : op.Charges) :
    ChargesNothing op w.pool m ↔ ¬ HalfCharged w.pool m op := by
  obtain ⟨w', hrun', hw⟩ := run_keeps ops (exact_new maxRecords maxBytes)
  rw [hrun] at hrun'
  cases hrun'
  exact chargesNothing_of_exact (hw.holders _ hm).1 hop

/-- A fresh meter with the default budget. -/
def freshMeter : AdmissionMeter := .new ⟨2000, by decide⟩

/-- The meter after it admitted a deletion with an identity of forty bytes. -/
def chargedMeter : AdmissionMeter :=
  { freshMeter with records := 1, retained := 104, lease := ⟨true, 1, 104⟩ }

def fullPool : AdmissionPool := ⟨1, 224 * 2 ^ 20, 1, 104, false⟩

theorem run_charged : Run.run AdmissionWorld.step (.new 1 (224 * 2 ^ 20))
    [.newMeter ⟨2000, by decide⟩, .holder 0 (.meter (.admitDeletion 40))] =
      some ⟨fullPool, [.meter chargedMeter]⟩ := by
  rfl

/-- A second deletion has no place in a pool of one record, and is refused without a trace. -/
theorem refused_charges_nothing_full : ChargesNothing (.admitDeletion 40) fullPool chargedMeter :=
  (@refused_charges_nothing _ _ _ _ run_charged _ (.head _) (.admitDeletion 40) trivial).mpr
    fun h => absurd h.2.1.2.poolRecords (by unfold Fits; decide)

/-- A tombstone with an identity of 32 MiB is refused for its bytes, and its record stays. -/
theorem deletion_stays_charged :
    ¬ ChargesNothing (.admitDeletion (2 ^ 25)) (.new 65536 (224 * 2 ^ 20)) freshMeter := by
  intro h
  have hhalf := (chargesNothing_admitDeletion rfl (2 ^ 25)).mp h
  refine hhalf ⟨by decide,
    ⟨by decide, ⟨by decide, by decide, .inr ⟨by decide, by decide⟩, .inl rfl⟩⟩, ?_⟩
  rintro ⟨-, hle, -⟩
  exact absurd hle (by decide)

end Thegn.Calendar

import Thegn.Calendar.Admission
import Thegn.Lib.Run

set_option autoImplicit false

/-! # Admission accounting is exact

What the pool counts is what its leases hold, and what a lease of a meter holds is what the meter
has charged. Each operation keeps this, whether it succeeds or fails, and none panics
(`holder_keeps`); so it holds after any operations of any number of fetches, and a pool on which
nothing is left counts nothing (`admission_exact`).
-/

namespace Thegn.Calendar

open Checked
open List hiding modify

/-! ## A pool and one of its leases -/

/-- The pool counts the lease and, besides it, `records` and `bytes` that others hold. -/
structure Balanced (maxRecords maxBytes records bytes : Nat) (pool : AdmissionPool)
    (lease : AdmissionLease) : Prop where
  maxRecords_eq : pool.maxRecords = maxRecords
  maxBytes_eq : pool.maxBytes = maxBytes
  records_eq : pool.records = records + lease.records
  bytes_eq : pool.bytes = bytes + lease.bytes
  records_le : pool.records ≤ maxRecords
  bytes_le : pool.bytes ≤ maxBytes
  unsaturated : pool.saturated = false
  unpooled : lease.pooled = false → lease.records = 0 ∧ lease.bytes = 0

theorem tryAdd_eq_some {counter max n next : Nat} (h : tryAdd counter max n = some next)
    (hle : counter ≤ max) : next = counter + n ∧ next ≤ max := by
  unfold tryAdd at h
  split_ifs at h with hzero hfits
  · cases h
    exact ⟨by omega, hle⟩
  · cases h
    exact ⟨rfl, hfits.2⟩

variable {maxRecords maxBytes othersRecords othersBytes : Nat}

theorem runs_checkedAdd {σ : Type} {s : σ} {a b : Nat} {post : Except AdmissionLimit Nat → σ → Prop}
    (hok : a + b < 2 ^ 64 → post (.ok (a + b)) s) (herror : post (.error .arithmetic) s) :
    Runs (checkedAdd a b) s post := by
  unfold checkedAdd
  split_ifs with h
  · exact runs_pure.mpr (hok h)
  · exact runs_throw.mpr herror

/-- A reservation is made in whole, or the pool is as before. -/
theorem runs_tryReserve {pool : AdmissionPool} (records bytes : Nat)
    (hrecords : pool.records ≤ pool.maxRecords) (hbytes : pool.bytes ≤ pool.maxBytes) :
    Runs (AdmissionPool.tryReserve records bytes) pool (onOk
      (fun _ p => p = { pool with records := pool.records + records, bytes := pool.bytes + bytes } ∧
        pool.records + records ≤ pool.maxRecords ∧ pool.bytes + bytes ≤ pool.maxBytes)
      fun _ p => p = pool) := by
  unfold AdmissionPool.tryReserve
  rw [runs_bind, runs_get, onOk_ok]
  cases hr : tryAdd pool.records pool.maxRecords records with
  | none =>
    rw [runs_bind]
    exact runs_throw.mpr rfl
  | some next =>
    obtain ⟨rfl, hnext⟩ := tryAdd_eq_some hr hrecords
    rw [runs_bind, runs_set, onOk_ok, runs_bind, runs_get, onOk_ok]
    dsimp only
    cases hb : tryAdd pool.bytes pool.maxBytes bytes with
    | none =>
      rw [runs_bind, runs_modify, onOk_ok, runs_throw, onOk_error]
      rw [AdmissionPool.subRecords, Nat.add_sub_cancel, decide_eq_false (by dsimp only; omega),
        Bool.or_false]
    | some next' =>
      obtain ⟨rfl, hnext'⟩ := tryAdd_eq_some hb hbytes
      rw [runs_set, onOk_ok]
      exact ⟨rfl, hnext, hnext'⟩

theorem runs_poolRelease (pool : AdmissionPool) (records bytes : Nat)
    (hrecords : records ≤ pool.records) (hbytes : bytes ≤ pool.bytes) :
    Runs (AdmissionPool.release records bytes) pool fun r p => r = .ok () ∧
      p = { pool with records := pool.records - records, bytes := pool.bytes - bytes } := by
  unfold AdmissionPool.release
  rw [runs_bind, runs_modify, onOk_ok, runs_modify]
  refine ⟨rfl, ?_⟩
  rw [AdmissionPool.subBytes, AdmissionPool.subRecords]
  rw [decide_eq_false (by omega), decide_eq_false (by dsimp only; omega), Bool.or_false,
    Bool.or_false]

/-- A lease reserves, or it and its pool are as before. -/
theorem runs_reserve {pool : AdmissionPool} {lease : AdmissionLease} (records bytes : Nat)
    (h : Balanced maxRecords maxBytes othersRecords othersBytes pool lease) :
    Runs (AdmissionLease.reserve records bytes) (pool, lease) (onOk
      (fun _ t => Balanced maxRecords maxBytes othersRecords othersBytes t.1 t.2 ∧
        t.2 = { lease with records := lease.records + records, bytes := lease.bytes + bytes } ∧
        (lease.pooled = true → t.2.records < 2 ^ 64 ∧ t.2.bytes < 2 ^ 64))
      fun _ t => t = (pool, lease)) := by
  obtain ⟨pooled, held, heldBytes⟩ := lease
  unfold AdmissionLease.reserve
  rw [runs_bind, runs_get, onOk_ok]
  dsimp only
  cases pooled with
  | false =>
    rw [if_neg Bool.false_ne_true]
    split_ifs with hzero
    · obtain ⟨rfl, rfl⟩ := hzero
      exact runs_pure.mpr ⟨h, rfl, fun hp => by cases hp⟩
    · exact runs_throw.mpr rfl
  | true =>
    rw [if_pos rfl, runs_bind]
    refine runs_checkedAdd (fun hrecords => ?_) rfl
    rw [onOk_ok, runs_bind]
    refine runs_checkedAdd (fun hbytes => ?_) rfl
    rw [onOk_ok, runs_bind, onPool, runs_zoom]
    have hpool := runs_tryReserve records bytes (by rw [h.maxRecords_eq]; exact h.records_le)
      (by rw [h.maxBytes_eq]; exact h.bytes_le)
    refine hpool.mono ?_
    rintro (e | _) p hp
    · rw [onOk_error] at hp ⊢
      rw [hp]
      rfl
    · rw [onOk_ok] at hp ⊢
      obtain ⟨rfl, hle, hle'⟩ := hp
      rw [runs_modify, onOk_ok]
      have hr := h.records_eq
      have hb := h.bytes_eq
      dsimp only at hr hb
      refine ⟨⟨h.maxRecords_eq, h.maxBytes_eq, ?_, ?_, ?_, ?_, h.unsaturated, ?_⟩, ?_, ?_⟩
      · dsimp only
        omega
      · dsimp only
        omega
      · rw [← h.maxRecords_eq]
        exact hle
      · rw [← h.maxBytes_eq]
        exact hle'
      · intro hp
        cases hp
      · rfl
      · intro _
        exact ⟨hrecords, hbytes⟩

/-- A lease gives back at most what it holds, and neither it nor the pool goes below zero. -/
theorem runs_release {pool : AdmissionPool} {lease : AdmissionLease} (records bytes : Nat)
    (h : Balanced maxRecords maxBytes othersRecords othersBytes pool lease) :
    Runs (AdmissionLease.release records bytes) (pool, lease) fun r t => r = .ok () ∧
      Balanced maxRecords maxBytes othersRecords othersBytes t.1 t.2 ∧
      t.2 = { lease with records := lease.records - records, bytes := lease.bytes - bytes } := by
  obtain ⟨pooled, held, heldBytes⟩ := lease
  have hr := h.records_eq
  have hb := h.bytes_eq
  have hle := h.records_le
  have hle' := h.bytes_le
  dsimp only at hr hb ⊢
  have hminr : held - min records held = held - records := by omega
  have hminb : heldBytes - min bytes heldBytes = heldBytes - bytes := by omega
  unfold AdmissionLease.release
  rw [runs_bind, runs_get, onOk_ok]
  dsimp only
  cases pooled with
  | false =>
    obtain ⟨rfl, rfl⟩ := h.unpooled rfl
    rw [if_neg Bool.false_ne_true, runs_bind, runs_subChecked (by omega), onOk_ok,
      runs_bind, runs_subChecked (by omega), onOk_ok, runs_modify, hminr, hminb, Nat.zero_sub,
      Nat.zero_sub]
    exact ⟨rfl, h, rfl⟩
  | true =>
    rw [if_pos rfl, runs_bind, onPool, runs_zoom]
    have hpool :=
      runs_poolRelease pool (min records held) (min bytes heldBytes) (by omega) (by omega)
    refine hpool.mono ?_
    rintro r p ⟨rfl, rfl⟩
    rw [onOk_ok, runs_bind, runs_subChecked (by omega), onOk_ok, runs_bind,
      runs_subChecked (by omega), onOk_ok, runs_modify, hminr, hminb]
    refine ⟨rfl, ⟨h.maxRecords_eq, h.maxBytes_eq, ?_, ?_, ?_, ?_, h.unsaturated, ?_⟩, rfl⟩
    · dsimp only
      omega
    · dsimp only
      omega
    · dsimp only
      omega
    · dsimp only
      omega
    · intro hp
      cases hp

/-! ## A meter -/

/-- The lease of a meter holds what the meter has charged, and that is within the budget. -/
structure AdmissionMeter.Exact (m : AdmissionMeter) : Prop where
  pooled : m.lease.pooled = true
  records_eq : m.lease.records = m.records
  bytes_eq : m.lease.bytes = m.retained + m.transient
  records_le : m.records ≤ m.budget.maxEvents
  retained_le : m.retained ≤ m.budget.accountBytes

/-- A pool and one of its meters. -/
structure Sound (maxRecords maxBytes records bytes : Nat) (s : AdmissionPool × AdmissionMeter) :
    Prop where
  balanced : Balanced maxRecords maxBytes records bytes s.1 s.2.lease
  exact : s.2.Exact

/-- An operation of a meter answers, and leaves pool and meter sound. -/
def Keeps {α : Type} (maxRecords maxBytes records bytes : Nat) (x : MeterProg α) : Prop :=
  ∀ s, Sound maxRecords maxBytes records bytes s →
    Runs x s fun _ t => Sound maxRecords maxBytes records bytes t

theorem Keeps.bind {α β : Type} {x : MeterProg α} {f : α → MeterProg β}
    (hx : Keeps maxRecords maxBytes othersRecords othersBytes x)
    (hf : ∀ a, Keeps maxRecords maxBytes othersRecords othersBytes (f a)) :
    Keeps maxRecords maxBytes othersRecords othersBytes (x >>= f) := by
  intro s hs
  rw [runs_bind]
  refine (hx s hs).mono ?_
  rintro (e | a) t ht
  · exact ht
  · exact hf a t ht

theorem keeps_throw {α : Type} (e : AdmissionLimit) :
    Keeps maxRecords maxBytes othersRecords othersBytes (throw e : MeterProg α) :=
  fun _ hs => runs_throw.mpr hs

/-- An operation that first looks at the state. -/
theorem Keeps.get {α : Type} {f : AdmissionPool × AdmissionMeter → MeterProg α}
    (hf : ∀ s, Sound maxRecords maxBytes othersRecords othersBytes s →
      Runs (f s) s fun _ t => Sound maxRecords maxBytes othersRecords othersBytes t) :
    Keeps maxRecords maxBytes othersRecords othersBytes (get >>= f) := by
  intro s hs
  rw [runs_bind, runs_get]
  exact hf s hs

/-- What is neither charged nor held may change. -/
theorem Keeps.event (event : Option EventCharge) :
    Keeps maxRecords maxBytes othersRecords othersBytes
      (modify fun s => (s.1, { s.2 with event := event }) : MeterProg Unit) := by
  intro s hs
  rw [runs_modify]
  exact ⟨hs.balanced, ⟨hs.exact.pooled, hs.exact.records_eq, hs.exact.bytes_eq, hs.exact.records_le,
    hs.exact.retained_le⟩⟩

theorem Keeps.guard {p : Prop} [Decidable p] {e : AdmissionLimit} {x : MeterProg Unit}
    (hx : Keeps maxRecords maxBytes othersRecords othersBytes x) :
    Keeps maxRecords maxBytes othersRecords othersBytes (if p then throw e else x) := by
  split_ifs
  · exact keeps_throw e
  · exact hx

theorem keeps_checkedAdd (a b : Nat) :
    Keeps maxRecords maxBytes othersRecords othersBytes (checkedAdd a b) :=
  fun _ hs => runs_checkedAdd (fun _ => hs) hs

/-- A charge: the lease reserves, then the meter notes it. -/
theorem runs_onLease_reserve {s : AdmissionPool × AdmissionMeter} (records bytes : Nat)
    {post : Except AdmissionLimit Unit → AdmissionPool × AdmissionMeter → Prop}
    (hs : Sound maxRecords maxBytes othersRecords othersBytes s)
    (hfail : ∀ e, post (.error e) s)
    (hok : ∀ pool lease, Balanced maxRecords maxBytes othersRecords othersBytes pool lease →
      lease.pooled = true → lease.records = s.2.records + records →
      lease.bytes = s.2.retained + s.2.transient + bytes → lease.records < 2 ^ 64 →
      lease.bytes < 2 ^ 64 → post (.ok ()) (pool, { s.2 with lease := lease })) :
    Runs (onLease (AdmissionLease.reserve records bytes)) s post := by
  rw [onLease, runs_zoom]
  refine (runs_reserve records bytes hs.balanced).mono ?_
  rintro (e | _) ⟨pool, lease⟩ h
  · rw [onOk_error] at h
    cases h
    exact hfail e
  · rw [onOk_ok] at h
    obtain ⟨hbal, rfl, hlt⟩ := h
    obtain ⟨hlt, hlt'⟩ := hlt hs.exact.pooled
    refine hok pool _ hbal hs.exact.pooled ?_ ?_ hlt hlt'
    · rw [← hs.exact.records_eq]
    · rw [← hs.exact.bytes_eq]

/-- A release: the lease gives back, then the meter notes it. -/
theorem runs_onLease_release {s : AdmissionPool × AdmissionMeter} (records bytes : Nat)
    {post : Except AdmissionLimit Unit → AdmissionPool × AdmissionMeter → Prop}
    (hs : Sound maxRecords maxBytes othersRecords othersBytes s)
    (hok : ∀ pool lease, Balanced maxRecords maxBytes othersRecords othersBytes pool lease →
      lease.pooled = true → lease.records = s.2.records - records →
      lease.bytes = s.2.retained + s.2.transient - bytes →
        post (.ok ()) (pool, { s.2 with lease := lease })) :
    Runs (onLease (AdmissionLease.release records bytes)) s post := by
  rw [onLease, runs_zoom]
  refine (runs_release records bytes hs.balanced).mono ?_
  rintro r ⟨pool, lease⟩ ⟨rfl, hbal, rfl⟩
  refine hok pool _ hbal hs.exact.pooled ?_ ?_
  · rw [← hs.exact.records_eq]
  · rw [← hs.exact.bytes_eq]

theorem keeps_reserveRetained (bytes : Nat) :
    Keeps maxRecords maxBytes othersRecords othersBytes (AdmissionMeter.reserveRetained bytes) := by
  refine Keeps.get fun s hs => ?_
  rw [runs_bind]
  refine runs_checkedAdd (fun _ => ?_) hs
  rw [onOk_ok]
  split_ifs with hover
  · exact runs_throw.mpr hs
  · rw [runs_bind]
    refine runs_onLease_reserve 0 bytes hs (fun _ => hs) ?_
    intro pool lease hbal hpooled hrecords hbytes _ _
    rw [onOk_ok, runs_modify]
    refine ⟨hbal, ⟨hpooled, hrecords, ?_, hs.exact.records_le, Nat.not_lt.mp hover⟩⟩
    dsimp only
    omega

theorem keeps_reserveRecord :
    Keeps maxRecords maxBytes othersRecords othersBytes AdmissionMeter.reserveRecord := by
  refine Keeps.get fun s hs => ?_
  dsimp only
  split_ifs with hover
  · exact runs_throw.mpr hs
  · rw [runs_bind]
    refine runs_onLease_reserve 1 0 hs (fun _ => hs) ?_
    intro pool lease hbal hpooled hrecords hbytes hlt _
    rw [onOk_ok, runs_bind, runs_get, onOk_ok, runs_bind,
      runs_addChecked (by rw [← hrecords]; exact hlt), onOk_ok, runs_modify]
    refine ⟨hbal, ⟨hpooled, hrecords, hbytes, ?_, hs.exact.retained_le⟩⟩
    dsimp only
    omega

theorem keeps_reserveTransient (bytes : Nat) :
    Keeps maxRecords maxBytes othersRecords othersBytes
      (AdmissionMeter.reserveTransient bytes) := by
  intro s hs
  unfold AdmissionMeter.reserveTransient
  split_ifs with hover
  · exact runs_throw.mpr hs
  · rw [runs_bind]
    refine runs_onLease_reserve 0 bytes hs (fun _ => hs) ?_
    intro pool lease hbal hpooled hrecords hbytes _ hlt
    rw [onOk_ok, runs_bind, runs_get, onOk_ok, runs_bind, runs_addChecked (by dsimp only; omega),
      onOk_ok, runs_modify]
    refine ⟨hbal, ⟨hpooled, hrecords, ?_, hs.exact.records_le, hs.exact.retained_le⟩⟩
    dsimp only
    omega

/-- Giving back never fails. -/
theorem runs_releaseTransient {s : AdmissionPool × AdmissionMeter} (bytes : Nat)
    (hs : Sound maxRecords maxBytes othersRecords othersBytes s) :
    Runs (AdmissionMeter.releaseTransient bytes) s fun r t =>
      r = .ok () ∧ Sound maxRecords maxBytes othersRecords othersBytes t := by
  unfold AdmissionMeter.releaseTransient
  rw [runs_bind, runs_get, onOk_ok, runs_bind]
  refine runs_onLease_release 0 _ hs ?_
  intro pool lease hbal hpooled hrecords hbytes
  rw [onOk_ok, runs_bind, runs_get, onOk_ok, runs_bind, runs_subChecked (by dsimp only; omega),
    onOk_ok, runs_modify]
  refine ⟨rfl, hbal, ⟨hpooled, hrecords, ?_, hs.exact.records_le, hs.exact.retained_le⟩⟩
  dsimp only
  omega

theorem runs_abandonEvent {s : AdmissionPool × AdmissionMeter}
    (hs : Sound maxRecords maxBytes othersRecords othersBytes s) :
    Runs AdmissionMeter.abandonEvent s fun r t =>
      r = .ok () ∧ Sound maxRecords maxBytes othersRecords othersBytes t := by
  unfold AdmissionMeter.abandonEvent
  rw [runs_bind, runs_get, onOk_ok]
  cases hev : s.2.event with
  | none => exact runs_pure.mpr ⟨rfl, hs⟩
  | some ev =>
    dsimp only
    rw [runs_bind, runs_modify, onOk_ok, runs_bind, runs_get, onOk_ok, runs_bind]
    have hs' : Sound maxRecords maxBytes othersRecords othersBytes
        (s.1, { s.2 with event := none }) :=
      ⟨hs.balanced, ⟨hs.exact.pooled, hs.exact.records_eq, hs.exact.bytes_eq, hs.exact.records_le,
        hs.exact.retained_le⟩⟩
    refine runs_onLease_release 0 _ hs' ?_
    intro pool lease hbal hpooled hrecords hbytes
    rw [onOk_ok, runs_bind, runs_get, onOk_ok, runs_bind, runs_subChecked (by dsimp only; omega),
      onOk_ok, runs_modify]
    have hle := hs.exact.retained_le
    dsimp only at hrecords hbytes
    refine ⟨rfl, hbal, ⟨hpooled, hrecords, ?_, hs.exact.records_le, ?_⟩⟩
    · dsimp only
      omega
    · dsimp only
      omega

theorem keeps_abandonEvent :
    Keeps maxRecords maxBytes othersRecords othersBytes AdmissionMeter.abandonEvent :=
  fun _ hs => (runs_abandonEvent hs).mono fun _ _ h => h.2

theorem keeps_rollback (cp : AdmissionCheckpoint) :
    Keeps maxRecords maxBytes othersRecords othersBytes (AdmissionMeter.rollback cp) := by
  refine Keeps.bind keeps_abandonEvent fun _ => Keeps.get fun s hs => ?_
  dsimp only
  rw [runs_bind]
  refine runs_onLease_release _ _ hs ?_
  intro pool lease hbal hpooled hrecords hbytes
  have hle := hs.exact.records_le
  have hle' := hs.exact.retained_le
  rw [onOk_ok, runs_bind, runs_subChecked (by omega), onOk_ok, runs_bind,
    runs_subChecked (by omega), onOk_ok, runs_modify]
  refine ⟨hbal, ⟨hpooled, hrecords, ?_, ?_, ?_⟩⟩
  · dsimp only
    omega
  · dsimp only
    omega
  · dsimp only
    omega

theorem keeps_chargeDecoded (footprint : Except AdmissionLimit (Nat × Nat)) :
    Keeps maxRecords maxBytes othersRecords othersBytes
      (AdmissionMeter.chargeDecoded footprint) := by
  unfold AdmissionMeter.chargeDecoded
  cases footprint with
  | error e => exact keeps_throw e
  | ok size =>
    dsimp only
    refine Keeps.guard ?_
    refine Keeps.guard ?_
    exact keeps_reserveRetained size.1

theorem keeps_chargeEvent (bytes children : Nat) :
    Keeps maxRecords maxBytes othersRecords othersBytes
      (AdmissionMeter.chargeEvent bytes children) := by
  refine Keeps.get fun s hs => ?_
  refine Keeps.bind (keeps_checkedAdd _ _) (fun nextBytes => ?_) s hs
  refine Keeps.bind (keeps_checkedAdd _ _) fun nextChildren => ?_
  refine Keeps.guard ?_
  refine Keeps.guard ?_
  exact Keeps.bind (keeps_reserveRetained bytes) fun _ => Keeps.event _

/-- **Every operation of a meter keeps the accounts.** -/
theorem keeps_prog (op : MeterOp) :
    Keeps maxRecords maxBytes othersRecords othersBytes op.prog := by
  cases op with
  | reserveTransient bytes => exact keeps_reserveTransient bytes
  | releaseTransient bytes =>
    intro s hs
    exact (runs_releaseTransient bytes hs).mono fun _ _ h => h.2
  | beginEvent => exact Keeps.bind keeps_abandonEvent fun _ => Keeps.event _
  | chargeEvent bytes children => exact keeps_chargeEvent bytes children
  | admitEvent => exact Keeps.bind keeps_reserveRecord fun _ => Keeps.event _
  | abandonEvent => exact keeps_abandonEvent
  | admitDeletion idLen =>
    exact Keeps.bind (keeps_checkedAdd _ _) fun _ =>
      Keeps.bind keeps_reserveRecord fun _ => keeps_reserveRetained _
  | chargeRetained bytes => exact keeps_reserveRetained bytes
  | reserveDecoded => exact keeps_reserveRecord
  | chargeDecoded footprint => exact keeps_chargeDecoded footprint
  | admitMaterialized footprint =>
    exact Keeps.bind keeps_reserveRecord fun _ => keeps_chargeDecoded footprint
  | rollback cp => exact keeps_rollback cp

/-- A finished fetch hands on a lease on the same pool. -/
theorem runs_intoLease {s : AdmissionPool × AdmissionMeter}
    (hs : Sound maxRecords maxBytes othersRecords othersBytes s) :
    Runs AdmissionMeter.intoLease s fun r t =>
      ∃ lease, r = .ok lease ∧ Balanced maxRecords maxBytes othersRecords othersBytes t.1
        lease := by
  unfold AdmissionMeter.intoLease
  rw [runs_bind]
  refine (runs_abandonEvent hs).mono ?_
  rintro r t ⟨rfl, ht⟩
  rw [onOk_ok, runs_bind, runs_get, onOk_ok, runs_bind]
  refine (runs_releaseTransient _ ht).mono ?_
  rintro r u ⟨rfl, hu⟩
  rw [onOk_ok, runs_bind, runs_get, onOk_ok, runs_bind, runs_modify, onOk_ok, runs_bind, onLease,
    runs_zoom, AdmissionLease.drop, runs_bind, runs_get, onOk_ok]
  -- with the lease gone the meter holds nothing, so the pool counts the lease for others
  have hempty : Balanced maxRecords maxBytes (othersRecords + u.2.lease.records)
      (othersBytes + u.2.lease.bytes) u.1 .empty :=
    ⟨hu.balanced.maxRecords_eq, hu.balanced.maxBytes_eq, hu.balanced.records_eq,
      hu.balanced.bytes_eq, hu.balanced.records_le, hu.balanced.bytes_le, hu.balanced.unsaturated,
      fun _ => ⟨rfl, rfl⟩⟩
  refine (runs_release _ _ hempty).mono ?_
  rintro r ⟨pool, lease⟩ ⟨rfl, hpool, rfl⟩
  rw [onOk_ok, runs_pure]
  exact ⟨u.2.lease, rfl, hpool.maxRecords_eq, hpool.maxBytes_eq, hpool.records_eq, hpool.bytes_eq,
    hpool.records_le, hpool.bytes_le, hpool.unsaturated, hu.balanced.unpooled⟩

/-! ## Any number of holders -/

def Holder.Exact : Holder → Prop
  | .meter m => m.Exact
  | .lease _ => True

/-- What is held by what is left. -/
def heldBy : Option Holder → AdmissionLease
  | some h => h.held
  | none => .empty

/-- **Every operation of a holder keeps the accounts.** -/
theorem act_keeps {pool : AdmissionPool} {h : Holder} (op : HolderOp)
    (hbal : Balanced maxRecords maxBytes othersRecords othersBytes pool h.held) (hexact : h.Exact) :
    ∃ pool' left, op.act pool h = some (pool', left) ∧
      Balanced maxRecords maxBytes othersRecords othersBytes pool' (heldBy left) ∧
      ∀ h' ∈ left, h'.Exact := by
  have hnothing : ∃ pool' left, some (pool, some h) = some (pool', left) ∧
      Balanced maxRecords maxBytes othersRecords othersBytes pool' (heldBy left) ∧
      ∀ h' ∈ left, h'.Exact := by
    refine ⟨pool, some h, rfl, hbal, ?_⟩
    rintro h' ⟨⟩
    exact hexact
  have hdrop : ∃ pool' left,
      ((exec AdmissionLease.drop (pool, h.held)).map fun r => (r.2.1, (none : Option Holder))) =
        some (pool', left) ∧
      Balanced maxRecords maxBytes othersRecords othersBytes pool' (heldBy left) ∧
      ∀ h' ∈ left, h'.Exact := by
    have hrun : Runs AdmissionLease.drop (pool, h.held) fun _ t =>
        Balanced maxRecords maxBytes othersRecords othersBytes t.1 .empty := by
      unfold AdmissionLease.drop
      rw [runs_bind, runs_get, onOk_ok]
      refine (runs_release h.held.records h.held.bytes hbal).mono ?_
      rintro r ⟨p, l⟩ ⟨-, hp, rfl⟩
      have hr := hp.records_eq
      have hb := hp.bytes_eq
      dsimp only at hr hb
      rw [Nat.sub_self] at hr hb
      exact ⟨hp.maxRecords_eq, hp.maxBytes_eq, hr, hb, hp.records_le, hp.bytes_le, hp.unsaturated,
        fun _ => ⟨rfl, rfl⟩⟩
    obtain ⟨r, t, hx, ht⟩ := hrun
    refine ⟨t.1, none, by rw [hx]; rfl, ht, ?_⟩
    rintro h' ⟨⟩
  cases h with
  | meter m =>
    have hs : Sound maxRecords maxBytes othersRecords othersBytes (pool, m) := ⟨hbal, hexact⟩
    cases op with
    | meter op =>
      obtain ⟨r, t, hx, ht⟩ := keeps_prog op _ hs
      refine ⟨t.1, some (.meter t.2), by rw [HolderOp.act, hx]; rfl, ht.balanced, ?_⟩
      rintro h' ⟨⟩
      exact ht.exact
    | intoLease =>
      obtain ⟨r, t, hx, lease, rfl, ht⟩ := runs_intoLease hs
      refine ⟨t.1, some (.lease lease), by rw [HolderOp.act, hx]; rfl, ht, ?_⟩
      rintro h' ⟨⟩
      trivial
    | reserve records bytes => exact hnothing
    | drop => exact hdrop
  | lease l =>
    cases op with
    | meter op => exact hnothing
    | intoLease => exact hnothing
    | reserve records bytes =>
      obtain ⟨r, t, hx, ht⟩ := runs_reserve records bytes hbal
      have hbal' : Balanced maxRecords maxBytes othersRecords othersBytes t.1 t.2 := by
        cases r with
        | error e =>
          rw [onOk_error] at ht
          rw [ht]
          exact hbal
        | ok _ => exact ht.1
      refine ⟨t.1, some (.lease t.2), by rw [HolderOp.act]; exact congrArg _ hx, hbal', ?_⟩
      rintro h' ⟨⟩
      trivial
    | drop => exact hdrop

/-- The pool counts what its holders hold. -/
structure AdmissionWorld.Exact (maxRecords maxBytes : Nat) (w : AdmissionWorld) : Prop where
  balanced : Balanced maxRecords maxBytes (w.holders.map (·.held.records)).sum
    (w.holders.map (·.held.bytes)).sum w.pool .empty
  holders : ∀ h ∈ w.holders, h.Exact ∧
    (h.held.pooled = false → h.held.records = 0 ∧ h.held.bytes = 0)

theorem sum_eraseIdx {hs : List Holder} {i : Nat} {h : Holder} (hi : hs[i]? = some h)
    (f : Holder → Nat) : (hs.map f).sum = ((hs.eraseIdx i).map f).sum + f h := by
  obtain ⟨hlt, rfl⟩ := List.getElem?_eq_some_iff.mp hi
  rw [eraseIdx_eq_take_drop_succ, map_append, sum_append]
  nth_rewrite 1 [← take_append_drop i hs]
  rw [drop_eq_getElem_cons hlt, map_append, sum_append, map_cons, sum_cons]
  omega

theorem eraseIdx_set {hs : List Holder} {i : Nat} (h : Holder) :
    (hs.set i h).eraseIdx i = hs.eraseIdx i := by
  induction hs generalizing i with
  | nil => rfl
  | cons x hs ih =>
    cases i with
    | zero => rfl
    | succ i =>
      rw [set_cons_succ, eraseIdx_cons_succ, eraseIdx_cons_succ, ih]

/-- One operation of one holder, among all of them. -/
theorem step_holder_keeps {w : AdmissionWorld} (hw : w.Exact maxRecords maxBytes) (i : Nat)
    (op : HolderOp) : ∃ w', w.step (.holder i op) = some w' ∧ w'.Exact maxRecords maxBytes := by
  cases hi : w.holders[i]? with
  | none => exact ⟨w, by rw [AdmissionWorld.step, hi], hw⟩
  | some h =>
    obtain ⟨hexact, hunpooled⟩ := hw.holders h (mem_of_getElem? hi)
    have hbal : Balanced maxRecords maxBytes ((w.holders.eraseIdx i).map (·.held.records)).sum
        ((w.holders.eraseIdx i).map (·.held.bytes)).sum w.pool h.held := by
      have hr := hw.balanced.records_eq
      have hb := hw.balanced.bytes_eq
      rw [sum_eraseIdx hi] at hr hb
      exact ⟨hw.balanced.maxRecords_eq, hw.balanced.maxBytes_eq, hr, hb, hw.balanced.records_le,
        hw.balanced.bytes_le, hw.balanced.unsaturated, hunpooled⟩
    obtain ⟨pool, left, hact, hbal', hleft⟩ := act_keeps op hbal hexact
    refine ⟨_, by rw [AdmissionWorld.step, hi]; dsimp only; rw [hact]; rfl, ?_⟩
    cases left with
    | none =>
      refine ⟨hbal', fun h' hh' => hw.holders h' (mem_of_mem_eraseIdx hh')⟩
    | some h' =>
      have hset : (w.holders.set i h')[i]? = some h' := by
        rw [List.getElem?_set_self (List.getElem?_eq_some_iff.mp hi).choose]
      refine ⟨?_, ?_⟩
      · dsimp only
        rw [sum_eraseIdx hset, sum_eraseIdx hset, eraseIdx_set]
        exact ⟨hbal'.maxRecords_eq, hbal'.maxBytes_eq, hbal'.records_eq, hbal'.bytes_eq,
          hbal'.records_le, hbal'.bytes_le, hbal'.unsaturated, fun _ => ⟨rfl, rfl⟩⟩
      · intro g hg
        rcases mem_or_eq_of_mem_set hg with hg | rfl
        · exact hw.holders g hg
        · exact ⟨hleft _ rfl, hbal'.unpooled⟩

/-- A new holder holds nothing. -/
theorem exact_new_holder {w : AdmissionWorld} (hw : w.Exact maxRecords maxBytes) {h : Holder}
    (hexact : h.Exact) (hrecords : h.held.records = 0) (hbytes : h.held.bytes = 0) :
    AdmissionWorld.Exact maxRecords maxBytes { w with holders := w.holders ++ [h] } := by
  refine ⟨?_, ?_⟩
  · dsimp only
    rw [map_append, sum_append, map_append, sum_append]
    simp only [map_cons, map_nil, sum_singleton, hrecords, hbytes, Nat.add_zero]
    exact hw.balanced
  · intro g hg
    rcases mem_append.mp hg with hg | hg
    · exact hw.holders g hg
    · rw [mem_singleton.mp hg]
      exact ⟨hexact, fun _ => ⟨hrecords, hbytes⟩⟩

theorem step_keeps {w : AdmissionWorld} (hw : w.Exact maxRecords maxBytes) (op : AdmissionOp) :
    ∃ w', w.step op = some w' ∧ w'.Exact maxRecords maxBytes := by
  cases op with
  | newMeter budget =>
    refine ⟨_, rfl, exact_new_holder hw ?_ rfl rfl⟩
    exact ⟨rfl, rfl, rfl, Nat.zero_le _, Nat.zero_le _⟩
  | emptyLease => exact ⟨_, rfl, exact_new_holder hw trivial rfl rfl⟩
  | holder i op => exact step_holder_keeps hw i op

theorem exact_new (maxRecords maxBytes : Nat) :
    (AdmissionWorld.new maxRecords maxBytes).Exact maxRecords maxBytes :=
  ⟨⟨rfl, rfl, rfl, rfl, Nat.zero_le _, Nat.zero_le _, rfl, fun _ => ⟨rfl, rfl⟩⟩,
    fun _ h => absurd h not_mem_nil⟩

theorem run_keeps (ops : List AdmissionOp) {w : AdmissionWorld} (hw : w.Exact maxRecords maxBytes) :
    ∃ w', Run.run AdmissionWorld.step w ops = some w' ∧ w'.Exact maxRecords maxBytes := by
  induction ops generalizing w with
  | nil => exact ⟨w, rfl, hw⟩
  | cons op ops ih =>
    obtain ⟨t, hstep, ht⟩ := step_keeps hw op
    obtain ⟨w', hrun, hw'⟩ := ih ht
    exact ⟨w', Run.run_cons.mpr ⟨t, hstep, hrun⟩, hw'⟩

/-- **Admission accounting is exact.** Whatever operations the meters and leases of a pool make,
none panics; the pool counts what its leases hold, never more than its maxima, and no release has
asked for more than was there; the lease of a meter holds what the meter has charged, within its
budget; and when all are dropped the pool counts nothing. -/
theorem admission_exact (maxRecords maxBytes : Nat) (ops : List AdmissionOp) :
    ∃ w, Run.run AdmissionWorld.step (.new maxRecords maxBytes) ops = some w ∧
      (w.pool.records = (w.holders.map (·.held.records)).sum ∧
        w.pool.bytes = (w.holders.map (·.held.bytes)).sum) ∧
      (w.pool.records ≤ maxRecords ∧ w.pool.bytes ≤ maxBytes) ∧
      (∀ m, .meter m ∈ w.holders →
        m.lease.records = m.records ∧ m.lease.bytes = m.retained + m.transient ∧
          m.records ≤ m.budget.maxEvents ∧ m.retained ≤ m.budget.accountBytes) ∧
      w.pool.saturated = false ∧ (w.holders = [] → w.pool.records = 0 ∧ w.pool.bytes = 0) := by
  obtain ⟨w, hrun, hw⟩ := run_keeps ops (exact_new maxRecords maxBytes)
  refine ⟨w, hrun, ⟨hw.balanced.records_eq, hw.balanced.bytes_eq⟩,
    ⟨hw.balanced.records_le, hw.balanced.bytes_le⟩, ?_, hw.balanced.unsaturated, ?_⟩
  · intro m hm
    have hexact := (hw.holders _ hm).1
    exact ⟨hexact.records_eq, hexact.bytes_eq, hexact.records_le, hexact.retained_le⟩
  · intro hnone
    have hr := hw.balanced.records_eq
    have hb := hw.balanced.bytes_eq
    rw [hnone] at hr hb
    exact ⟨hr, hb⟩

end Thegn.Calendar

import Thegn.PrQueue.World

set_option autoImplicit false

/-! # One PR agent for each row, and an exact budget

`RowInv` ties a row to its ledger: the owner's token is the one of the last admission, no token is
given out twice, the attempts are the value last set, the admissions since and less the refunds, and
while a lease is live its admission is among those that count. Each kind of write keeps it, so every
run does (`Inv.step`).
-/

namespace Thegn.PrQueue

open Text Table Run List

/-! ## The invariant -/

def Ledger.tokens (l : Ledger) : List Text := l.leases.map (·.ownerToken)

def Ledger.counted (l : Ledger) : List Text := l.admitted.map (·.token)

structure RowInv (row : PrRow) (l : Ledger) (clock : Int) (used : List Text) : Prop where
  owner : ∀ token, row.claimOwner = some token → ∃ lease rest, l.leases = lease :: rest
    ∧ lease.ownerToken = token ∧ lease.generation = row.claimGeneration
  nodup : l.tokens.Nodup
  used_mem : ∀ token ∈ l.tokens, token ∈ used
  counted_prefix : l.counted <+: l.tokens
  refunded_mem : ∀ token ∈ l.refunded, token ∈ l.counted
  refunded_nodup : l.refunded.Nodup
  attempts : row.agentAttempts + l.refunded.length = l.base + l.admitted.length
  held : ∀ token stop, row.claimOwner = some token → row.claimLeaseUntilMs = some stop →
    clock ≤ stop → row.agentAttempts ≤ 0 ∨ token ∈ l.counted ∧ token ∉ l.refunded
  bounded : ∀ a rest, l.admitted = a :: rest → l.admitted.length ≤ l.refunded.length + a.maxAttempts

/-- The invariant of all rows; two rows have no token in common. -/
structure Inv (w : World) : Prop where
  rows : ∀ k row, w.db.rows.lookup k = some row → RowInv row (w.ledgers k) w.clock w.used
  apart : ∀ k k' row row', w.db.rows.lookup k = some row → w.db.rows.lookup k' = some row' →
    ∀ token ∈ (w.ledgers k).tokens, token ∈ (w.ledgers k').tokens → k = k'

/-! ## Writes to a row -/

section

variable {row row' : PrRow} {l : Ledger} {clock clock' : Int} {used used' : List Text}

theorem RowInv.mono (h : RowInv row l clock used) (hclock : clock ≤ clock') (hused : used ⊆ used') :
    RowInv row l clock' used' where
  owner := h.owner
  nodup := h.nodup
  used_mem := fun token ht => hused (h.used_mem token ht)
  counted_prefix := h.counted_prefix
  refunded_mem := h.refunded_mem
  refunded_nodup := h.refunded_nodup
  attempts := h.attempts
  held := fun token stop ho hs hle => h.held token stop ho hs (hclock.trans hle)
  bounded := h.bounded

theorem RowInv.token_mem_used (h : RowInv row l clock used) {token : Text}
    (ht : token ∈ l.counted) : token ∈ used := h.used_mem token (h.counted_prefix.subset ht)

/-- A write that leaves claim and attempts alone. -/
theorem RowInv.quiet (h : RowInv row l clock used) (ho : row'.claimOwner = row.claimOwner)
    (hg : row'.claimGeneration = row.claimGeneration)
    (hl : row'.claimLeaseUntilMs = row.claimLeaseUntilMs)
    (ha : row'.agentAttempts = row.agentAttempts) : RowInv row' l clock used where
  owner := by
    rw [ho, hg]
    exact h.owner
  nodup := h.nodup
  used_mem := h.used_mem
  counted_prefix := h.counted_prefix
  refunded_mem := h.refunded_mem
  refunded_nodup := h.refunded_nodup
  attempts := by
    rw [ha]
    exact h.attempts
  held := by
    rw [ho, hl, ha]
    exact h.held
  bounded := h.bounded

/-- The claim is given up. -/
theorem RowInv.free (h : RowInv row l clock used) (ho : row'.claimOwner = none)
    (ha : row'.agentAttempts = row.agentAttempts) : RowInv row' l clock used where
  owner := by
    intro token ht
    rw [ho] at ht
    cases ht
  nodup := h.nodup
  used_mem := h.used_mem
  counted_prefix := h.counted_prefix
  refunded_mem := h.refunded_mem
  refunded_nodup := h.refunded_nodup
  attempts := by
    rw [ha]
    exact h.attempts
  held := by
    intro token stop ht
    rw [ho] at ht
    cases ht
  bounded := h.bounded

/-- The lease is prolonged while it is live. -/
theorem RowInv.prolong (h : RowInv row l clock used) {stop : Int}
    (hlive : row.leaseLive clock = true) :
    RowInv { row with claimLeaseUntilMs := some stop } l clock used where
  owner := h.owner
  nodup := h.nodup
  used_mem := h.used_mem
  counted_prefix := h.counted_prefix
  refunded_mem := h.refunded_mem
  refunded_nodup := h.refunded_nodup
  attempts := h.attempts
  held := by
    intro token _ ho _ _
    simp only [PrRow.leaseLive, Option.any_eq_true, decide_eq_true_eq] at hlive
    obtain ⟨old, hold, hle⟩ := hlive
    exact h.held token old ho hold hle
  bounded := h.bounded

/-- The attempts are set while no agent holds the row, or to `0`. -/
theorem RowInv.reset (h : RowInv row l clock used) {n : Nat} (ho : row'.claimOwner = row.claimOwner)
    (hg : row'.claimGeneration = row.claimGeneration)
    (hl : row'.claimLeaseUntilMs = row.claimLeaseUntilMs) (ha : row'.agentAttempts = n)
    (hn : row.unclaimed clock = true ∨ n = 0) : RowInv row' (l.set n) clock used where
  owner := by
    rw [ho, hg]
    exact h.owner
  nodup := h.nodup
  used_mem := h.used_mem
  counted_prefix := nil_prefix
  refunded_mem := by
    intro token ht
    cases ht
  refunded_nodup := nodup_nil
  attempts := by
    rw [ha]
    rfl
  held := by
    intro token stop ht hs hle
    rw [ho] at ht
    rw [hl] at hs
    left
    rcases hn with hun | rfl
    · simp only [PrRow.unclaimed, ht, hs, Option.isNone_some, Bool.false_or, Option.all_some,
        decide_eq_true_eq] at hun
      omega
    · rw [ha]
      rfl
  bounded := by
    intro a rest h
    cases h

/-- A new row. -/
theorem rowInv_new (ho : row.claimOwner = none) (ha : row.agentAttempts = 0) :
    RowInv row .empty clock used where
  owner := by
    intro token ht
    rw [ho] at ht
    cases ht
  nodup := nodup_nil
  used_mem := by
    intro token ht
    cases ht
  counted_prefix := nil_prefix
  refunded_mem := by
    intro token ht
    cases ht
  refunded_nodup := nodup_nil
  attempts := by
    rw [ha]
    rfl
  held := by
    intro token stop ht
    rw [ho] at ht
    cases ht
  bounded := by
    intro a rest h
    cases h

/-- The attempt of the lease that holds the row is given back. -/
theorem RowInv.refund (h : RowInv row l clock used) {token : Text}
    (howner : row.claimOwner = some token) (hlive : row.leaseLive clock = true)
    (hpos : 0 < row.agentAttempts) (ho : row'.claimOwner = none)
    (ha : row'.agentAttempts = row.agentAttempts - 1) :
    RowInv row' { l with refunded := token :: l.refunded } clock used := by
  simp only [PrRow.leaseLive, Option.any_eq_true, decide_eq_true_eq] at hlive
  obtain ⟨stop, hstop, hle⟩ := hlive
  have hcounts : token ∈ l.counted ∧ token ∉ l.refunded := by
    rcases h.held token stop howner hstop hle with hzero | hc
    · omega
    · exact hc
  refine ⟨?_, h.nodup, h.used_mem, h.counted_prefix, ?_, ?_, ?_, ?_, ?_⟩
  · intro t ht
    rw [ho] at ht
    cases ht
  · intro t ht
    rcases mem_cons.mp ht with rfl | ht
    · exact hcounts.1
    · exact h.refunded_mem t ht
  · exact nodup_cons.mpr ⟨hcounts.2, h.refunded_nodup⟩
  · have heq := h.attempts
    rw [ha]
    simp only [length_cons]
    push_cast
    omega
  · intro t s ht
    rw [ho] at ht
    cases ht
  · intro a rest hadm
    have hb := h.bounded a rest hadm
    simp only [length_cons]
    omega

/-- A new lease is admitted within the budget. -/
theorem RowInv.grant (h : RowInv row l clock used) {lease : PrAgentLease} {max : Nat}
    (hfresh : lease.ownerToken ∉ used) (ho : row'.claimOwner = some lease.ownerToken)
    (hg : row'.claimGeneration = lease.generation)
    (ha : row'.agentAttempts = row.agentAttempts + 1) (hmax : row.agentAttempts < max) :
    RowInv row' { l with
      leases := lease :: l.leases
      admitted := { token := lease.ownerToken, maxAttempts := max } :: l.admitted }
      clock (lease.ownerToken :: used) := by
  refine ⟨?_, ?_, ?_, ?_, ?_, h.refunded_nodup, ?_, ?_, ?_⟩
  · intro token ht
    rw [ho] at ht
    cases ht
    exact ⟨lease, l.leases, rfl, rfl, hg.symm⟩
  · exact nodup_cons.mpr ⟨fun hmem => hfresh (h.used_mem _ hmem), h.nodup⟩
  · intro token ht
    rcases mem_cons.mp ht with rfl | ht
    · exact .head _
    · exact .tail _ (h.used_mem token ht)
  · exact (prefix_cons_inj _).mpr h.counted_prefix
  · intro token ht
    exact .tail _ (h.refunded_mem token ht)
  · have heq := h.attempts
    rw [ha]
    simp only [length_cons]
    push_cast
    omega
  · intro token stop ht _ _
    rw [ho] at ht
    cases ht
    refine .inr ⟨.head _, ?_⟩
    intro hmem
    exact hfresh (h.token_mem_used (h.refunded_mem _ hmem))
  · intro a rest hadm
    cases hadm
    have heq := h.attempts
    simp only [length_cons]
    omega

end

/-! ## Writes to the table -/

section

variable {w : World} {t : Int}

/-- Rows may go; the clock goes on. -/
theorem Inv.restrict (h : Inv w) (ht : w.clock ≤ t) {db : PrDb}
    (hsub : ∀ k row, db.rows.lookup k = some row → w.db.rows.lookup k = some row) :
    Inv { w with db, clock := t } where
  rows := fun k row hk => (h.rows k row (hsub k row hk)).mono ht (List.Subset.refl _)
  apart := fun k k' row row' hk hk' => h.apart k k' row row' (hsub k row hk) (hsub k' row' hk')

theorem Inv.tick (h : Inv w) (ht : w.clock ≤ t) : Inv { w with clock := t } :=
  h.restrict ht fun _ _ hk => hk

/-- One row is written, with its ledger. -/
theorem Inv.put (h : Inv w) (ht : w.clock ≤ t) {used : List Text} (hused : w.used ⊆ used)
    {k : Text} {row : PrRow} {l : Ledger} {ci : Table CiKey CiEntry}
    (hrow : RowInv row l t used)
    (hapart : ∀ k' row', w.db.rows.lookup k' = some row' → k' ≠ k →
      ∀ token ∈ l.tokens, token ∉ (w.ledgers k').tokens) :
    Inv { db := { rows := w.db.rows.insert k row, ci }
          ledgers := Function.update w.ledgers k l
          clock := t
          used } where
  rows := by
    intro k' row' hk'
    dsimp only at hk' ⊢
    by_cases hkk : k' = k
    · subst hkk
      rw [AList.lookup_insert] at hk'
      cases hk'
      rw [Function.update_self]
      exact hrow
    · rw [AList.lookup_insert_ne hkk] at hk'
      rw [Function.update_of_ne hkk]
      exact (h.rows k' row' hk').mono ht hused
  apart := by
    intro k1 k2 row1 row2 h1 h2 token ht1 ht2
    dsimp only at h1 h2 ht1 ht2
    by_cases hk1 : k1 = k
    · by_cases hk2 : k2 = k
      · rw [hk1, hk2]
      · rw [AList.lookup_insert_ne hk2] at h2
        rw [hk1, Function.update_self] at ht1
        rw [Function.update_of_ne hk2] at ht2
        exact absurd ht2 (hapart k2 row2 h2 hk2 token ht1)
    · rw [AList.lookup_insert_ne hk1] at h1
      rw [Function.update_of_ne hk1] at ht1
      by_cases hk2 : k2 = k
      · rw [hk2, Function.update_self] at ht2
        exact absurd ht1 (hapart k1 row1 h1 hk1 token ht2)
      · rw [AList.lookup_insert_ne hk2] at h2
        rw [Function.update_of_ne hk2] at ht2
        exact h.apart k1 k2 row1 row2 h1 h2 token ht1 ht2

/-- The row at `k` has no token of another row. -/
theorem Inv.apart_of_row (h : Inv w) {k : Text} {row : PrRow} (hk : w.db.rows.lookup k = some row) :
    ∀ k' row', w.db.rows.lookup k' = some row' → k' ≠ k →
      ∀ token ∈ (w.ledgers k).tokens, token ∉ (w.ledgers k').tokens := by
  intro k' row' hk' hne token ht ht'
  exact hne (h.apart k' k row' row hk' hk token ht' ht)

/-- An update of one row, without a change of its ledger. -/
theorem Inv.updateWhere (h : Inv w) (ht : w.clock ≤ t) {k : Text} {cond : PrRow → Bool}
    {f : PrRow → PrRow}
    (hf : ∀ row, w.db.rows.lookup k = some row → cond row = true →
      RowInv row (w.ledgers k) t w.used → RowInv (f row) (w.ledgers k) t w.used) :
    Inv { w with
      db := { w.db with rows := (updateWhere w.db.rows k cond f).1 }
      clock := t } := by
  rcases updateWhere_cases w.db.rows k cond f with heq | ⟨row, hk, hc, heq⟩
  · rw [heq]
    exact h.tick ht
  · rw [heq]
    have hrow := (h.rows k row hk).mono ht (List.Subset.refl _)
    have hput := @Inv.put w t h ht w.used (List.Subset.refl _) k (f row) (w.ledgers k) w.db.ci
      (hf row hk hc hrow) (h.apart_of_row hk)
    rwa [Function.update_eq_self] at hput

/-- A row is queued: from the start, or as a new one. -/
theorem Inv.requeue (h : Inv w) (ht : w.clock ≤ t) {k : Text} {row : PrRow}
    {ci : Table CiKey CiEntry}
    (hold : ∀ old, w.db.rows.lookup k = some old → row.claimOwner = old.claimOwner
      ∧ row.claimGeneration = old.claimGeneration
      ∧ row.claimLeaseUntilMs = old.claimLeaseUntilMs)
    (hnew : w.db.rows.lookup k = none → row.claimOwner = none) (ha : row.agentAttempts = 0) :
    Inv { w with
      db := { rows := w.db.rows.insert k row, ci }
      ledgers := Function.update w.ledgers k (requeued w.db.rows k (w.ledgers k))
      clock := t } := by
  unfold requeued
  cases hk : w.db.rows.lookup k with
  | some old =>
    obtain ⟨ho, hg, hl⟩ := hold old hk
    have hrow := (h.rows k old hk).mono ht (List.Subset.refl _)
    exact h.put ht (List.Subset.refl _) (hrow.reset ho hg hl ha (.inr rfl)) (h.apart_of_row hk)
  | none =>
    refine h.put ht (List.Subset.refl _) (rowInv_new (hnew hk) ha) ?_
    intro k' row' _ _ token htok
    cases htok

end

/-! ## The operations -/

section

variable {w : World} {t : Int}

theorem Inv.enqueue (h : Inv w) (ht : w.clock ≤ t) (repo : Text) (number : Nat)
    (wt : Option Text) (branch base forge : Text) :
    Inv { w with
      db := enqueuePr w.db repo number wt branch base forge t
      ledgers := Function.update w.ledgers (makeKey repo forge none number)
        (requeued w.db.rows (makeKey repo forge none number)
          (w.ledgers (makeKey repo forge none number)))
      clock := t } := by
  unfold enqueuePr
  dsimp only
  split
  · rename_i row hk
    refine h.requeue ht ?_ ?_ rfl
    · intro old hold
      rw [hk] at hold
      cases hold
      exact ⟨rfl, rfl, rfl⟩
    · intro hnone
      rw [hk] at hnone
      cases hnone
  · rename_i hk
    refine h.requeue ht ?_ (fun _ => rfl) rfl
    intro old hold
    rw [hk] at hold
    cases hold

theorem enqueueBoundPr_ok {db db' : PrDb} {repo : Text} {number : Nat} {wt : Option Text}
    {branch base forge url : Text}
    (h : enqueueBoundPr db repo number wt branch base forge url t = .ok db') :
    ∃ identity row, repoIdentityFromPrUrl url = some identity ∧
      let key := makeKey repo forge (some identity) number
      let rows := (deleteWhere db.rows (makeKey repo forge none number)
        fun row => row.prUrl.isNone).1
      db' = { db with rows := rows.insert key row } ∧ row.agentAttempts = 0
        ∧ (∀ old, rows.lookup key = some old → row.claimOwner = old.claimOwner
            ∧ row.claimGeneration = old.claimGeneration
            ∧ row.claimLeaseUntilMs = old.claimLeaseUntilMs)
        ∧ (rows.lookup key = none → row.claimOwner = none) := by
  unfold enqueueBoundPr at h
  cases hid : repoIdentityFromPrUrl url with
  | none =>
    rw [hid] at h
    cases h
  | some identity =>
    rw [hid] at h
    simp only [Option.elim_some, bind, Except.bind] at h
    split_ifs at h
    · split at h
      · rename_i row hk
        split_ifs at h
        cases h
        refine ⟨identity, _, rfl, rfl, rfl, ?_, ?_⟩
        · intro old hold
          rw [hk] at hold
          cases hold
          exact ⟨rfl, rfl, rfl⟩
        · intro hnone
          rw [hk] at hnone
          cases hnone
      · rename_i hk
        cases h
        refine ⟨identity, _, rfl, rfl, rfl, ?_, fun _ => rfl⟩
        intro old hold
        rw [hk] at hold
        cases hold

theorem Inv.enqueueBound (h : Inv w) (ht : w.clock ≤ t) (repo : Text) (number : Nat)
    (wt : Option Text) (branch base forge url : Text) :
    Inv { w with
      db := (PrOp.enqueueBound repo number wt branch base forge url).apply w.db t
      ledgers := (PrOp.enqueueBound repo number wt branch base forge url).account w.db w.ledgers t
      clock := t } := by
  unfold PrOp.apply PrOp.account
  dsimp only
  cases hr : enqueueBoundPr w.db repo number wt branch base forge url t with
  | error e => exact h.tick ht
  | ok db' =>
    obtain ⟨identity, row, hid, rfl, ha, hold, hnew⟩ := enqueueBoundPr_ok hr
    rw [hid]
    -- the legacy row goes first
    have hrest : Inv { w with db := { w.db with
        rows := (deleteWhere w.db.rows (makeKey repo forge none number)
          fun row => row.prUrl.isNone).1 } } :=
      h.restrict le_rfl fun k row hk => lookup_deleteWhere hk
    exact hrest.requeue ht hold hnew ha

theorem rebindPr_ok {db db' : PrDb} {oldKey newKey : Text} {binding : PrRebind}
    (h : rebindPr db oldKey binding t = .ok (db', newKey)) :
    ∃ old row, db.rows.lookup oldKey = some old
      ∧ db' = { db with rows := (db.rows.erase oldKey).insert newKey row }
      ∧ row.claimOwner = old.claimOwner ∧ row.claimGeneration = old.claimGeneration
      ∧ row.claimLeaseUntilMs = old.claimLeaseUntilMs
      ∧ row.agentAttempts = old.agentAttempts := by
  unfold rebindPr at h
  cases hid : repoIdentityFromPrUrl binding.prUrl with
  | none =>
    rw [hid] at h
    cases h
  | some identity =>
    cases hold : db.rows.lookup oldKey with
    | none =>
      rw [hid, hold] at h
      cases h
    | some old =>
      rw [hid, hold] at h
      simp only [Option.elim_some, bind, Except.bind] at h
      split_ifs at h
      cases h
      exact ⟨old, _, rfl, rfl, rfl, rfl, rfl, rfl⟩

/-- A row that is rebound takes its ledger to the new key. -/
theorem Inv.rebind (h : Inv w) (ht : w.clock ≤ t) (oldKey : Text) (binding : PrRebind) :
    Inv { w with
      db := (PrOp.rebind oldKey binding).apply w.db t
      ledgers := (PrOp.rebind oldKey binding).account w.db w.ledgers t
      clock := t } := by
  unfold PrOp.apply PrOp.account
  dsimp only
  cases hr : rebindPr w.db oldKey binding t with
  | error e => exact h.tick ht
  | ok r =>
    obtain ⟨db', newKey⟩ := r
    obtain ⟨old, row, hold, rfl, ho, hg, hl, ha⟩ := rebindPr_ok hr
    have herase : ∀ k row', (w.db.rows.erase oldKey).lookup k = some row' →
        k ≠ oldKey ∧ w.db.rows.lookup k = some row' := by
      intro k row' hk
      by_cases hkk : k = oldKey
      · rw [hkk, AList.lookup_erase] at hk
        cases hk
      · rw [AList.lookup_erase_ne hkk] at hk
        exact ⟨hkk, hk⟩
    have hrest : Inv { w with db := { w.db with rows := w.db.rows.erase oldKey } } :=
      h.restrict le_rfl fun k row' hk => (herase k row' hk).2
    have hrow := ((h.rows oldKey old hold).mono ht (List.Subset.refl _)).quiet ho hg hl ha
    refine hrest.put ht (List.Subset.refl _) hrow ?_
    intro k' row' hk' _
    obtain ⟨hne, hk'⟩ := herase k' row' hk'
    exact h.apart_of_row hold k' row' hk' hne

theorem unclaimed_iff_not_live {row : PrRow} :
    row.unclaimed t = true ↔ ¬ (row.claimOwner.isSome = true ∧ row.leaseLive t = true) := by
  unfold PrRow.unclaimed PrRow.leaseLive
  cases row.claimOwner with
  | none => simp
  | some token =>
    cases row.claimLeaseUntilMs with
    | none => simp
    | some stop => simp

theorem decidePrAgentAdmission_ok {row : PrRow} {request : PrAgentAdmit}
    (h : decidePrAgentAdmission row.snapshot request t = .ok ()) :
    row.unclaimed t = true ∧ row.agentAttempts < request.maxAttempts.toNat := by
  unfold decidePrAgentAdmission at h
  split at h
  · cases h
  · split_ifs at h with _ hlive _ _ hmax
    refine ⟨unclaimed_iff_not_live.mpr hlive, ?_⟩
    -- the clamp of the snapshot is above every `u32`
    have hu : request.maxAttempts.toNat < 2 ^ 32 := request.maxAttempts.toNat_lt
    simp only [PrRow.snapshot, not_le] at hmax
    omega

/-- An admission changes nothing, or gives the row to a new lease. -/
theorem admitPrAgent_cases (db : PrDb) (request : PrAgentAdmit) (t : Int) (token : Text) :
    ((admitPrAgent db request t token).1 = db
        ∧ ∀ lease, (admitPrAgent db request t token).2 ≠ .ok (.admitted lease))
      ∨ ∃ row row' ci lease, db.rows.lookup request.key = some row ∧ admitPrAgent db request t token
            = ({ rows := db.rows.insert request.key row', ci }, .ok (.admitted lease))
          ∧ row.unclaimed t = true ∧ row.agentAttempts < request.maxAttempts.toNat
          ∧ lease.ownerToken = token ∧ lease.key = request.key
          ∧ row'.claimOwner = some lease.ownerToken ∧ row'.claimGeneration = lease.generation
          ∧ row'.agentAttempts = row.agentAttempts + 1 := by
  unfold admitPrAgent
  split_ifs with hlease
  · exact .inl ⟨rfl, fun _ h => by cases h⟩
  · split
    · exact .inl ⟨rfl, fun _ h => by cases h⟩
    · rename_i row hk
      dsimp only
      split
      · exact .inl ⟨rfl, fun _ h => by cases h⟩
      · rename_i hok
        obtain ⟨hun, hlt⟩ := decidePrAgentAdmission_ok hok
        rw [updateWhere_of_lookup hk]
        · split_ifs with hci hw
          · exact .inl ⟨rfl, fun _ h => by cases h⟩
          · exact absurd rfl hw
          · exact .inr ⟨row, _, _, _, hk, rfl, hun, hlt, rfl, rfl, rfl, rfl, rfl⟩
        · exact beq_self_eq_true row.claimGeneration

theorem Inv.admission (h : Inv w) (ht : w.clock ≤ t) (request : PrAgentAdmit) {token : Text}
    (hfresh : token ∉ w.used) :
    Inv { db := (PrOp.admission request token).apply w.db t
          ledgers := (PrOp.admission request token).account w.db w.ledgers t
          clock := t
          used := token :: w.used } := by
  unfold PrOp.apply PrOp.account
  dsimp only
  rcases admitPrAgent_cases w.db request t token with ⟨hdb, hno⟩ | hyes
  · rw [hdb]
    split
    · rename_i lease hl
      exact absurd hl (hno lease)
    · have htick := h.tick ht
      exact ⟨fun k row hk => (htick.rows k row hk).mono le_rfl (subset_cons_self _ _), htick.apart⟩
  · obtain ⟨row, row', ci, lease, hk, heq, hun, hlt, htok, hkey, ho, hg, ha⟩ := hyes
    subst htok
    rw [heq]
    have hrow := (h.rows _ row hk).mono ht (List.Subset.refl _)
    refine h.put ht (subset_cons_self _ _) (hrow.grant hfresh ho hg ha hlt) ?_
    intro k' r hk' hne tok htok hmem
    rcases mem_cons.mp htok with rfl | htok
    · exact hfresh ((h.rows k' r hk').used_mem _ hmem)
    · exact h.apart_of_row hk k' r hk' hne tok htok hmem

theorem Inv.setAttempts (h : Inv w) (ht : w.clock ≤ t) (key : Text) (attempts : UInt32) :
    Inv { w with
      db := (PrOp.setAttempts key attempts).apply w.db t
      ledgers := (PrOp.setAttempts key attempts).account w.db w.ledgers t
      clock := t } := by
  unfold PrOp.apply PrOp.account setPrAgentAttempts updateUnclaimed
  dsimp only
  rcases updateWhere_cases w.db.rows key (fun row => row.unclaimed t)
      (fun row => { row with agentAttempts := attempts.toNat, updatedAt := t / 1000 })
    with heq | ⟨row, hk, hc, heq⟩
  · rw [heq]
    exact h.tick ht
  · rw [heq, if_pos rfl]
    have hrow := (h.rows key row hk).mono ht (List.Subset.refl _)
    exact h.put ht (List.Subset.refl _) (hrow.reset rfl rfl rfl rfl (.inl hc)) (h.apart_of_row hk)

/-! ### Writes under a lease -/

theorem updateHeld_cases (db : PrDb) (lease : PrAgentLease) (cond : PrRow → Bool)
    (f : PrRow → PrRow) :
    updateHeld db lease cond f = (db, false)
      ∨ ∃ row, db.rows.lookup lease.key = some row ∧ row.heldBy lease = true ∧ cond row = true
          ∧ updateHeld db lease cond f
            = ({ db with rows := db.rows.insert lease.key (f row) }, true) := by
  unfold updateHeld
  rcases updateWhere_cases db.rows lease.key (fun row => row.heldBy lease && cond row) f
    with heq | ⟨row, hk, hc, heq⟩
  · rw [heq]
    exact .inl rfl
  · rw [heq]
    rw [Bool.and_eq_true] at hc
    exact .inr ⟨row, hk, hc.1, hc.2, rfl⟩

theorem Inv.updateHeld (h : Inv w) (ht : w.clock ≤ t) {lease : PrAgentLease} {cond : PrRow → Bool}
    {f : PrRow → PrRow}
    (hf : ∀ row, cond row = true → RowInv row (w.ledgers lease.key) t w.used →
      RowInv (f row) (w.ledgers lease.key) t w.used) :
    Inv { w with db := (updateHeld w.db lease cond f).1, clock := t } := by
  refine h.updateWhere ht ?_
  intro row _ hc hrow
  rw [Bool.and_eq_true] at hc
  exact hf row hc.2 hrow

@[simp] theorem finished_claimOwner (row : PrRow) (status detail : Text) (now : Int) :
    (row.finished status detail now).claimOwner = row.claimOwner := by
  unfold PrRow.finished
  split_ifs <;> rfl

@[simp] theorem finished_agentAttempts (row : PrRow) (status detail : Text) (now : Int) :
    (row.finished status detail now).agentAttempts = row.agentAttempts := by
  unfold PrRow.finished
  split_ifs <;> rfl

theorem renewPrAgent_fst (db : PrDb) (lease : PrAgentLease) (stop : Int) :
    (renewPrAgent db lease stop t).1 = db ∨ (renewPrAgent db lease stop t).1
        = (PrQueue.updateHeld db lease (fun row => row.leaseLive t)
            fun row => { row with claimLeaseUntilMs := some stop }).1 := by
  unfold renewPrAgent
  dsimp only
  split_ifs
  · exact .inl rfl
  · exact .inr rfl
  · exact .inl rfl

theorem Inv.renew (h : Inv w) (ht : w.clock ≤ t) (lease : PrAgentLease) (stop : Int) :
    Inv { w with db := (renewPrAgent w.db lease stop t).1, clock := t } := by
  rcases renewPrAgent_fst w.db lease stop with heq | heq
  · rw [heq]
    exact h.tick ht
  · rw [heq]
    exact h.updateHeld ht fun row hlive hrow => hrow.prolong hlive

theorem Inv.release (h : Inv w) (ht : w.clock ≤ t) (lease : PrAgentLease)
    (finished : Option (Text × Text)) :
    Inv { w with db := (releasePrAgent w.db lease finished t).1, clock := t } := by
  unfold releasePrAgent
  refine h.updateHeld ht ?_
  intro row _ hrow
  cases finished with
  | none => exact hrow.free rfl rfl
  | some r => exact hrow.free (finished_claimOwner ..) (finished_agentAttempts ..)

theorem Inv.refund (h : Inv w) (ht : w.clock ≤ t) (lease : PrAgentLease) (status detail : Text) :
    Inv { w with
      db := (PrOp.refund lease status detail).apply w.db t
      ledgers := (PrOp.refund lease status detail).account w.db w.ledgers t
      clock := t } := by
  unfold PrOp.apply PrOp.account refundPrAgentAttempt
  dsimp only
  split_ifs
  · exact h.tick ht
  · rcases updateHeld_cases w.db lease
        (fun row => row.leaseLive t && row.agentAttempts == lease.attempt
          && decide (0 < row.agentAttempts))
        (fun row => { row.freed.finished status detail (t / 1000) with
          agentAttempts := row.agentAttempts - 1 })
      with heq | ⟨row, hk, hheld, hc, heq⟩
    · rw [heq]
      exact h.tick ht
    · rw [heq]
      simp only [PrRow.heldBy, Bool.and_eq_true, beq_iff_eq, decide_eq_true_eq] at hheld hc
      have hrow := (h.rows _ row hk).mono ht (List.Subset.refl _)
      refine h.put ht (List.Subset.refl _) ?_ (h.apart_of_row hk)
      exact hrow.refund hheld.1 hc.1.1 hc.2 (finished_claimOwner ..) rfl

theorem Inv.recordHead (h : Inv w) (ht : w.clock ≤ t) (lease : PrAgentLease)
    (admittedHead ownHead : Text) :
    Inv { w with db := (recordPrAgentHead w.db lease admittedHead ownHead t).1, clock := t } := by
  unfold recordPrAgentHead
  split_ifs
  · exact h.tick ht
  · exact h.updateHeld ht fun row _ hrow => hrow.quiet rfl rfl rfl rfl

end

/-! ## Runs -/

/-- Every operation keeps the invariant. -/
theorem Inv.step {w w' : World} {m : PrOp × Int} (h : Inv w) (hstep : prStep w m = some w') :
    Inv w' := by
  unfold prStep at hstep
  split_ifs at hstep with hguard
  cases hstep
  obtain ⟨op, t⟩ := m
  obtain ⟨ht, hfresh⟩ := hguard
  dsimp only at ht hfresh ⊢
  cases op with
  | enqueue repo number wt branch base forge => exact h.enqueue ht repo number wt branch base forge
  | enqueueBound repo number wt branch base forge url =>
    exact h.enqueueBound ht repo number wt branch base forge url
  | rebind oldKey binding => exact h.rebind ht oldKey binding
  | updateStatus key status blocker detail head =>
    exact h.updateWhere ht fun row _ _ hrow => hrow.quiet rfl rfl rfl rfl
  | updateDetail key detail =>
    exact h.updateWhere ht fun row _ _ hrow => hrow.quiet rfl rfl rfl rfl
  | setAttempts key attempts => exact h.setAttempts ht key attempts
  | admission request token => exact h.admission ht request (hfresh token rfl)
  | renew lease stop => exact h.renew ht lease stop
  | release lease finished => exact h.release ht lease finished
  | refund lease status detail => exact h.refund ht lease status detail
  | recordHead lease admittedHead ownHead => exact h.recordHead ht lease admittedHead ownHead
  | recordOutcome lease outcome =>
    exact h.updateHeld ht fun row _ hrow => hrow.quiet rfl rfl rfl rfl
  | reap key generation detail =>
    exact h.updateWhere ht fun row _ _ hrow =>
      hrow.free (finished_claimOwner ..) (finished_agentAttempts ..)
  | reserveCiRerun key expectedHead head =>
    exact h.updateWhere ht fun row _ _ hrow => hrow.quiet rfl rfl rfl rfl
  | remove key => exact h.restrict ht fun k row hk => lookup_deleteWhere hk
  | clear repo =>
    refine h.restrict ht fun k row hk => ?_
    dsimp only [PrOp.apply, clearPrQueue] at hk
    exact lookup_deleteAll hk

theorem inv_init (clock : Int) : Inv (World.init clock) where
  rows := by
    intro k row hk
    cases hk
  apart := by
    intro k k' row row' hk
    cases hk

theorem Inv.run {clock : Int} {w : World} {ops : List (PrOp × Int)}
    (h : Run.run prStep (World.init clock) ops = some w) : Inv w :=
  run_induction (fun _ _ _ hinv hstep => hinv.step hstep) (inv_init clock) h

/-- A write under a lease succeeds on the row that is held under it, or changes nothing. -/
theorem lease_write_cases (op : PrOp) (db : PrDb) (t : Int) {lease : PrAgentLease}
    (hop : op.lease = some lease) :
    (op.succeeds db t = false ∧ op.apply db t = db)
      ∨ ∃ row, db.rows.lookup lease.key = some row ∧ row.heldBy lease = true := by
  cases op with
  | renew l stop =>
    cases hop
    unfold PrOp.succeeds PrOp.apply renewPrAgent
    dsimp only
    split_ifs with hvalid hr
    · exact .inl ⟨rfl, rfl⟩
    · rcases updateHeld_cases db lease (fun row => row.leaseLive t)
          (fun row => { row with claimLeaseUntilMs := some stop }) with heq | ⟨row, hk, hheld, _⟩
      · rw [heq] at hr
        cases hr
      · exact .inr ⟨row, hk, hheld⟩
    · exact .inl ⟨rfl, rfl⟩
  | release l finished =>
    cases hop
    rcases updateHeld_cases db lease _ _ with heq | ⟨row, hk, hheld, _⟩
    · exact .inl ⟨congrArg Prod.snd heq, congrArg Prod.fst heq⟩
    · exact .inr ⟨row, hk, hheld⟩
  | refund l status detail =>
    cases hop
    unfold PrOp.succeeds PrOp.apply refundPrAgentAttempt
    dsimp only
    split_ifs
    · exact .inl ⟨rfl, rfl⟩
    · rcases updateHeld_cases db lease _ _ with heq | ⟨row, hk, hheld, _⟩
      · left
        rw [heq]
        exact ⟨rfl, rfl⟩
      · exact .inr ⟨row, hk, hheld⟩
  | recordHead l admittedHead ownHead =>
    cases hop
    unfold PrOp.succeeds PrOp.apply recordPrAgentHead
    dsimp only
    split_ifs
    · exact .inl ⟨rfl, rfl⟩
    · rcases updateHeld_cases db lease _ _ with heq | ⟨row, hk, hheld, _⟩
      · left
        rw [heq]
        exact ⟨rfl, rfl⟩
      · exact .inr ⟨row, hk, hheld⟩
  | recordOutcome l outcome =>
    cases hop
    rcases updateHeld_cases db lease _ _ with heq | ⟨row, hk, hheld, _⟩
    · exact .inl ⟨congrArg Prod.snd heq, congrArg Prod.fst heq⟩
    · exact .inr ⟨row, hk, hheld⟩
  | _ => cases hop

/-- The lease of a write that succeeds is the last one admitted on the row. -/
theorem Inv.newest_of_succeeds {w : World} (h : Inv w) {op : PrOp} {t : Int} {lease : PrAgentLease}
    (hop : op.lease = some lease) (hs : op.succeeds w.db t = true) :
    ∃ row newest rest, w.db.rows.lookup lease.key = some row
      ∧ (w.ledgers lease.key).leases = newest :: rest
      ∧ newest.ownerToken = lease.ownerToken ∧ newest.generation = lease.generation := by
  rcases lease_write_cases op w.db t hop with ⟨hfail, _⟩ | ⟨row, hk, hheld⟩
  · rw [hfail] at hs
    cases hs
  · simp only [PrRow.heldBy, Bool.and_eq_true, beq_iff_eq] at hheld
    obtain ⟨newest, rest, hl, htok, hgen⟩ := (h.rows _ row hk).owner _ hheld.1
    exact ⟨row, newest, rest, hk, hl, htok, hgen.trans hheld.2⟩

/-- A write with the token of an earlier lease of some row fails, under whatever key. -/
theorem Inv.earlier_fails {w : World} (h : Inv w) {k : Text} {row : PrRow}
    {newest earlier : PrAgentLease} {rest : List PrAgentLease} (hk : w.db.rows.lookup k = some row)
    (hl : (w.ledgers k).leases = newest :: rest) (hmem : earlier ∈ rest) {op : PrOp} {t : Int}
    {lease : PrAgentLease} (hop : op.lease = some lease)
    (htok : lease.ownerToken = earlier.ownerToken) :
    op.succeeds w.db t = false ∧ op.apply w.db t = w.db := by
  rcases lease_write_cases op w.db t hop with hfail | ⟨row', hk', hheld⟩
  · exact hfail
  · exfalso
    simp only [PrRow.heldBy, Bool.and_eq_true, beq_iff_eq] at hheld
    obtain ⟨newest', rest', hl', htok', _⟩ := (h.rows _ row' hk').owner _ hheld.1
    have hearly : earlier.ownerToken ∈ rest.map (·.ownerToken) := mem_map_of_mem hmem
    have htokens : (w.ledgers k).tokens = newest.ownerToken :: rest.map (·.ownerToken) := by
      rw [Ledger.tokens, hl, map_cons]
    have hhead : earlier.ownerToken ∈ (w.ledgers lease.key).tokens := by
      rw [Ledger.tokens, hl', map_cons, htok', htok]
      exact .head _
    have hkey : k = lease.key := by
      refine h.apart k lease.key row row' hk hk' earlier.ownerToken ?_ hhead
      rw [htokens]
      exact .tail _ hearly
    -- so the token stands twice in the ledger
    subst hkey
    have hnodup := (h.rows _ row hk).nodup
    rw [hl] at hl'
    cases hl'
    rw [htokens, nodup_cons, htok', htok] at hnodup
    exact hnodup.1 hearly

/-- All attempts were last set to `0`. -/
def FromZero (ledgers : Text → Ledger) : Prop := ∀ k, (ledgers k).base = 0

theorem FromZero.update {ledgers : Text → Ledger} (h : FromZero ledgers) (key : Text) {l : Ledger}
    (hl : l.base = 0) : FromZero (Function.update ledgers key l) := by
  intro k
  by_cases hk : k = key
  · rw [hk, Function.update_self]
    exact hl
  · rw [Function.update_of_ne hk]
    exact h k

theorem FromZero.requeued {ledgers : Text → Ledger} (h : FromZero ledgers) (rows : Table Text PrRow)
    (key : Text) : FromZero (Function.update ledgers key (requeued rows key (ledgers key))) := by
  refine h.update key ?_
  unfold PrQueue.requeued
  split_ifs <;> rfl

theorem FromZero.account {ledgers : Text → Ledger} (h : FromZero ledgers) {op : PrOp} (db : PrDb)
    (t : Int) (hset : ∀ k n, op = .setAttempts k n → n = 0) :
    FromZero (op.account db ledgers t) := by
  unfold PrOp.account
  cases op with
  | enqueue repo number wt branch base forge => exact h.requeued db.rows _
  | enqueueBound repo number wt branch base forge url =>
    dsimp only
    split
    · exact h.requeued _ _
    · exact h
  | rebind oldKey binding =>
    dsimp only
    split
    · exact h.update _ (h oldKey)
    · exact h
  | setAttempts key attempts =>
    dsimp only
    split_ifs
    · refine h.update key ?_
      rw [hset key attempts rfl]
      rfl
    · exact h
  | admission request token =>
    dsimp only
    split
    · exact h.update _ (h request.key)
    · exact h
  | refund lease status detail =>
    dsimp only
    split
    · exact h.update _ (h lease.key)
    · exact h
  | _ => exact h

/-- The attempts start from `0` as long as no driver sets them to anything else. -/
theorem fromZero_run {clock : Int} {w : World} {ops : List (PrOp × Int)}
    (h : Run.run prStep (World.init clock) ops = some w)
    (hset : ∀ k n t, (PrOp.setAttempts k n, t) ∈ ops → n = 0) : FromZero w.ledgers := by
  have hstart : FromZero (World.init clock).ledgers := fun _ => rfl
  have hstep : ∀ v : World, ∀ m ∈ ops, ∀ v' : World, FromZero v.ledgers →
      prStep v m = some v' → FromZero v'.ledgers := by
    intro v m hm v' hv hv'
    unfold prStep at hv'
    split_ifs at hv'
    cases hv'
    refine hv.account v.db m.2 ?_
    rintro k n hop
    exact hset k n m.2 (hop ▸ hm)
  have hend := run_induction_mem hstep hstart h
  exact hend

/-- **One agent, an exact budget.** In every run an admission needs a row without a live lease; a
write succeeds only under the last lease admitted on its row, and under an earlier one it changes
nothing; the attempts of a row are the value they were last set to, with the admissions since and
less their refunds, which are as many as the budget allows; and a refused admission leaves rows and
CI candidates as they were. -/
theorem one_agent_exact_budget {clock : Int} {ops : List (PrOp × Int)} {w : World}
    (h : Run.run prStep (World.init clock) ops = some w) :
    (∀ request t token lease, (admitPrAgent w.db request t token).2 = .ok (.admitted lease) →
        ∃ row, w.db.rows.lookup request.key = some row
          ∧ ¬ (row.claimOwner.isSome = true ∧ row.leaseLive t = true))
      ∧ (∀ (op : PrOp) t lease, op.lease = some lease → op.succeeds w.db t = true →
        ∃ row newest rest, w.db.rows.lookup lease.key = some row
          ∧ (w.ledgers lease.key).leases = newest :: rest
          ∧ newest.ownerToken = lease.ownerToken ∧ newest.generation = lease.generation)
      ∧ (∀ k row newest rest, w.db.rows.lookup k = some row →
        (w.ledgers k).leases = newest :: rest → ∀ earlier ∈ rest, ∀ (op : PrOp) t lease,
          op.lease = some lease → lease.ownerToken = earlier.ownerToken →
            op.succeeds w.db t = false ∧ op.apply w.db t = w.db)
      ∧ (∀ k row, w.db.rows.lookup k = some row → row.agentAttempts
            = (w.ledgers k).base + (w.ledgers k).admitted.length - (w.ledgers k).refunded.length
          ∧ (w.ledgers k).refunded.Nodup ∧ (w.ledgers k).refunded ⊆ (w.ledgers k).counted
          ∧ (w.ledgers k).counted.Nodup
          ∧ ∀ max, (∀ a ∈ (w.ledgers k).admitted, a.maxAttempts ≤ max) →
              (w.ledgers k).admitted.length ≤ (w.ledgers k).refunded.length + max)
      ∧ ((∀ k n t, (PrOp.setAttempts k n, t) ∈ ops → n = 0) → ∀ k, (w.ledgers k).base = 0)
      ∧ (∀ request t token,
        (∀ lease, (admitPrAgent w.db request t token).2 ≠ .ok (.admitted lease)) →
          (admitPrAgent w.db request t token).1 = w.db) := by
  have hinv : Inv w := Inv.run h
  refine ⟨?_, fun op t lease => hinv.newest_of_succeeds, ?_, ?_, fromZero_run h, ?_⟩
  · intro request t token lease hadm
    rcases admitPrAgent_cases w.db request t token with ⟨_, hno⟩ | hyes
    · exact absurd hadm (hno lease)
    · obtain ⟨row, _, _, _, hk, _, hun, _⟩ := hyes
      exact ⟨row, hk, unclaimed_iff_not_live.mp hun⟩
  · intro k row newest rest hk hl earlier hmem op t lease hop htok
    exact hinv.earlier_fails hk hl hmem hop htok
  · intro k row hk
    have hrow := hinv.rows k row hk
    refine ⟨?_, hrow.refunded_nodup, hrow.refunded_mem, ?_, ?_⟩
    · have heq := hrow.attempts
      omega
    · exact hrow.nodup.sublist hrow.counted_prefix.sublist
    · intro max hmax
      cases hadm : (w.ledgers k).admitted with
      | nil => exact Nat.zero_le _
      | cons a rest =>
        have hle := hrow.bounded a rest hadm
        have ha : a.maxAttempts ≤ max := hmax a (by rw [hadm]; exact .head _)
        rw [hadm] at hle
        omega
  · intro request t token hno
    rcases admitPrAgent_cases w.db request t token with ⟨hdb, _⟩ | hyes
    · exact hdb
    · obtain ⟨_, _, _, lease, _, heq, _⟩ := hyes
      exact absurd (congrArg Prod.snd heq) (hno lease)

/-- A request for PR 7 that has used `attempts` of two. -/
def sampleRequest (attempts : UInt32) : PrAgentAdmit :=
  { key := "/r#7".toList, expectedAttempts := attempts, expectedCheckoutGen := 0, maxAttempts := 2
    head := "a1".toList, blocker := "ci".toList, detail := "red".toList, leaseUntilMs := 9000
    ownerHint := none, ciCandidate := none }

def sampleLease : PrAgentLease :=
  { key := "/r#7".toList, generation := 1, attempt := 1, leaseUntilMs := 9000
    ownerToken := "t1".toList }

/-- A first lease that runs out, and a second one. -/
def sampleOps : List (PrOp × Int) :=
  [(.enqueue "/r".toList 7 none "b".toList "main".toList "github".toList, 1000),
    (.admission (sampleRequest 0) "t1".toList, 2000),
    (.admission { sampleRequest 1 with leaseUntilMs := 12000 } "t2".toList, 9001)]

theorem one_agent_exact_budget_sample :
    ∃ w, Run.run prStep (World.init 0) sampleOps = some w
      ∧ (w.ledgers "/r#7".toList).leases.length = 2
      ∧ (PrOp.release sampleLease none).succeeds w.db 9002 = false
      ∧ (PrOp.release sampleLease none).apply w.db 9002 = w.db := by
  refine ⟨_, rfl, rfl, ?_⟩
  exact (@one_agent_exact_budget 0 sampleOps _ rfl).2.2.1 "/r#7".toList _ _ _ rfl rfl
    sampleLease (mem_singleton_self _) _ _ sampleLease rfl rfl

end Thegn.PrQueue

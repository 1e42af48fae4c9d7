import Thegn.Placement.Tenancy
import Thegn.Lib.Run

set_option autoImplicit false

/-! # The ledger never over-packs a host

What the ledger is for: the live tenants of a host share one zone, a dedicated one is alone, a
sandbox is placed once, and the floors fit the host (`Packed`). Columns are signed, floors and
ceilings are not, and a reservation is two statements; where neither shows (`Exact`), every state of
every run of any number of brokers is packed, and an ask is admitted if and only if it can be
(`tenancy_packed`).
-/

namespace Thegn.Placement

open Text SqlInt
open List hiding sum

/-! ## Hosts and their tenants -/

/-- A live tenant, with its floors as they were asked for. -/
structure Tenant where
  sandbox : Text
  host : Text
  zone : Text
  mode : TenancyMode
  cpu : Nat
  mem : Nat
  deriving DecidableEq

def tenantOf (r : TenancyRow) : Tenant :=
  { sandbox := r.sandbox, host := r.host, zone := r.zone, mode := r.mode
    cpu := asU64 r.cpuFloorMilli, mem := asU64 r.memFloorMb }

def Ask.tenant (a : Ask) : Tenant :=
  { sandbox := a.sandbox, host := a.host, zone := a.zone, mode := a.mode
    cpu := a.req.cpuFloorMilli.toNat, mem := a.req.memFloorMb.toNat }

def Tenancies.tenants (t : Tenancies) : List Tenant := (t.rows.filter TenancyRow.live).map tenantOf

def onHost (host : Text) (ts : List Tenant) : List Tenant := ts.filter fun t => t.host = host

structure Packed (ceilings : Text → UInt64 × UInt64) (ts : List Tenant) : Prop where
  zone : ts.Pairwise fun a b => a.host = b.host → a.zone = b.zone
  dedicated : ts.Pairwise fun a b => a.host = b.host → a.mode ≠ .dedicated ∧ b.mode ≠ .dedicated
  sandbox : ts.Pairwise fun a b => a.sandbox ≠ b.sandbox
  cpu : ∀ host, ((onHost host ts).map Tenant.cpu).sum ≤ (ceilings host).1.toNat
  mem : ∀ host, ((onHost host ts).map Tenant.mem).sum ≤ (ceilings host).2.toNat

variable {ceilings : Text → UInt64 × UInt64}

theorem packed_nil : Packed ceilings [] :=
  ⟨.nil, .nil, .nil, fun _ => Nat.zero_le _, fun _ => Nat.zero_le _⟩

/-- Tenants may leave. -/
theorem Packed.sublist {ts us : List Tenant} (h : Packed ceilings ts) (hsub : us.Sublist ts) :
    Packed ceilings us := by
  have hhost : ∀ host, (onHost host us).Sublist (onHost host ts) := fun host => hsub.filter _
  refine ⟨h.zone.sublist hsub, h.dedicated.sublist hsub, h.sandbox.sublist hsub, ?_, ?_⟩
  · intro host
    exact (((hhost host).map _).sum_le_sum fun _ _ => Nat.zero_le _).trans (h.cpu host)
  · intro host
    exact (((hhost host).map _).sum_le_sum fun _ _ => Nat.zero_le _).trans (h.mem host)

theorem sum_onHost_append (f : Tenant → Nat) (host : Text) (ts : List Tenant) (t : Tenant) :
    ((onHost host (ts ++ [t])).map f).sum =
      ((onHost host ts).map f).sum + if t.host = host then f t else 0 := by
  unfold onHost
  rw [filter_append, map_append, sum_append]
  congr 1
  by_cases h : t.host = host
  · rw [if_pos h, filter_cons_of_pos (by simpa using h)]
    rfl
  · rw [if_neg h, filter_cons_of_neg (by simpa using h)]
    rfl

/-- When a tenant can move in. -/
theorem packed_append {ts : List Tenant} {t : Tenant} (h : Packed ceilings ts)
    (hnew : ∀ a ∈ ts, a.sandbox ≠ t.sandbox) :
    Packed ceilings (ts ++ [t]) ↔
      (∀ a ∈ ts, a.host = t.host →
        a.zone = t.zone ∧ a.mode ≠ .dedicated ∧ t.mode ≠ .dedicated) ∧
      ((onHost t.host ts).map Tenant.cpu).sum + t.cpu ≤ (ceilings t.host).1.toNat ∧
      ((onHost t.host ts).map Tenant.mem).sum + t.mem ≤ (ceilings t.host).2.toNat := by
  constructor
  · intro h'
    have hzone := (pairwise_append.mp h'.zone).2.2
    have hded := (pairwise_append.mp h'.dedicated).2.2
    have hcpu := h'.cpu t.host
    have hmem := h'.mem t.host
    rw [sum_onHost_append, if_pos rfl] at hcpu hmem
    refine ⟨fun a ha hhost => ?_, hcpu, hmem⟩
    exact ⟨hzone a ha t (mem_singleton.mpr rfl) hhost, hded a ha t (mem_singleton.mpr rfl) hhost⟩
  · rintro ⟨hshare, hcpu, hmem⟩
    have hsum : ∀ (f : Tenant → Nat) (bound : Text → Nat),
        (∀ host, ((onHost host ts).map f).sum ≤ bound host) →
        ((onHost t.host ts).map f).sum + f t ≤ bound t.host →
          ∀ host, ((onHost host (ts ++ [t])).map f).sum ≤ bound host := by
      intro f bound hbefore hfits host
      rw [sum_onHost_append]
      split_ifs with hhost
      · subst hhost
        exact hfits
      · exact hbefore host
    refine ⟨?_, ?_, ?_, hsum Tenant.cpu (fun host => (ceilings host).1.toNat) h.cpu hcpu,
      hsum Tenant.mem (fun host => (ceilings host).2.toNat) h.mem hmem⟩
    · refine pairwise_append.mpr ⟨h.zone, pairwise_singleton _ _, ?_⟩
      intro a ha b hb hhost
      rw [mem_singleton.mp hb] at hhost ⊢
      exact (hshare a ha hhost).1
    · refine pairwise_append.mpr ⟨h.dedicated, pairwise_singleton _ _, ?_⟩
      intro a ha b hb hhost
      rw [mem_singleton.mp hb] at hhost ⊢
      exact (hshare a ha hhost).2
    · refine pairwise_append.mpr ⟨h.sandbox, pairwise_singleton _ _, ?_⟩
      intro a ha b hb
      rw [mem_singleton.mp hb]
      exact hnew a ha

/-! ## The ledger -/

/-- The table is packed, and the floors of live rows are as they were asked for. -/
structure Sound (ceilings : Text → UInt64 × UInt64) (t : Tenancies) : Prop where
  packed : Packed ceilings t.tenants
  cpu : ∀ r ∈ t.rows, r.live = true → 0 ≤ r.cpuFloorMilli ∧ r.cpuFloorMilli < 2 ^ 63
  mem : ∀ r ∈ t.rows, r.live = true → 0 ≤ r.memFloorMb ∧ r.memFloorMb < 2 ^ 63

theorem tenants_map_sublist {g : TenancyRow → TenancyRow}
    (hlive : ∀ r, (g r).live = true → r.live = true) (hsame : ∀ r, tenantOf (g r) = tenantOf r)
    (rows : List TenancyRow) :
    (((rows.map g).filter TenancyRow.live).map tenantOf).Sublist
      ((rows.filter TenancyRow.live).map tenantOf) := by
  induction rows with
  | nil => exact .slnil
  | cons r rows ih =>
    rw [map_cons, filter_cons, filter_cons]
    split_ifs with hnew hold hold
    · rw [map_cons, map_cons, hsame r]
      exact ih.cons_cons _
    · exact absurd (hlive r hnew) hold
    · rw [map_cons]
      exact ih.cons _
    · exact ih

/-- An update that neither moves a tenant nor brings one back. -/
theorem Sound.updateWhere {t : Tenancies} (h : Sound ceilings t) {cond : TenancyRow → Bool}
    {f : TenancyRow → TenancyRow} (hf : ∀ r, (f r).sandbox = r.sandbox)
    (hlive : ∀ r, cond r = true → (f r).live = true → r.live = true)
    (hsame : ∀ r, tenantOf (f r) = tenantOf r ∧ (f r).cpuFloorMilli = r.cpuFloorMilli ∧
      (f r).memFloorMb = r.memFloorMb) :
    Sound ceilings (t.updateWhere cond f hf) := by
  have hrow : ∀ r, (if cond r then f r else r).live = true → r.live = true := by
    intro r
    split_ifs with hc
    · exact hlive r hc
    · exact id
  have hsame' : ∀ r, tenantOf (if cond r then f r else r) = tenantOf r ∧
      (if cond r then f r else r).cpuFloorMilli = r.cpuFloorMilli ∧
      (if cond r then f r else r).memFloorMb = r.memFloorMb := by
    intro r
    split_ifs
    · exact hsame r
    · exact ⟨rfl, rfl, rfl⟩
  have htenants : (t.updateWhere cond f hf).tenants.Sublist t.tenants :=
    tenants_map_sublist hrow (fun r => (hsame' r).1) t.rows
  refine ⟨h.packed.sublist htenants, ?_, ?_⟩
  · intro r hr hl
    obtain ⟨r', hr', rfl⟩ := mem_map.mp hr
    rw [(hsame' r').2.1]
    exact h.cpu r' hr' (hrow r' hl)
  · intro r hr hl
    obtain ⟨r', hr', rfl⟩ := mem_map.mp hr
    rw [(hsame' r').2.2]
    exact h.mem r' hr' (hrow r' hl)

theorem Sound.deleteWhere {t : Tenancies} (h : Sound ceilings t) (cond : TenancyRow → Bool) :
    Sound ceilings (t.deleteWhere cond) := by
  have hsub : (t.deleteWhere cond).rows.Sublist t.rows := filter_sublist
  exact ⟨h.packed.sublist ((hsub.filter _).map _), fun r hr => h.cpu r (hsub.mem hr),
    fun r hr => h.mem r (hsub.mem hr)⟩

/-- The floors of the live rows of a host. -/
theorem sum_liveOn {t : Tenancies} (host : Text) (col : TenancyRow → Int) (f : Tenant → Nat)
    (hcol : ∀ r, f (tenantOf r) = asU64 (col r))
    (hrange : ∀ r ∈ t.rows, r.live = true → 0 ≤ col r ∧ col r < 2 ^ 63) :
    ((t.liveOn host).map col).sum = (((onHost host t.tenants).map f).sum : Nat) := by
  unfold Tenancies.liveOn onHost Tenancies.tenants
  generalize t.rows = rows at hrange ⊢
  induction rows with
  | nil => rfl
  | cons r rows ih =>
    have ih' := ih fun r hr => hrange r (.tail _ hr)
    rw [filter_cons, filter_cons]
    by_cases hl : r.live = true
    · rw [if_pos hl, map_cons, filter_cons]
      have hval : (asU64 (col r) : Int) = col r :=
        asU64_of_nonneg (hrange r (.head _) hl).1 (hrange r (.head _) hl).2
      by_cases hh : r.host = host
      · have hhost : decide ((tenantOf r).host = host) = true := decide_eq_true hh
        rw [if_pos (by simp [hh, hl]), if_pos hhost, map_cons, sum_cons, ih', map_cons,
          sum_cons, Nat.cast_add, hcol, hval]
      · rw [if_neg (by simp [hh]), if_neg (by rw [decide_eq_true_iff]; exact hh), ih']
    · rw [if_neg hl, if_neg (by simp [hl]), ih']

/-- Columns compare as the numbers they stand for. -/
theorem fitsColumn_eq {floors : List Int} {total floor : Nat} {ceiling : UInt64}
    (hsum : floors.sum = total) (hfloors : ∀ n ∈ floors, 0 ≤ n) (htotal : total ≤ ceiling.toNat)
    (hfloor : floor < 2 ^ 63) (hceiling : ceiling.toNat < 2 ^ 63 - 1024) :
    fitsColumn floors floor ceiling = some (decide (total + floor ≤ ceiling.toNat)) := by
  have hs : sum floors = some (total : Int) := by
    unfold SqlInt.sum
    rw [sumFrom_of_nonneg le_rfl hfloors (by omega), hsum, zero_add]
  rw [fitsColumn, hs, asI64_of_lt (by omega), Option.map_some]
  refine congrArg some (decide_eq_decide.mpr ?_)
  by_cases hover : total + floor < 2 ^ 63
  · rw [add_of_lt hover]
    omega
  · have hge := add_overflow_ge (by omega) hfloor (Nat.not_lt.mp hover)
    omega

/-! ## Reserving -/

/-- Signed columns do not show, and no other broker has left a released row of the sandbox. -/
structure ExactAsk (ceilings : Text → UInt64 × UInt64) (t : Tenancies) (a : Ask) : Prop where
  mem : a.req.memFloorMb.toNat < 2 ^ 63
  cpuCeiling : (ceilings a.host).1.toNat < 2 ^ 63 - 1024
  memCeiling : (ceilings a.host).2.toNat < 2 ^ 63 - 1024
  noHusk : ∀ r ∈ t.rows, r.sandbox = a.sandbox → r.live = true

theorem mem_tenants {t : Tenancies} {x : Tenant} :
    x ∈ t.tenants ↔ ∃ r ∈ t.rows, r.live = true ∧ tenantOf r = x := by
  unfold Tenancies.tenants
  rw [mem_map]
  constructor
  · rintro ⟨r, hr, rfl⟩
    obtain ⟨hmem, hlive⟩ := mem_filter.mp hr
    exact ⟨r, hmem, hlive, rfl⟩
  · rintro ⟨r, hmem, hlive, rfl⟩
    exact ⟨r, mem_filter.mpr ⟨hmem, hlive⟩, rfl⟩

section Reserve

variable {t : Tenancies} {a : Ask}

theorem conflicts_eq_false_iff {r : TenancyRow} :
    a.conflicts r = false ↔ r.zone = a.zone ∧ r.mode ≠ .dedicated ∧ a.mode ≠ .dedicated := by
  simp [Ask.conflicts, and_assoc]

theorem any_conflicts_iff : (t.liveOn a.host).any a.conflicts = false ↔
    ∀ x ∈ t.tenants, x.host = a.host →
      x.zone = a.zone ∧ x.mode ≠ .dedicated ∧ a.mode ≠ .dedicated := by
  rw [any_eq_false]
  constructor
  · intro h x hx hhost
    obtain ⟨r, hr, hlive, rfl⟩ := mem_tenants.mp hx
    have hno :=
      h r (mem_filter.mpr ⟨hr, by rw [Bool.and_eq_true, decide_eq_true_iff]; exact ⟨hhost, hlive⟩⟩)
    exact conflicts_eq_false_iff.mp (Bool.not_eq_true _ ▸ hno)
  · intro h r hr
    obtain ⟨hmem, hcond⟩ := mem_filter.mp hr
    rw [Bool.and_eq_true, decide_eq_true_iff] at hcond
    have hok := h (tenantOf r) (mem_tenants.mpr ⟨r, hmem, hcond.2, rfl⟩) hcond.1
    rw [Bool.not_eq_true]
    exact conflicts_eq_false_iff.mpr hok

/-- The guard is that the tenant can move in. -/
theorem guardedInsert_eq (hs : Sound ceilings t) (he : ExactAsk ceilings t a)
    (hnone : ∀ r ∈ t.rows, r.sandbox ≠ a.sandbox) (now : Int) :
    ∃ t' n, guardedInsert t a (ceilings a.host) now = some (t', n) ∧
      ((n = 1 ∧ t'.rows = t.rows ++ [a.row now] ∧ Packed ceilings (t.tenants ++ [a.tenant])) ∨
        (n = 0 ∧ t' = t ∧ ¬ Packed ceilings (t.tenants ++ [a.tenant]))) := by
  have hnew : ∀ x ∈ t.tenants, x.sandbox ≠ a.tenant.sandbox := by
    intro x hx
    obtain ⟨r, hr, -, rfl⟩ := mem_tenants.mp hx
    exact hnone r hr
  have happend := packed_append hs.packed hnew
  have hcpu : fitsColumn ((t.liveOn a.host).map TenancyRow.cpuFloorMilli) a.req.cpuFloorMilli.toNat
      (ceilings a.host).1 = some (decide (((onHost a.host t.tenants).map Tenant.cpu).sum +
        a.req.cpuFloorMilli.toNat ≤ (ceilings a.host).1.toNat)) := by
    have hlt := a.req.cpuFloorMilli.toNat_lt
    refine fitsColumn_eq (sum_liveOn a.host _ _ (fun _ => rfl) hs.cpu) ?_ (hs.packed.cpu a.host)
      (by omega) he.cpuCeiling
    intro n hn
    obtain ⟨r, hr, rfl⟩ := mem_map.mp hn
    obtain ⟨hmem, hcond⟩ := mem_filter.mp hr
    exact (hs.cpu r hmem (Bool.and_eq_true _ _ ▸ hcond).2).1
  have hmem : fitsColumn ((t.liveOn a.host).map TenancyRow.memFloorMb) (asI64 a.req.memFloorMb)
      (ceilings a.host).2 = some (decide (((onHost a.host t.tenants).map Tenant.mem).sum +
        a.req.memFloorMb.toNat ≤ (ceilings a.host).2.toNat)) := by
    rw [asI64_of_lt he.mem]
    refine fitsColumn_eq (sum_liveOn a.host _ _ (fun _ => rfl) hs.mem) ?_ (hs.packed.mem a.host)
      he.mem he.memCeiling
    intro n hn
    obtain ⟨r, hr, rfl⟩ := mem_map.mp hn
    obtain ⟨hmem, hcond⟩ := mem_filter.mp hr
    exact (hs.mem r hmem (Bool.and_eq_true _ _ ▸ hcond).2).1
  unfold guardedInsert
  dsimp only
  by_cases hconf : (t.liveOn a.host).any a.conflicts = true
  · refine ⟨t, 0, if_pos hconf, .inr ⟨rfl, rfl, fun hp => ?_⟩⟩
    have hno := any_conflicts_iff.mpr (happend.mp hp).1
    rw [hconf] at hno
    cases hno
  · rw [if_neg hconf, hcpu]
    by_cases hfits : ((onHost a.host t.tenants).map Tenant.cpu).sum +
        a.req.cpuFloorMilli.toNat ≤ (ceilings a.host).1.toNat
    · rw [decide_eq_true hfits, hmem]
      by_cases hfits' : ((onHost a.host t.tenants).map Tenant.mem).sum +
          a.req.memFloorMb.toNat ≤ (ceilings a.host).2.toNat
      · rw [decide_eq_true hfits']
        have hkey : (a.row now).sandbox ∉ t.rows.map TenancyRow.sandbox := by
          intro hmem
          obtain ⟨r, hr, hsame⟩ := mem_map.mp hmem
          exact hnone r hr hsame
        refine ⟨(t.insert (a.row now)).1, (t.insert (a.row now)).2, rfl, .inl ⟨?_, ?_, ?_⟩⟩
        · rw [Tenancies.insert, dif_neg hkey]
        · rw [Tenancies.insert, dif_neg hkey]
        · rw [Bool.not_eq_true] at hconf
          exact happend.mpr ⟨any_conflicts_iff.mp hconf, hfits, hfits'⟩
      · rw [decide_eq_false hfits']
        exact ⟨t, 0, rfl, .inr ⟨rfl, rfl, fun hp => hfits' (happend.mp hp).2.2⟩⟩
    · rw [decide_eq_false hfits]
      exact ⟨t, 0, rfl, .inr ⟨rfl, rfl, fun hp => hfits (happend.mp hp).2.1⟩⟩

end Reserve

/-! ## Runs -/

/-- The statement is no insert, or one of an exact ask. -/
def Exact (ceilings : Text → UInt64 × UInt64) (w : World) : Stmt → Prop
  | .guardedInsert i => ∀ p, w.pending[i]? = some p → ExactAsk ceilings w.table p.ask
  | _ => True

/-- Every statement of the run is exact when it comes. -/
def ExactRun (ceilings : Text → UInt64 × UInt64) : World → List Stmt → Prop
  | _, [] => True
  | w, s :: ss => Exact ceilings w s ∧ ∀ w', w.step ceilings s = some w' → ExactRun ceilings w' ss

theorem tenantOf_row {a : Ask} (h : a.req.memFloorMb.toNat < 2 ^ 63) (now : Int) :
    tenantOf (a.row now) = a.tenant := by
  have hcpu := a.req.cpuFloorMilli.toNat_lt
  have hcpu' : asU64 ((a.req.cpuFloorMilli.toNat : Int)) = a.req.cpuFloorMilli.toNat := by
    have heq := asU64_of_nonneg (n := (a.req.cpuFloorMilli.toNat : Int)) (by omega) (by omega)
    exact_mod_cast heq
  have hmem' : asU64 (asI64 a.req.memFloorMb) = a.req.memFloorMb.toNat := by
    rw [asI64_of_lt h]
    have heq := asU64_of_nonneg (n := (a.req.memFloorMb.toNat : Int)) (by omega) (by omega)
    exact_mod_cast heq
  unfold tenantOf Ask.row Ask.tenant
  dsimp only
  rw [hcpu', hmem']

theorem insert_of_mem {t : Tenancies} {r : TenancyRow}
    (h : r.sandbox ∈ t.rows.map TenancyRow.sandbox) : t.insert r = (t, 0) := dif_pos h

/-- An insert that meets a row of its sandbox changes nothing. -/
theorem guardedInsert_of_mem {t : Tenancies} {a : Ask} {c : UInt64 × UInt64} {now : Int}
    (h : a.sandbox ∈ t.rows.map TenancyRow.sandbox) {r : Tenancies × Nat}
    (hr : guardedInsert t a c now = some r) : r = (t, 0) := by
  unfold guardedInsert at hr
  dsimp only at hr
  split_ifs at hr
  · cases hr
    rfl
  · split at hr
    · cases hr
    · cases hr
      rfl
    · split at hr
      · cases hr
      · cases hr
        rfl
      · rw [insert_of_mem h] at hr
        cases hr
        rfl

/-- A reservation keeps the ledger sound. -/
theorem sound_guardedInsert {t : Tenancies} {a : Ask} {now : Int} (hs : Sound ceilings t)
    (he : ExactAsk ceilings t a) {r : Tenancies × Nat}
    (hr : guardedInsert t a (ceilings a.host) now = some r) : Sound ceilings r.1 := by
  by_cases hmem : a.sandbox ∈ t.rows.map TenancyRow.sandbox
  · rw [guardedInsert_of_mem hmem hr]
    exact hs
  · have hnone : ∀ r ∈ t.rows, r.sandbox ≠ a.sandbox := by
      intro r hr hsame
      exact hmem (mem_map.mpr ⟨r, hr, hsame⟩)
    obtain ⟨t', n, heq, hcases⟩ := guardedInsert_eq hs he hnone now
    rw [hr, Option.some.injEq] at heq
    subst heq
    rcases hcases with ⟨-, hrows, hpacked⟩ | ⟨-, rfl, -⟩
    · have hlt := a.req.cpuFloorMilli.toNat_lt
      have hmemFloor := he.mem
      refine ⟨?_, ?_, ?_⟩
      · have htenants : t'.tenants = t.tenants ++ [a.tenant] := by
          unfold Tenancies.tenants
          rw [hrows, filter_append, map_append, ← tenantOf_row he.mem now]
          rfl
        rw [htenants]
        exact hpacked
      · intro r hr hl
        rw [hrows, mem_append, mem_singleton] at hr
        rcases hr with hr | rfl
        · exact hs.cpu r hr hl
        · unfold Ask.row
          dsimp only
          omega
      · intro r hr hl
        rw [hrows, mem_append, mem_singleton] at hr
        rcases hr with hr | rfl
        · exact hs.mem r hr hl
        · unfold Ask.row
          dsimp only
          rw [asI64_of_lt he.mem]
          omega
    · exact hs

/-- **Every statement keeps the ledger sound.** -/
theorem sound_step {w w' : World} {s : Stmt} (hs : Sound ceilings w.table) (he : Exact ceilings w s)
    (hstep : w.step ceilings s = some w') : Sound ceilings w'.table := by
  cases s with
  | deleteHusk p =>
    cases hstep
    exact hs.deleteWhere _
  | guardedInsert i =>
    unfold World.step at hstep
    dsimp only at hstep
    split at hstep
    · cases hstep
    · rename_i p hp
      cases hstep
      dsimp only
      split
      · rename_i r hr
        exact sound_guardedInsert hs (he p hp) hr
      · exact hs
  | activate sandbox now =>
    cases hstep
    change Sound ceilings (activate w.table sandbox now)
    unfold activate
    refine hs.updateWhere _ (fun r hc _ => ?_) fun r => ⟨rfl, rfl, rfl⟩
    rw [Bool.and_eq_true, beq_iff_eq] at hc
    rw [TenancyRow.live, hc.2]
    rfl
  | release sandbox now =>
    cases hstep
    change Sound ceilings (release w.table sandbox now)
    unfold release
    exact hs.updateWhere _ (fun r _ hl => absurd hl Bool.false_ne_true) fun r => ⟨rfl, rfl, rfl⟩
  | rebind sandbox worktree =>
    cases hstep
    change Sound ceilings (rebind w.table sandbox worktree)
    unfold rebind
    exact hs.updateWhere _ (fun r _ hl => hl) fun r => ⟨rfl, rfl, rfl⟩
  | sweepStale before =>
    cases hstep
    change Sound ceilings (sweepStale w.table before)
    unfold sweepStale
    exact hs.updateWhere _ (fun r _ hl => absurd hl Bool.false_ne_true) fun r => ⟨rfl, rfl, rfl⟩

theorem sound_run {stmts : List Stmt} {w w' : World} (hs : Sound ceilings w.table)
    (he : ExactRun ceilings w stmts) (hrun : Run.run (World.step ceilings) w stmts = some w') :
    Sound ceilings w'.table := by
  induction stmts generalizing w with
  | nil =>
    cases hrun
    exact hs
  | cons s stmts ih =>
    obtain ⟨u, hstep, hrest⟩ := Run.run_cons.mp hrun
    exact ih (sound_step hs he.1 hstep) (he.2 u hstep) hrest

theorem classify_ne_reserved (a : Ask) (existing : Option TenancyRow) (tenants : List TenancyRow) :
    classify a existing tenants ≠ .reserved := by
  unfold classify
  split
  · exact fun h => by cases h
  · split_ifs
    · exact fun h => by cases h
    · exact fun h => by cases h
    · exact fun h => by cases h

/-- **The ledger never over-packs or mixes tenants.** In every run whose asks are exact when they
are inserted, the tenants are packed; and an ask of a sandbox that is not live is answered
`Reserved` if and only if its tenant can move in. -/
theorem tenancy_packed (ceilings : Text → UInt64 × UInt64) (stmts : List Stmt) (w : World)
    (hrun : Run.run (World.step ceilings) .new stmts = some w) (he : ExactRun ceilings .new stmts) :
    Packed ceilings w.table.tenants ∧
      ∀ (i : Nat) (p : Pending), w.pending[i]? = some p → ExactAsk ceilings w.table p.ask →
        (∀ r ∈ w.table.rows, r.sandbox = p.ask.sandbox → r.live = false) →
        ∃ t n, guardedInsert w.table p.ask (ceilings p.ask.host) p.now = some (t, n) ∧
          ∀ later later', answer p.ask n later later' = .reserved ↔
            Packed ceilings (w.table.tenants ++ [p.ask.tenant]) := by
  have hnew : Sound ceilings World.new.table :=
    ⟨packed_nil, fun _ h => absurd h not_mem_nil, fun _ h => absurd h not_mem_nil⟩
  have hs := sound_run hnew he hrun
  refine ⟨hs.packed, ?_⟩
  intro i p hp hexact hdead
  have hnone : ∀ r ∈ w.table.rows, r.sandbox ≠ p.ask.sandbox := by
    intro r hr hsame
    have hlive := hexact.noHusk r hr hsame
    rw [hdead r hr hsame] at hlive
    cases hlive
  obtain ⟨t, n, heq, hcases⟩ := guardedInsert_eq hs hexact hnone p.now
  refine ⟨t, n, heq, fun later later' => ?_⟩
  rcases hcases with ⟨rfl, -, hpacked⟩ | ⟨rfl, -, hpacked⟩
  · exact ⟨fun _ => hpacked, fun _ => rfl⟩
  · refine ⟨fun h => ?_, fun h => absurd h hpacked⟩
    exact absurd h (classify_ne_reserved _ _ _)

/-- An ask of a sandbox on the host `h`. -/
def sampleAsk (sandbox : Text) (mem : UInt64) : Pending :=
  { ask :=
      { sandbox := sandbox, host := ['h'], worktree := [], zone := [], mode := .packed
        req := { cpuFloorMilli := 1000, memFloorMb := mem, cpuCeilingMilli := none,
                 memCeilingMb := none } }
    now := 0 }

/-- Two brokers reserve at once; one sandbox is released, and its reservation is asked for again. -/
def sampleRun : List Stmt :=
  [.deleteHusk (sampleAsk ['a'] 2048), .deleteHusk (sampleAsk ['b'] 4096), .guardedInsert 1,
    .guardedInsert 0, .release ['a'] 5, .deleteHusk (sampleAsk ['a'] 1024)]

theorem tenancy_packed_sample :
    ∃ w, Run.run (World.step fun _ => (4000, 8192)) .new sampleRun = some w ∧
      Packed (fun _ => (4000, 8192)) w.table.tenants ∧ w.table.tenants.length = 1 := by
  refine ⟨_, rfl, (tenancy_packed (fun _ => (4000, 8192)) sampleRun _ rfl ?_).1, rfl⟩
  have hexact : ∀ t : Tenancies, ∀ sandbox mem, mem.toNat < 2 ^ 63 →
      (∀ r ∈ t.rows, r.sandbox = sandbox → r.live = true) →
        ExactAsk (fun _ => (4000, 8192)) t (sampleAsk sandbox mem).ask :=
    fun t sandbox mem hmem hhusk => ⟨hmem, by decide, by decide, hhusk⟩
  refine ⟨trivial, ?_⟩
  rintro w ⟨⟩
  refine ⟨trivial, ?_⟩
  rintro w ⟨⟩
  refine ⟨?_, ?_⟩
  · rintro p ⟨⟩
    exact hexact _ ['b'] 4096 (by decide) fun r hr => absurd hr not_mem_nil
  rintro w ⟨⟩
  refine ⟨?_, ?_⟩
  · rintro p ⟨⟩
    refine hexact _ ['a'] 2048 (by decide) fun r hr _ => ?_
    cases mem_singleton.mp hr
    rfl
  rintro w ⟨⟩
  refine ⟨trivial, ?_⟩
  rintro w ⟨⟩
  exact ⟨trivial, fun _ _ => trivial⟩

/-- A floor of `2 ^ 64 - 1` is `-1` in its column, and fits everywhere. -/
theorem wrapped_floor_overpacks :
    ∃ w, Run.run (World.step fun _ => (4000, 8192)) .new
        [.deleteHusk (sampleAsk ['a'] (2 ^ 64 - 1)), .guardedInsert 0] = some w ∧
      ¬ Packed (fun _ => (4000, 8192)) w.table.tenants := by
  refine ⟨_, rfl, fun h => ?_⟩
  have hmem := h.mem ['h']
  revert hmem
  decide +kernel

end Thegn.Placement

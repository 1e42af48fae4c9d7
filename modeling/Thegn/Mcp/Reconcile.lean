import Thegn.Mcp.Partition
import Thegn.Lib.Rows
import Thegn.Lib.Table

set_option autoImplicit false

/-! # Reconciling the running instances

`thegn-core/src/mcp/proxy/reconcile.rs`: from the running instances and the desired ones to a plan
of actions. The supervisor carries out the plan action by action; it then runs what the last desired
spec of each key says (`reconcile_reaches`).
-/

namespace Thegn.Mcp

open Rows Table List Option

/-- The identity of an instance: upstream and partition key. -/
abbrev Key := Text × Text

def InstanceSpec.key (s : InstanceSpec) : Key := (s.upstream, s.partitionKey)

def InstanceSpec.launchDiffers (s other : InstanceSpec) : Bool :=
  s.argv != other.argv || s.env != other.env

inductive ReconcileAction
  | start (s : InstanceSpec)
  | stop (upstream partitionKey : Text)
  | restart (s : InstanceSpec)
  | refilter (s : InstanceSpec)

/-- `collect` into a `BTreeMap` by key: the last spec of a key stays. -/
def collect (specs : List InstanceSpec) : Table Key InstanceSpec :=
  specs.foldl (fun m s => m.insert s.key s) ∅

/-- The keys of a `BTreeMap` in its order. -/
def sortedKeys (m : Table Key InstanceSpec) : List Key := sortOn toLex m.keys

/-- What the desired spec of a key asks for, given the running one. -/
def change (prev : Option InstanceSpec) (next : InstanceSpec) : Option ReconcileAction :=
  match prev with
  | none => some (.start next)
  | some prev =>
    if prev.launchDiffers next then some (.restart next)
    else if prev.exposure ≠ next.exposure then some (.refilter next)
    else none

def reconcile (old new : List InstanceSpec) : List ReconcileAction :=
  let oldMap := collect old
  let newMap := collect new
  (sortedKeys newMap).filterMap (fun k => (newMap.lookup k).bind (change (oldMap.lookup k)))
    ++ (sortedKeys oldMap).filterMap (fun k =>
      if (newMap.lookup k).isSome then none
      else (oldMap.lookup k).map fun prev => .stop prev.upstream k.2)

/-! ## Carrying out a plan -/

def ReconcileAction.key : ReconcileAction → Key
  | .start s => s.key
  | .stop upstream partitionKey => (upstream, partitionKey)
  | .restart s => s.key
  | .refilter s => s.key

/-- What an action makes of the instance it is about. -/
def ReconcileAction.effect : ReconcileAction → Option InstanceSpec → Option InstanceSpec
  | .start s, _ => some s
  | .stop _ _, _ => none
  | .restart s, _ => some s
  | .refilter s, running => running.map fun r => { r with exposure := s.exposure }

/-- The supervisor carries out an action on what runs at each key. -/
def carryOut (running : Key → Option InstanceSpec) (a : ReconcileAction) :
    Key → Option InstanceSpec :=
  Function.update running a.key (a.effect (running a.key))

/-- Actions about different keys do not meet. -/
theorem foldl_carryOut {f : Key → Option ReconcileAction} (hf : ∀ k a, f k = some a → a.key = k)
    {ks : List Key} (hks : ks.Nodup) (running : Key → Option InstanceSpec) (k : Key) :
    (ks.filterMap f).foldl carryOut running k =
      if k ∈ ks then (f k).elim (running k) (fun a => a.effect (running k)) else running k := by
  induction ks generalizing running with
  | nil => rfl
  | cons j ks ih =>
    have hnd := nodup_cons.mp hks
    cases hj : f j with
    | none =>
      rw [filterMap_cons_none hj, ih hnd.2]
      by_cases hkj : k = j
      · subst hkj
        rw [if_neg hnd.1, if_pos mem_cons_self, hj]
        rfl
      · simp only [mem_cons, hkj, false_or]
    | some a =>
      rw [filterMap_cons_some hj, foldl_cons, ih hnd.2]
      have hkey := hf j a hj
      by_cases hkj : k = j
      · subst hkj
        rw [if_neg hnd.1, if_pos mem_cons_self, hj, carryOut, hkey, Function.update_self]
        rfl
      · have hother : carryOut running a k = running k := by
          rw [carryOut, hkey, Function.update_of_ne hkj]
        simp only [mem_cons, hkj, false_or, hother]

section Collect

variable {specs : List InstanceSpec} {k : Key} {s : InstanceSpec}

theorem nodup_sortedKeys (m : Table Key InstanceSpec) : (sortedKeys m).Nodup :=
  (sortOn_perm toLex m.keys).nodup_iff.mpr m.keys_nodup

theorem mem_sortedKeys {m : Table Key InstanceSpec} : k ∈ sortedKeys m ↔ (m.lookup k).isSome := by
  rw [sortedKeys, mem_sortOn]
  exact (AList.lookup_isSome).symm

theorem collect_concat (specs : List InstanceSpec) (s : InstanceSpec) :
    collect (specs ++ [s]) = (collect specs).insert s.key s := by
  rw [collect, foldl_append]
  rfl

/-- What is kept for a key is one of the specs, with that key. -/
theorem of_lookup_collect (h : (collect specs).lookup k = some s) : s ∈ specs ∧ s.key = k := by
  induction specs using List.reverseRecOn with
  | nil => cases h
  | append_singleton specs last ih =>
    rw [collect_concat] at h
    by_cases hk : k = last.key
    · subst hk
      rw [AList.lookup_insert] at h
      cases h
      exact ⟨by simp, rfl⟩
    · rw [AList.lookup_insert_ne hk] at h
      exact ⟨mem_append_left _ (ih h).1, (ih h).2⟩

/-- Every spec has one kept for its key. -/
theorem exists_lookup_collect (h : s ∈ specs) : ∃ kept,
    (collect specs).lookup s.key = some kept := by
  induction specs using List.reverseRecOn with
  | nil => cases h
  | append_singleton specs last ih =>
    rw [collect_concat]
    by_cases hk : s.key = last.key
    · exact ⟨last, by rw [hk, AList.lookup_insert]⟩
    · rw [AList.lookup_insert_ne hk]
      rcases mem_append.mp h with hs | hs
      · exact ih hs
      · exact absurd (congrArg InstanceSpec.key (mem_singleton.mp hs)) hk

end Collect

/-- A change of one key makes the running spec the desired one. -/
theorem effect_change {prev : Option InstanceSpec} {next : InstanceSpec}
    (hprev : ∀ p, prev = some p → p.key = next.key) :
    (change prev next).elim prev (fun a => a.effect prev) = some next := by
  cases prev with
  | none => rfl
  | some p =>
    have hkey := Prod.mk.inj (hprev p rfl)
    unfold change
    by_cases hlaunch : p.launchDiffers next = true
    · simp only [hlaunch, if_true]
      rfl
    · have hsame : p.argv = next.argv ∧ p.env = next.env := by
        simpa [InstanceSpec.launchDiffers] using hlaunch
      simp only [hlaunch]
      by_cases hexp : p.exposure = next.exposure
      · have heq : p = next := by
          cases p
          cases next
          simp_all
        simp [heq]
      · have heq : { p with exposure := next.exposure } = next := by
          cases p
          cases next
          simp_all
        simp only [ne_eq, hexp, not_false_eq_true, if_true]
        exact congrArg some heq

/-- **Carrying out the plan reaches the desired instances**, whatever ran before. -/
theorem reconcile_reaches (old new : List InstanceSpec) (k : Key) :
    (reconcile old new).foldl carryOut (collect old).lookup k = (collect new).lookup k := by
  have hstart : ∀ k a, ((collect new).lookup k).bind (change ((collect old).lookup k)) = some a →
    a.key = k := by
    intro k a h
    obtain ⟨next, hnext, hchange⟩ := bind_eq_some_iff.mp h
    have hkey := (of_lookup_collect hnext).2
    unfold change at hchange
    repeat' split at hchange
    all_goals cases hchange
    all_goals exact hkey
  have hstop : ∀ k a, (if ((collect new).lookup k).isSome then none
      else ((collect old).lookup k).map fun prev => ReconcileAction.stop prev.upstream k.2) =
        some a → a.key = k := by
    intro k a h
    split at h
    · cases h
    · obtain ⟨prev, hprev, rfl⟩ := map_eq_some_iff.mp h
      have hkey := (of_lookup_collect hprev).2
      have hup : prev.upstream = k.1 := congrArg Prod.fst hkey
      rw [ReconcileAction.key, hup]
  rw [reconcile, foldl_append, foldl_carryOut hstop (nodup_sortedKeys _),
    foldl_carryOut hstart (nodup_sortedKeys _)]
  simp only [mem_sortedKeys]
  cases hnew : (collect new).lookup k with
  | some next =>
    have hprev : ∀ p, (collect old).lookup k = some p → p.key = next.key := by
      intro p hp
      rw [(of_lookup_collect hp).2, (of_lookup_collect hnew).2]
    have hchange := effect_change hprev
    simp only [isSome_some, if_true, bind_some]
    rw [hchange]
    simp
  | none =>
    cases hold : (collect old).lookup k with
    | some prev => simp [ReconcileAction.effect]
    | none => simp

end Thegn.Mcp

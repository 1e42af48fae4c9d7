import Thegn.Lib.Longest
import Thegn.Lsp.Bus

set_option autoImplicit false

/-! # When a publication finds room

The queues of the roots are an instance of the general ones: an eviction gives up the head of a
longest queue (`evictOne_longest`), and the eviction loop gives up such heads until there is room
(`evictLoop_evictions`). The loop counts what the root of the publication costs as it was before the
loop. Where the root had documents then and the loop gives up its last one, it may stop too early,
and the last test refuses the publication: that is the only way to lose one that fits
(`publish_admits`).
-/

namespace Thegn.Lsp

open Table Text QueueState Store Eviction
open List hiding replace

variable {R : Type} [LinearOrder R] {env : Env R}

/-! ## One eviction -/

section

variable {s : QueueState R} {root : R} {pd : PublishedDiagnostics R}

/-- The order of `max_by`, read off the keys. -/
theorem le_evictKey {p : R} {e e' : R × List (DiagnosticKey R)} (h : evictKey p e' ≤ evictKey p e)
    (hne : e'.1 ≠ e.1) :
    e'.2.length < e.2.length ∨ e'.2.length = e.2.length ∧ (e.1 = p ∨ e'.1 ≠ p ∧ e.1 < e'.1) := by
  refine (Prod.Lex.toLex_le_toLex.mp h).imp id fun hlength => ⟨hlength.1, ?_⟩
  by_cases hp : e.1 = p
  · exact .inl hp
  rcases Prod.Lex.toLex_le_toLex.mp hlength.2 with hlt | ⟨heq, hle⟩
  · -- `false` comes before `true`
    have htrue := (Bool.lt_iff.mp hlt).2
    exact absurd (of_decide_eq_true htrue) hp
  · have hiff : e'.1 = p ↔ e.1 = p := decide_eq_decide.mp heq
    have hle' : e.1 ≤ e'.1 := hle
    exact .inr ⟨fun h => hp (hiff.mp h), lt_of_le_of_ne hle' (Ne.symm hne)⟩

/-- Where a document is pending, the root that `max_by` finds has a longest queue. -/
theorem victimRoot_longest (h : s.store.Sound env) (incoming : R)
    (hroot : s.store.queue root ≠ []) :
    ∃ e, s.victimRoot incoming = some e ∧ s.store.queue e.1 = e.2
      ∧ Longest incoming s.store.queue e.1 := by
  have hentry : ∀ r, s.store.queue r ≠ [] →
      (r, s.store.queue r) ∈ s.perRoot.entries.map fun e => (e.1, e.2) := fun r hr => by
    have hlook : s.perRoot.lookup r = _ := h.lookup_eq r
    rw [if_neg hr] at hlook
    exact mem_map.mpr ⟨⟨r, s.store.queue r⟩, AList.mem_lookup_iff.mp hlook, rfl⟩
  obtain ⟨e, he⟩ : ∃ e, s.victimRoot incoming = some e := by
    refine Option.ne_none_iff_exists'.mp fun hnone => ?_
    have hnil := argmax_eq_none.mp hnone
    rw [hnil] at hentry
    exact not_mem_nil (hentry root hroot)
  have hlook := victimRoot_lookup he
  have hqueue := queue_of_lookup hlook
  have hne := h.queue_ne_nil e.1 e.2 hlook
  refine ⟨e, he, hqueue, by rw [hqueue]; exact hne, fun r hr => ?_⟩
  rw [hqueue]
  by_cases hnil : s.store.queue r = []
  · rw [hnil]
    exact .inl (length_pos_iff.mpr hne)
  · exact le_evictKey (le_of_mem_argmax (hentry r hnil) he) hr

/-- **An eviction gives up the head of a longest queue.** -/
theorem evictOne_longest (h : s.store.Sound env) (incoming : R) (hroot : s.store.queue root ≠ []) :
    ∃ v, Longest incoming s.store.queue v ∧ (s.evictOne env incoming).2 = true
      ∧ (s.evictOne env incoming).1.store.queue = behead s.store.queue v
      ∧ (s.evictOne env incoming).1.pending.keys.length + 1 = s.pending.keys.length := by
  obtain ⟨e, he, hqueue, hlongest⟩ := victimRoot_longest h incoming hroot
  obtain ⟨victim, queue, hcons⟩ := exists_cons_of_ne_nil hlongest.1
  have hhead : e.2.head? = some victim := by rw [← hqueue, hcons, List.head?_cons]
  have hvictim : ((s.victimRoot incoming).bind fun e => e.2.head?) = some victim := by
    rw [he, Option.bind_some, hhead]
  obtain ⟨hvroot, entry, hentry⟩ := victim_mem h he hhead
  obtain ⟨s1, hstore, -, hevict⟩ := evictOne_of_victim h hvictim
  have hafter : (s.evictOne env incoming).1.store = s.store.remove env victim := by
    rw [hevict, store_markLoss, hstore]
  refine ⟨e.1, hlongest, by rw [hevict], ?_, ?_⟩
  · funext r
    rw [hafter, queue_remove env hentry, behead, hvroot, hcons, erase_cons_head]
    by_cases hr : r = e.1
    · rw [if_pos hr, hr, Function.update_self, tail_cons]
    · rw [if_neg hr, Function.update_of_ne hr]
  · have hpending : (s.evictOne env incoming).1.pending = s.pending.erase victim := by
      have hremove : (s.store.remove env victim).pending = s.store.pending.erase victim :=
        pending_remove env hentry
      rw [← hafter] at hremove
      exact hremove
    have hin : victim ∈ s.pending.keys :=
      AList.lookup_isSome.mp (Option.isSome_iff_exists.mpr ⟨entry, hentry⟩)
    have hpos := length_pos_of_mem hin
    rw [hpending, AList.keys_erase, length_erase_of_mem hin]
    omega

/-! ## The eviction loop -/

/-- Where nothing is pending there is room for what fits at all. -/
theorem exists_pending (h : s.store.Sound env) {cost rootCost : Nat}
    (hneed : cost + rootCost ≤ maxQueueBytes)
    (hroom : s.NoRoom cost rootCost) : ∃ root, s.store.queue root ≠ [] := by
  have hmax : maxQueueBytes < 2 ^ 64 - 1 := by decide
  by_contra hall
  have hnil : ∀ r, s.store.queue r = [] := fun r => by
    by_contra hr
    exact hall ⟨r, hr⟩
  have hpending : s.pending = ∅ := AList.ext (eq_nil_iff_forall_not_mem.mpr fun e he => by
    have hmem := h.mem_queue (Option.mem_def.mp (AList.mem_lookup_iff.mpr he))
    rw [hnil] at hmem
    exact not_mem_nil hmem)
  have hroots : s.perRoot = ∅ := AList.ext (eq_nil_iff_forall_not_mem.mpr fun e he => by
    have hlook : s.store.perRoot.lookup e.1 = some e.2 :=
      Option.mem_def.mp (AList.mem_lookup_iff.mpr he)
    exact h.queue_ne_nil e.1 e.2 hlook ((queue_of_lookup hlook).symm.trans (hnil e.1)))
  have hbytes : s.bytes = total (fun _ entry => entry.cost) s.pending
      + total (fun root _ => readyRootCost env root) s.perRoot := h.bytes_eq
  rw [hpending, hroots, total_empty, total_empty] at hbytes
  rw [NoRoom, lt_satAdd_satAdd hmax, hbytes, hpending] at hroom
  rcases hroom with hcount | hlt
  · exact absurd hcount (Nat.not_le.mpr (show 0 < maxQueueDocuments by decide))
  · omega

/-- **The eviction loop gives up heads of longest queues until there is room.** -/
theorem evictLoop_evictions (cost rootCost : Nat) (root : R) (fuel : Nat) (h : Valid env s)
    (hneed : cost + rootCost ≤ maxQueueBytes) (hfuel : s.pending.keys.length < fuel) :
    Evictions root s.store.queue (evictLoop env cost rootCost root fuel s).store.queue
      ∧ ¬ (evictLoop env cost rootCost root fuel s).NoRoom cost
          (counted (evictLoop env cost rootCost root fuel s) root rootCost) := by
  induction fuel generalizing s with
  | zero => exact absurd hfuel (Nat.not_lt_zero _)
  | succ fuel ih =>
    by_cases hroom : s.NoRoom cost (counted s root rootCost)
    · have hcounted : cost + counted s root rootCost ≤ maxQueueBytes := by
        rw [counted]
        split_ifs
        · exact (Nat.le_add_right _ _).trans hneed
        · exact hneed
      obtain ⟨r, hr⟩ := exists_pending h.store hcounted hroom
      obtain ⟨v, hlongest, htrue, hqueues, hlength⟩ := evictOne_longest h.store root hr
      obtain ⟨hrun, hafter⟩ := ih (shed_evictOne h root).valid (by omega)
      rw [evictLoop_of_noRoom hroom, if_pos htrue]
      refine ⟨.step hlongest ?_, hafter⟩
      rw [← hqueues]
      exact hrun
    · rw [evictLoop_of_room hroom]
      exact ⟨.done, hroom⟩

/-! ## Admission -/

theorem queue_add_eq (t : Store R) (key : DiagnosticKey R) (entry : Entry R) :
    (t.add env key entry).queue = Function.update t.queue key.root (t.queue key.root ++ [key]) := by
  funext r
  rw [queue_add]
  by_cases hr : r = key.root
  · rw [if_pos hr, hr, Function.update_self]
  · rw [if_neg hr, Function.update_of_ne hr]

theorem store_enqueueIfRoom (h : s.store.Sound env) (pd : PublishedDiagnostics R) (cost now : Nat) :
    (s.enqueueIfRoom env pd cost now).store = if s.NoRoom cost (s.rootCost env pd.root) then s.store
        else s.store.add env (keyOf pd) ⟨pd, cost, if s.timing then some now else none⟩ := by
  have hmax : maxQueueBytes < 2 ^ 64 - 1 := by decide
  rw [enqueueIfRoom]
  by_cases hroom : s.NoRoom cost (s.rootCost env pd.root)
  · rw [if_pos hroom, if_pos hroom, store_rejectCapacity]
  · rw [if_neg hroom, if_neg hroom]
    rw [NoRoom, lt_satAdd_satAdd hmax] at hroom
    exact store_enqueue h pd now (Nat.not_lt.mp fun hlt => hroom (.inr hlt))

theorem admit_eq (h : Valid env s) {cost : Nat}
    (hneed : cost + s.store.rootCost env pd.root ≤ maxQueueBytes) (now : Nat) :
    s.admitEntry env pd cost now
      = (evictLoop env cost (s.rootCost env pd.root) pd.root (s.pending.keys.length + 1)
        s).enqueueIfRoom env pd cost now := by
  have hmax : maxQueueBytes < 2 ^ 64 - 1 := by decide
  refine if_neg (Nat.not_lt.mpr ?_)
  rw [rootCost_eq h.store, satAdd_eq (by omega)]
  exact hneed

theorem admit_of_needed (h : Valid env s) {cost : Nat}
    (hneed : ¬ cost + s.store.rootCost env pd.root ≤ maxQueueBytes) (now : Nat) :
    s.admitEntry env pd cost now = s.rejectCapacity env (keyOf pd) := by
  have hmax : maxQueueBytes < 2 ^ 64 - 1 := by decide
  refine if_pos ?_
  rw [rootCost_eq h.store, lt_satAdd hmax]
  exact Nat.not_le.mp hneed

/-- The root had documents, and the last of them was given up; there is room for the publication,
but not for the root. -/
def Stranded (env : Env R) (s : QueueState R) (pd : PublishedDiagnostics R)
    (s' : QueueState R) : Prop :=
  s.store.queue pd.root ≠ [] ∧ s'.store.queue pd.root = []
    ∧ s'.bytes + entryCost env pd ≤ maxQueueBytes
    ∧ maxQueueBytes < s'.bytes + entryCost env pd + readyRootCost env pd.root

/-- **What the last test finds** is room, unless the loop gave up the last document of the root. -/
theorem admit_cases (h : Valid env s)
    (hneed : entryCost env pd + s.store.rootCost env pd.root ≤ maxQueueBytes) (now : Nat) :
    (∃ entry, (s.admitEntry env pd (entryCost env pd) now).pending.lookup (keyOf pd) = some entry
        ∧ entry.publication = pd)
      ∨ Stranded env s pd (s.admitEntry env pd (entryCost env pd) now) := by
  have hmax : maxQueueBytes < 2 ^ 64 - 1 := by decide
  obtain ⟨hrun, hroom⟩ := evictLoop_evictions (entryCost env pd) (s.rootCost env pd.root) pd.root
    (s.pending.keys.length + 1) h (by rw [rootCost_eq h.store]; exact hneed) (Nat.lt_succ_self _)
  have hshed :=
    shed_evictLoop (entryCost env pd) (s.rootCost env pd.root) pd.root (s.pending.keys.length + 1) h
  have hstore := store_enqueueIfRoom hshed.valid.store pd (entryCost env pd) now
  rw [admit_eq h hneed]
  generalize evictLoop env (entryCost env pd) (s.rootCost env pd.root) pd.root
    (s.pending.keys.length + 1) s = t
    at hrun hroom hshed hstore
  by_cases hlast : t.NoRoom (entryCost env pd) (t.rootCost env pd.root)
  · rw [if_pos hlast] at hstore
    rw [counted_eq hshed.valid.store, rootCost_eq h.store, NoRoom, lt_satAdd_satAdd hmax, not_or,
      Nat.not_le, Nat.not_lt] at hroom
    rw [rootCost_eq hshed.valid.store, Store.rootCost, NoRoom, lt_satAdd_satAdd hmax] at hlast
    by_cases hafter : t.store.queue pd.root = []
    · rw [if_pos hafter] at hroom hlast
      by_cases hbefore : s.store.queue pd.root = []
      · -- the loop counted the root
        rw [Store.rootCost, if_pos hbefore] at hroom
        omega
      · rw [Store.rootCost, if_neg hbefore] at hroom
        have hbytes : (t.enqueueIfRoom env pd (entryCost env pd) now).bytes = t.bytes :=
          congrArg Store.bytes hstore
        refine .inr ⟨hbefore, ?_, ?_, ?_⟩
        · rw [hstore, hafter]
        · rw [hbytes]
          omega
        · rw [hbytes]
          omega
    · rw [if_neg hafter] at hroom hlast
      omega
  · rw [if_neg hlast] at hstore
    refine .inl ⟨⟨pd, entryCost env pd, if t.timing then some now else none⟩, ?_, rfl⟩
    exact (lookup_of_store hstore _).trans (AList.lookup_insert _)

/-! ## Quiet roots -/

/-- A root that loses documents is left with no fewer than any other one has, up to one. -/
def Spares (root : R) (Q Q' : Queues R (DiagnosticKey R)) : Prop :=
  ∀ r, r ≠ root → Q' r ≠ Q r → ∀ x, (Q' x).length ≤ (Q' r).length + 1

omit [LinearOrder R] in
theorem spares_of_same {Q Q' : Queues R (DiagnosticKey R)} (h : ∀ r, r ≠ root → Q' r = Q r) :
    Spares root Q Q' := fun r hr hne => absurd (h r hr) hne

theorem spares_admit (h : Valid env s) (cost now : Nat) :
    Spares pd.root s.store.queue (s.admitEntry env pd cost now).store.queue := by
  by_cases hneed : cost + s.store.rootCost env pd.root ≤ maxQueueBytes
  · obtain ⟨hrun, -⟩ :=
      evictLoop_evictions cost (s.rootCost env pd.root) pd.root (s.pending.keys.length + 1) h
      (by rw [rootCost_eq h.store]; exact hneed) (Nat.lt_succ_self _)
    have hshed := shed_evictLoop cost (s.rootCost env pd.root) pd.root (s.pending.keys.length + 1) h
    rw [admit_eq h hneed, store_enqueueIfRoom hshed.valid.store]
    generalize evictLoop env cost (s.rootCost env pd.root) pd.root (s.pending.keys.length + 1) s =
      t at hrun
    intro r hr hlost x
    by_cases hroom : t.NoRoom cost (t.rootCost env pd.root)
    · rw [if_pos hroom] at hlost ⊢
      exact (hrun.spares hlost).1 x
    · rw [if_neg hroom, queue_add_eq] at hlost ⊢
      rw [Function.update_of_ne (show r ≠ (keyOf pd).root from hr)] at hlost ⊢
      obtain ⟨hall, hown⟩ := hrun.spares hlost
      by_cases hx : x = (keyOf pd).root
      · rw [hx, Function.update_self, length_append, length_singleton]
        exact Nat.add_le_add_right (hown hr) 1
      · rw [Function.update_of_ne hx]
        exact hall x
  · rw [admit_of_needed h hneed, store_rejectCapacity]
    exact spares_of_same fun _ _ => rfl

theorem spares_replace {old : Entry R} (h : Valid env s)
    (hold : s.pending.lookup (keyOf pd) = some old) :
    Spares pd.root s.store.queue (s.replace env pd (entryCost env pd) old).store.queue := by
  have hmax : maxQueueBytes < 2 ^ 64 - 1 := by decide
  rw [replace]
  refine spares_of_same fun r hr => ?_
  split_ifs with hroom
  · rw [store_rejectCapacity, store_removePending h.store, queue_remove env hold]
    exact if_neg hr
  · rw [lt_satAdd hmax] at hroom
    rw [store_supersede pd (by omega)]
    rfl

end

theorem bus_publish (calls : List (Call R)) (pd : PublishedDiagnostics R) (now : Nat) :
    bus env (calls ++ [.publish pd now]) = (bus env calls).publish env pd now := by
  rw [bus, Transducer.after_concat]
  rfl

/-- **Quiet roots are spared.** After any calls, whatever becomes of a publication, a root other
than its own that loses documents to it is left with no fewer than any other root has, up to one. -/
theorem bus_spares_quiet_roots (env : Env R) (calls : List (Call R)) (pd : PublishedDiagnostics R)
    (now : Nat) :
    Spares pd.root (bus env calls).store.queue
      (bus env (calls ++ [.publish pd now])).store.queue := by
  have h : Valid env (bus env calls) := valid_bus calls
  rw [bus_publish]
  by_cases haccepts : Accepts (bus env calls) pd
  · obtain ⟨st, hst, hgen, hseq⟩ := haccepts
    have hstore : ((bus env calls).heard pd st).store = (bus env calls).store :=
      store_setStream _ _ _
    rw [publish_eq hst hgen hseq, accept, ← hstore]
    split
    · rename_i old hold
      exact spares_replace (valid_heard h hst) hold
    · exact spares_admit (valid_heard h hst) _ now
  · rw [publish_refused haccepts]
    exact spares_of_same fun _ _ => rfl

/-- **A publication that fits is admitted unless it is stranded.** After any calls, a publication
that the checks let through, of a document that is not pending, is pending when it fits into the bus
at all. The one exception: the last document of its root was given up for it, and what was given up
left no room for the root; then its loss is recorded. -/
theorem publish_admits (env : Env R) (calls : List (Call R)) (pd : PublishedDiagnostics R)
    (now : Nat)
    (haccepts : Accepts (bus env calls) pd)
    (hnone : (bus env calls).pending.lookup (keyOf pd) = none)
    (hneed : entryCost env pd + (bus env calls).store.rootCost env pd.root ≤ maxQueueBytes) :
    (∃ entry, (bus env (calls ++ [.publish pd now])).pending.lookup (keyOf pd) = some entry
        ∧ entry.publication = pd)
      ∨ Stranded env (bus env calls) pd (bus env (calls ++ [.publish pd now]))
        ∧ Lost (bus env (calls ++ [.publish pd now])).registry (keyOf pd) := by
  have h : Valid env (bus env calls) := valid_bus calls
  obtain ⟨st, hst, hgen, hseq⟩ := haccepts
  have hstore : ((bus env calls).heard pd st).store = (bus env calls).store := store_setStream _ _ _
  have hpending : ((bus env calls).heard pd st).pending.lookup (keyOf pd) = none :=
    (lookup_of_store hstore _).trans hnone
  rw [bus_publish]
  rcases (published_publish h hst hgen hseq now).own with hadmitted | ⟨hlost, hmark⟩
  · exact .inl hadmitted
  · have hcases := admit_cases (valid_heard h hst) (by rw [hstore]; exact hneed) now
    rw [publish_eq hst hgen hseq, accept, hpending] at hlost hmark ⊢
    rcases hcases with hadmitted | hstranded
    · exact .inl hadmitted
    · rw [Stranded, hstore] at hstranded
      exact .inr ⟨hstranded, hmark⟩

theorem publish_admits_sample :
    (bus wideEntries wideCalls).pending.lookup ⟨0, ['s'], 1, ['a']⟩ = none ∧
      ((∃ entry, (bus wideEntries wideCalls).pending.lookup ⟨0, ['s'], 1, ['b']⟩ = some entry ∧
          entry.publication = samplePublication 0 2 ['b']) ∨
        Stranded wideEntries (bus wideEntries (wideCalls.take 2)) (samplePublication 0 2 ['b'])
            (bus wideEntries wideCalls) ∧
          Lost (bus wideEntries wideCalls).registry ⟨0, ['s'], 1, ['b']⟩) :=
  ⟨by decide, publish_admits wideEntries (wideCalls.take 2) (samplePublication 0 2 ['b']) 0
    ⟨⟨1, 1, false⟩, rfl, rfl, by decide⟩ (by decide) (by decide)⟩

end Thegn.Lsp
